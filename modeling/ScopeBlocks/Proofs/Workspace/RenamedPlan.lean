import Mathlib.Data.List.Forall2
import ScopeBlocks.Proofs.Workspace.Renaming

/-! Planning looks at no name of a variable. The plan of a workspace with its variables called otherwise
fails with the same error, or marks the same blocks in the same order. -/
namespace ScopeBlocks

/-- Whether two plans are refused for one reason, or are there and related. -/
inductive Alike {α β : Type} (R : α → β → Prop) : Block.Planned α → Block.Planned β → Prop
  | ok {a : α} {b : β} (h : R a b) : Alike R (.ok a) (.ok b)
  | error (e : CompileError) : Alike R (.error e) (.error e)

namespace Alike

variable {α β γ δ : Type} {R : α → β → Prop} {Q : γ → δ → Prop} {x : Block.Planned α}
  {y : Block.Planned β}

theorem pure {a : α} {b : β} (h : R a b) : Alike R (Pure.pure a) (Pure.pure b) := .ok h

theorem bind {f : α → Block.Planned γ} {g : β → Block.Planned δ} (h : Alike R x y)
    (hf : ∀ a b, R a b → Alike Q (f a) (g b)) : Alike Q (x >>= f) (y >>= g) := by
  cases h with
  | ok h => exact hf _ _ h
  | error e => exact .error e

theorem imp {E : α → β → Prop} (h : Alike R x y) (hE : ∀ a b, x = .ok a → y = .ok b → R a b → E a b) :
    Alike E x y := by
  cases h with
  | ok h => exact .ok (hE _ _ rfl rfl h)
  | error e => exact .error e

theorem mapM {ι κ : Type} {f : ι → Block.Planned α} {g : κ → Block.Planned β} {r : ι → κ} {l : List ι}
    (h : ∀ i ∈ l, Alike R (f i) (g (r i))) : Alike (List.Forall₂ R) (l.mapM f) ((l.map r).mapM g) := by
  induction l with
  | nil => exact .ok .nil
  | cons i l ih =>
    rw [List.map_cons, List.mapM_cons, List.mapM_cons]
    refine (h i List.mem_cons_self).bind fun a b hab => ?_
    refine (ih fun j hj => h j (List.mem_cons_of_mem _ hj)).bind fun as bs habs => ?_
    exact .pure (.cons hab habs)

theorem mapM_same {ι : Type} {f : ι → Block.Planned α} {g : ι → Block.Planned β} {l : List ι}
    (h : ∀ i ∈ l, Alike R (f i) (g i)) : Alike (List.Forall₂ R) (l.mapM f) (l.mapM g) := by
  have hmapped : Alike (List.Forall₂ R) (l.mapM f) ((l.map id).mapM g) := .mapM h
  rwa [List.map_id] at hmapped

theorem bind_same {ι : Type} {x : Block.Planned ι} {f : ι → Block.Planned γ} {g : ι → Block.Planned δ}
    (hf : ∀ a, Alike Q (f a) (g a)) : Alike Q (x >>= f) (x >>= g) := by
  cases x with
  | ok a => exact hf a
  | error e => exact .error e

theorem lookup {l : List (String × Block.Planned α)} {m : List (String × Block.Planned β)}
    (h : List.Forall₂ (fun p q => q.1 = p.1 ∧ Alike R p.2 q.2) l m) (name : String) {a : α} {b : β}
    (hab : R a b) : Alike R ((l.lookup name).getD (.ok a)) ((m.lookup name).getD (.ok b)) := by
  induction h with
  | nil => exact .ok hab
  | @cons p q _ _ hp _ ih =>
    obtain ⟨key, x⟩ := p
    obtain ⟨key', y⟩ := q
    obtain ⟨rfl, hxy⟩ := hp
    rw [List.lookup_cons, List.lookup_cons]
    cases name == key' with
    | true => exact hxy
    | false => exact ih

end Alike

/-- Terms of plans that are both there. -/
def Present (_ _ : Term) : Prop := True

namespace Block

variable {v v' : Block → String} {f : String → String} {ins ins' : Inputs}

/-- Whether the sockets of two blocks have the same names and plans that are alike. -/
def InputsAlike : Inputs → Inputs → Prop :=
  List.Forall₂ fun p p' => p'.1 = p.1 ∧ Alike Present p.2 p'.2

theorem InputsAlike.get (h : InputsAlike ins ins') (name : String) (default : Term) :
    Alike Present (ins.get name default) (ins'.get name default) := .lookup h name trivial

theorem binaryTerm_alike (h : InputsAlike ins ins') (op : Script.BinaryOp) (left right : String)
    (default : Term) :
    Alike Present (binaryTerm ins op left right default) (binaryTerm ins' op left right default) :=
  (h.get left default).bind fun _ _ _ => (h.get right default).bind fun _ _ _ => .pure trivial

theorem socketCount_rename (b : Block) (declared : Nat) (words : List String) :
    (b.rename f).socketCount declared words = b.socketCount declared words := by
  unfold socketCount
  rw [keys_rename, rename_id]

theorem termOf_alike (b : Block) (h : InputsAlike ins ins') :
    Alike Present (termOf v b ins) (termOf v' (b.rename f) ins') := by
  unfold termOf
  rw [rename_kind]
  split <;> rename_i hkind
  case h_1 | h_2 | h_3 | h_4 | h_5 | h_6 | h_7 => exact .ok trivial
  case h_8 =>
    have hop : (b.rename f).arithmeticOp = b.arithmeticOp := by simp [arithmeticOp]
    rw [hop]
    refine .bind_same fun op => ?_
    exact binaryTerm_alike h op _ _ _
  case h_9 => exact binaryTerm_alike h _ _ _ _
  case h_10 =>
    have hop : (b.rename f).compareOp = b.compareOp := by simp [compareOp]
    rw [hop]
    exact binaryTerm_alike h _ _ _ _
  case h_11 =>
    have hop : (b.rename f).logicOp = b.logicOp := by simp [logicOp]
    rw [hop]
    exact binaryTerm_alike h _ _ _ _
  case h_12 => exact (h.get _ _).bind fun _ _ _ => .pure trivial
  case h_13 =>
    rw [socketCount_rename, mutationCount_rename]
    refine .bind_same fun n => ?_
    exact (Alike.mapM_same fun i _ => h.get _ _).bind fun _ _ _ => .pure trivial
  case h_14 => exact .ok trivial
  case h_15 => exact (h.get _ _).bind fun _ _ _ => .pure trivial
  case h_16 =>
    split
    · rw [rename_id]
      exact .error _
    · rw [unknown, unknown, rename_id, rename_kind]
      exact .error _

mutual

theorem term_alike : (b : Block) → Alike Present (b.term v) ((b.rename f).term v')
  | ⟨id, kind, position, disabled, fields, ⟨values⟩, ⟨statements⟩, mutation⟩ => by
    rw [term]
    exact termOf_alike _ (inputs_alike values)

theorem inputs_alike : (values : List (String × Socket Block)) →
    InputsAlike (inputs v values) (inputs v' (renameSockets f values))
  | [] => .nil
  | (_, ⟨some b, _⟩) :: rest => .cons ⟨rfl, term_alike b⟩ (inputs_alike rest)
  | (_, ⟨none, some b⟩) :: rest => .cons ⟨rfl, term_alike b⟩ (inputs_alike rest)
  | (_, ⟨none, none⟩) :: rest => inputs_alike rest

end

/-! Statements. -/

/-- Chains, and actions, that mark the same blocks. -/
def SameMarks (c c' : Chain) : Prop := chainIds c' = chainIds c

def SameIds (a a' : Action) : Prop := a'.ids = a.ids

def BodiesAlike : Bodies → Bodies → Prop :=
  List.Forall₂ fun p p' => p'.1 = p.1 ∧ Alike SameMarks p.2 p'.2

variable {bodies bodies' : Bodies}

theorem BodiesAlike.get (h : BodiesAlike bodies bodies') (name : String) :
    Alike SameMarks (bodies.get name) (bodies'.get name) := .lookup h name rfl

theorem countOf_alike (b : Block) (h : InputsAlike ins ins') :
    Alike (fun _ _ => True) (b.countOf ins) ((b.rename f).countOf ins') := by
  unfold countOf
  rw [input?_rename]
  cases b.input? "TIMES" with
  | none => exact .ok trivial
  | some times =>
    dsimp only [Option.map_some]
    rw [rename_kind]
    split
    · exact .ok trivial
    · exact (h.get _ _).bind fun _ _ _ => .pure trivial

theorem boundsOf_alike (b : Block) (h : InputsAlike ins ins') :
    Alike (fun _ _ => True) (b.boundsOf ins) ((b.rename f).boundsOf ins') := by
  unfold boundsOf
  simp only [knownBound?_rename]
  split
  · exact .ok trivial
  · refine (h.get _ _).bind fun _ _ _ => (h.get _ _).bind fun _ _ _ => ?_
    exact (h.get _ _).bind fun _ _ _ => .pure trivial

theorem branchIds_eq {bs bs' : List (Term × Chain)}
    (h : List.Forall₂ (fun p p' => SameMarks p.2 p'.2) bs bs') : branchIds bs' = branchIds bs := by
  induction h with
  | nil => rfl
  | cons hp _ ih => rw [branchIds, branchIds, hp, ih]

theorem chooseOf_alike (b : Block) (h : InputsAlike ins ins') (hb : BodiesAlike bodies bodies') :
    Alike SameIds (b.chooseOf ins bodies) ((b.rename f).chooseOf ins' bodies') := by
  have hbranches (n : Nat) : Alike (fun bs bs' => branchIds bs' = branchIds bs)
      (branchesOf ins bodies n) (branchesOf ins' bodies' n) := by
    have hall : Alike (List.Forall₂ fun p p' => SameMarks p.2 p'.2) (branchesOf ins bodies n)
        (branchesOf ins' bodies' n) := .mapM_same fun i _ =>
      (h.get _ _).bind fun _ _ _ => (hb.get _).bind fun _ _ hc => .pure hc
    exact hall.imp fun _ _ _ _ hbs => branchIds_eq hbs
  unfold chooseOf
  simp only [mutationCount_rename, socketCount_rename, contains_rename]
  refine .bind_same fun n => ?_
  refine (hbranches n).bind fun bs bs' hbs => ?_
  split
  · refine (hb.get "ELSE").bind fun c c' hc => .pure ?_
    exact congrArg₂ (· ++ ·) hbs hc
  · exact .pure (congrArg (· ++ []) hbs)

theorem actionOf_alike (b : Block) (h : InputsAlike ins ins') (hb : BodiesAlike bodies bodies') :
    Alike SameIds (actionOf v b ins bodies) (actionOf v' (b.rename f) ins' bodies') := by
  unfold actionOf
  rw [rename_kind]
  split <;> rename_i hkind
  case h_1 | h_2 | h_3 => exact .ok rfl
  case h_4 | h_6 | h_7 | h_8 => exact (h.get _ _).bind fun _ _ _ => .pure rfl
  case h_5 =>
    refine (h.get _ _).bind fun _ _ _ => (h.get _ _).bind fun _ _ _ => ?_
    exact (h.get _ _).bind fun _ _ _ => .pure rfl
  case h_9 => exact chooseOf_alike b h hb
  case h_10 => exact (hb.get "DO").bind fun _ _ hc => .pure hc
  case h_11 => exact (countOf_alike b h).bind fun _ _ _ => (hb.get "DO").bind fun _ _ hc => .pure hc
  case h_12 => exact (h.get _ _).bind fun _ _ _ => (hb.get "DO").bind fun _ _ hc => .pure hc
  case h_13 => exact (boundsOf_alike b h).bind fun _ _ _ => (hb.get "DO").bind fun _ _ hc => .pure hc
  case h_14 =>
    rw [field?_rename b (by decide)]
    split <;> exact .ok rfl
  case h_15 =>
    split
    · rw [rename_id]
      exact .error _
    · rw [unknown, unknown, rename_id, rename_kind]
      exact .error _

mutual

theorem action_alike : (b : Block) → Alike SameIds (b.action v) ((b.rename f).action v')
  | ⟨id, kind, position, disabled, fields, ⟨values⟩, ⟨statements⟩, mutation⟩ => by
    rw [action]
    exact actionOf_alike _ (inputs_alike values) (bodies_alike statements)

theorem chain_alike : (c : List Block) → Alike SameMarks (chain v c) (chain v' (renameChain f c))
  | [] => .ok rfl
  | b :: rest => by
    rw [renameChain, chain, chain, rename_disabled]
    split
    · exact chain_alike rest
    · refine (action_alike b).bind fun a a' ha => (chain_alike rest).bind fun c c' hc => .pure ?_
      rw [SameMarks, chainIds, chainIds, rename_id, ha, hc]

theorem bodies_alike : (statements : List (String × List Block)) →
    BodiesAlike (Block.bodies v statements) (Block.bodies v' (renameChains f statements))
  | [] => .nil
  | (_, c) :: rest => .cons ⟨rfl, chain_alike c⟩ (bodies_alike rest)

end

theorem item_alike (b : Block) :
    Alike (fun i i' => i'.ids = i.ids) (item v b) (item v' (b.rename f)) := by
  unfold item
  rw [rename_kind, rename_id]
  split
  · exact (term_alike b).bind fun _ _ _ => .pure rfl
  · exact (action_alike b).bind fun a a' ha => .pure (congrArg (b.id :: ·) ha)

end Block

namespace Workspace

variable {w : Workspace} {f : String → String}

theorem planStack_alike (stack : List Block) :
    Alike (List.Forall₂ fun i i' => i'.ids = i.ids) (w.planStack stack)
      ((w.rename f).planStack (Block.renameChain f stack)) := by
  unfold planStack
  rw [Block.renameChain_eq_map, List.filter_map]
  simp only [Function.comp_def, Block.rename_disabled]
  exact .mapM fun b _ => Block.item_alike b

theorem flatMap_ids {items items' : List Item}
    (h : List.Forall₂ (fun i i' => i'.ids = i.ids) items items') :
    items'.flatMap Item.ids = items.flatMap Item.ids := by
  induction h with
  | nil => rfl
  | cons hi _ ih => rw [List.flatMap_cons, List.flatMap_cons, hi, ih]

/-- Planning the renamed workspace fails with the same error, or comes to a plan with the same marks. -/
theorem plan_alike : Alike
    (fun plans plans' => plans'.flatMap (·.flatMap Item.ids) = plans.flatMap (·.flatMap Item.ids))
    w.plan (w.rename f).plan := by
  have hstacks : Alike (List.Forall₂ (List.Forall₂ fun i i' => i'.ids = i.ids)) w.plan
      (w.rename f).plan := by
    unfold plan
    rw [orderedStacks_rename]
    exact .mapM fun stack _ => planStack_alike stack
  refine hstacks.imp fun plans plans' hplan hplan' hplans => ?_
  clear hplan hplan'
  induction hplans with
  | nil => rfl
  | cons hstack _ ih => rw [List.flatMap_cons, List.flatMap_cons, flatMap_ids hstack, ih]

/-- Either both workspaces are refused for one reason, or both have code that marks the same blocks. -/
theorem compile_alike : Alike (fun c c' => c'.ids = c.ids) w.compile (w.rename f).compile := by
  unfold compile
  exact plan_alike.bind fun plans plans' h => .pure h

end Workspace

end ScopeBlocks
