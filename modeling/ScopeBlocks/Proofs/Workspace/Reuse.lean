import ScopeBlocks.Proofs.Script.Reading
import ScopeBlocks.Proofs.Workspace.Generator

/-! A generator compiles. Writing block by block fails where planning fails, and else writes the lines of what is
planned, so that what a generator makes of a workspace does not depend on what it has been left as. -/
namespace ScopeBlocks.Generator

open Block (Planned Inputs Bodies)
open Text (quote)

/-! Parts one after another. -/

section

variable {α β : Type} {m : Generating α} {f : α → Generating β} {g g' : Generator}

theorem bind_ok {a : α} (h : m g = (.ok a, g')) : (m >>= f) g = f a g' := by
  change ExceptT.bindCont f (m g).1 (m g).2 = _
  rw [h]
  rfl

theorem bind_fails {e : CompileError} (h : (m g).1 = .error e) : ((m >>= f) g).1 = .error e := by
  change (ExceptT.bindCont f (m g).1 (m g).2).1 = _
  rw [h]
  rfl

theorem modify_ok (change : Generator → Generator) (g : Generator) :
    (modify change : Generating Unit) g = (.ok (), change g) := rfl

end

def followed (code more : Coding (List String)) : Coding (List String) := do
  let lines ← code
  return lines ++ (← more)

section

variable (code more : Coding (List String)) (names : Names)

theorem run_followed : (followed code more).run names =
    ((code.run names).1 ++ (more.run (code.run names).2).1, (more.run (code.run names).2).2) := rfl

theorem run_indented : (indented <$> code).run names = (indented (code.run names).1, (code.run names).2) := rfl

end

theorem followed_followed (code more rest : Coding (List String)) :
    followed (followed code more) rest = followed code (followed more rest) :=
  funext fun _ => Prod.ext (List.append_assoc _ _ _) rfl

@[simp]
theorem wrote_nothing (g : Generator) : g.wrote (return []) [] = g := by
  change { g with output := g.output ++ unlines [], ids := g.ids ++ [] } = g
  simp [unlines]

theorem wrote_wrote (g : Generator) (code more : Coding (List String)) (ids ids' : List String) :
    (g.wrote code ids).wrote more ids' = g.wrote (followed code more) (ids ++ ids') := by
  simp [wrote, run_followed, unlines, String.append_assoc]

/-- Whether a part writes some lines and marks some blocks, whatever has been written before. -/
def Puts (m : Generating Unit) (code : Coding (List String)) (ids : List String) : Prop :=
  ∀ g, m g = (.ok (), g.wrote code ids)

/-- Whether a part fails where a plan does, and else writes the lines and marks the blocks of what is planned. -/
structure Writes {α : Type} (m : Generating Unit) (p : Planned α) (code : α → Coding (List String))
    (ids : α → List String) : Prop where
  fails : ∀ g e, p = .error e → (m g).1 = .error e
  succeeds : ∀ a, p = .ok a → Puts m (code a) (ids a)

theorem puts_pure : Puts (pure ()) (return []) [] := fun g => by
  rw [wrote_nothing]
  rfl

theorem puts_put (code : Coding (List String)) : Puts (put code) code [] := fun _ => rfl

theorem puts_mark (id : String) : Puts (mark id) (return ["mark(" ++ quote id ++ ");"]) [id] := fun _ => rfl

theorem Puts.then {m m' : Generating Unit} {code code' : Coding (List String)} {ids ids' : List String}
    (h : Puts m code ids) (h' : Puts m' code' ids') : Puts (m >>= fun _ => m') (followed code code') (ids ++ ids') :=
  fun g => by rw [bind_ok (h g), h' _, wrote_wrote]

theorem Puts.nested {m : Generating Unit} {code : Coding (List String)} {ids : List String} (h : Puts m code ids) :
    Puts (nested m) (indented <$> code) ids := by
  intro g
  have hinner := h { g with depth := g.depth + 1 }
  unfold Generator.nested
  rw [bind_ok (modify_ok _ g), bind_ok hinner, modify_ok]
  have hout : ({ g with depth := g.depth + 1 } : Generator).wrote code ids =
      { g.wrote (indented <$> code) ids with depth := g.depth + 1 } := by
    rw [wrote, wrote, run_indented]
    simp [indented, margin, unlines, Function.comp_def, String.append_assoc]
  rw [hout]
  rfl

namespace Writes

variable {α β γ : Type} {m m' : Generating Unit} {p : Planned α} {p' : Planned β} {code : α → Coding (List String)}
  {code' : β → Coding (List String)} {ids : α → List String} {ids' : β → List String}

theorem planned {a : α} (h : Puts m (code a) (ids a)) : Writes m (.ok a : Planned α) code ids where
  fails g e hp := by cases hp
  succeeds b hp := by cases hp; exact h

theorem failing {e : CompileError} (h : ∀ g, (m g).1 = .error e) : Writes m (.error e : Planned α) code ids where
  fails g e' hp := by cases hp; exact h g
  succeeds a hp := by cases hp

theorem nested (h : Writes m p code ids) : Writes (nested m) p (fun a => indented <$> code a) ids where
  fails g e hp := by
    unfold Generator.nested
    rw [bind_ok (modify_ok _ g)]
    exact bind_fails (h.fails _ e hp)
  succeeds a hp := (h.succeeds a hp).nested

theorem after (h : Writes m' p' code' ids') {opening : Coding (List String)} {marked : List String}
    (hm : Puts m opening marked) :
    Writes (m >>= fun _ => m') p' (fun b => followed opening (code' b)) fun b => marked ++ ids' b where
  fails g e hp := by
    rw [bind_ok (hm g)]
    exact h.fails _ e hp
  succeeds b hp := hm.then (h.succeeds b hp)

theorem close (h : Writes m p code ids) {closing : Coding (List String)} {marked : List String}
    (hm : Puts m' closing marked) :
    Writes (m >>= fun _ => m') p (fun a => followed (code a) closing) fun a => ids a ++ marked where
  fails g e hp := bind_fails (h.fails g e hp)
  succeeds a hp := (h.succeeds a hp).then hm

theorem map (h : Writes m p code ids) {codes : γ → Coding (List String)} {marked : γ → List String} (f : α → γ)
    (hcode : ∀ a, codes (f a) = code a) (hids : ∀ a, marked (f a) = ids a) :
    Writes m (p >>= fun a => pure (f a)) codes marked := by
  cases hp : p with
  | error e => exact .failing fun g => h.fails g e hp
  | ok a => exact .planned (by rw [hcode, hids]; exact h.succeeds a hp)

theorem seq (h : Writes m p code ids) (h' : Writes m' p' code' ids') {codes : γ → Coding (List String)}
    {marked : γ → List String} (f : α → β → γ) (hcode : ∀ a b, codes (f a b) = followed (code a) (code' b))
    (hids : ∀ a b, marked (f a b) = ids a ++ ids' b) :
    Writes (m >>= fun _ => m') (p >>= fun a => p' >>= fun b => pure (f a b)) codes marked := by
  cases hp : p with
  | error e => exact .failing fun g => bind_fails (h.fails g e hp)
  | ok a =>
    have hfirst := h.succeeds a hp
    exact (h'.after hfirst).map (f a) (hcode a) (hids a)

theorem pair (h : Writes m p code ids) (h' : Writes m' p' code' ids') :
    Writes (m >>= fun _ => m') (p >>= fun a => p' >>= fun b => pure (a, b))
      (fun x => followed (code x.1) (code' x.2)) fun x => ids x.1 ++ ids' x.2 :=
  h.seq h' Prod.mk (fun _ _ => rfl) fun _ _ => rfl

theorem lifted {q : Planned β} {m : β → Generating Unit} {p : β → Planned α}
    (h : ∀ b, Writes (m b) (p b) code ids) :
    Writes (lift q >>= m) (q >>= p) code ids := by
  cases q with
  | error e => exact .failing fun _ => rfl
  | ok b => exact h b

end Writes

/-! Blocks. -/

section

variable (c : Block.Chain)

theorem choose_lines (branches : List (Term × Block.Chain)) (otherwise : Option Block.Chain) :
    (Action.choose branches otherwise).lines =
      followed (branchLines "if (" branches) (followed (otherwiseLines otherwise) (return ["\x7d"])) := by
  rw [Action.lines]
  exact followed_followed (branchLines "if (" branches) (otherwiseLines otherwise) (return ["\x7d"])

theorem countedLoop_lines (count : Count) :
    (Action.countedLoop count c).lines = followed count.lines (followed (chainLines c) (return ["\x7d"])) := by
  rw [Action.lines]
  exact followed_followed count.lines (chainLines c) (return ["\x7d"])

theorem whileLoop_lines (negated : Bool) (cond : Term) :
    (Action.whileLoop negated cond c).lines =
      followed (whileHead negated cond) (followed (chainLines c) (return ["\x7d"])) := by
  rw [Action.lines]
  rfl

theorem rangeLoop_lines (name : String) (bounds : Bounds) :
    (Action.rangeLoop name bounds c).lines =
      followed (rangeHeadOf name bounds) (followed (chainLines c) (return ["\x7d"])) := by
  rw [Action.lines]
  exact followed_followed (rangeHeadOf name bounds) (chainLines c) (return ["\x7d"])

end

/-- Whether chains are written as they are planned. -/
def Agree (chains : Chains) (bodies : Bodies) : Prop :=
  ∀ name, Writes (nested (chains.get name)) (bodies.get name) chainLines chainIds

section

variable {b : Block} {ins : Inputs} {chains : Chains} {bodies : Bodies}

theorem writes_write {α : Type} {p : Planned α} {code : α → Coding (List String)} {ids : α → List String}
    (hids : ∀ a, p = .ok a → ids a = []) : Writes (write (do return code (← p))) p code ids where
  fails g e hp := by rw [hp]; rfl
  succeeds a hp := by
    rw [hp, hids a hp]
    exact puts_put (code a)

theorem loop_writes {α β : Type} {p : Planned α} {q : Planned β} {head : α → Coding (List String)}
    {lines : β → Coding (List String)} {ids : β → List String} {body : Generating Unit}
    (hbody : Writes (nested body) q lines ids) {f : α → β → Action}
    (hlines : ∀ a c, (f a c).lines = followed (head a) (followed (lines c) (return ["\x7d"])))
    (hids : ∀ a c, (f a c).ids = ids c) :
    Writes (loop (do return head (← p)) body) (p >>= fun a => q >>= fun c => pure (f a c)) Action.lines Action.ids :=
  (writes_write fun _ _ => rfl).seq (hbody.close (puts_put (return ["\x7d"]))) f hlines fun a c => by simp [hids]

variable (h : Agree chains bodies)

include h

theorem branches_writes (word : String) (l : List Nat) :
    Writes (branches ins chains word l)
      (l.mapM fun i => do
        let cond ← ins.get s!"IF{i}" (.truth false)
        return (cond, ← bodies.get s!"DO{i}"))
      (branchLines word) branchIds := by
  induction l generalizing word with
  | nil => exact .planned puts_pure
  | cons i l ih =>
    rw [List.mapM_cons, branches]
    have hhead : Writes _ (ins.get s!"IF{i}" (.truth false)) (branchHead word) fun _ => [] :=
      writes_write fun _ _ => rfl
    have hbranch : Writes _ _ (branchLines word) branchIds :=
      hhead.seq ((h s!"DO{i}").pair (ih "\x7d else if (")) (fun cond x => (cond, x.1) :: x.2) (fun _ _ => rfl)
        fun _ _ => rfl
    simpa only [bind_assoc, pure_bind] using hbranch

theorem choice_writes : Writes (choice b ins chains) (b.chooseOf ins bodies) Action.lines Action.ids := by
  refine Writes.lifted fun n => ?_
  have hbranches : Writes _ (Block.branchesOf ins bodies n) (branchLines "if (") branchIds :=
    branches_writes h "if (" (List.range n)
  have hend := puts_put (return ["\x7d"])
  dsimp only
  split
  next =>
    have hotherwise := ((h "ELSE").after (puts_put (return ["\x7d else \x7b"]))).close hend
    have hchoice : Writes _ _ Action.lines Action.ids :=
      hbranches.seq hotherwise (fun branches c => Action.choose branches (some c))
        (fun branches c => choose_lines branches (some c)) fun _ _ => by simp [Action.ids, otherwiseIds]
    simpa only [bind_assoc] using hchoice
  next =>
    exact (hbranches.close hend).map (Action.choose · none) (fun branches => choose_lines branches none) fun _ => by
      simp [Action.ids, otherwiseIds]

omit h in
theorem actionOf_leaf (hleaf : chainKinds.contains b.kind = false) (v : Block → String) (bodies : Bodies) :
    b.actionOf v ins [] = b.actionOf v ins bodies ∧ ∀ a, b.actionOf v ins bodies = .ok a → a.ids = [] := by
  unfold Block.actionOf
  split <;> rename_i hkind
  case h_9 | h_10 | h_11 | h_12 | h_13 =>
    rw [hkind] at hleaf
    cases hleaf
  case h_1 | h_2 | h_3 =>
    refine ⟨rfl, fun a ha => ?_⟩
    cases ha
    rfl
  case h_4 | h_6 | h_7 | h_8 =>
    refine ⟨rfl, fun a ha => ?_⟩
    obtain ⟨t, -, ha⟩ := bind_eq_ok ha
    cases ha
    rfl
  case h_5 =>
    refine ⟨rfl, fun a ha => ?_⟩
    obtain ⟨x, -, ha⟩ := bind_eq_ok ha
    obtain ⟨y, -, ha⟩ := bind_eq_ok ha
    obtain ⟨z, -, ha⟩ := bind_eq_ok ha
    cases ha
    rfl
  case h_14 =>
    refine ⟨rfl, fun a ha => ?_⟩
    cases ha
    split <;> rfl
  case h_15 =>
    refine ⟨rfl, fun a ha => ?_⟩
    split at ha <;> cases ha

/-- The lines after the mark of a block are those of its plan. -/
theorem statementOf_writes (v : Block → String) :
    Writes (statementOf v b ins chains) (b.actionOf v ins bodies) Action.lines Action.ids := by
  have hbody := h "DO"
  unfold statementOf
  split
  next hkind =>
    have hplan : b.actionOf v ins bodies = b.chooseOf ins bodies := by simp only [Block.actionOf, hkind]
    rw [hplan]
    exact choice_writes h
  next hkind =>
    have hplan : b.actionOf v ins bodies =
        ((.ok (.fixed (b.numberField "TIMES")) : Planned Count) >>= fun count => bodies.get "DO" >>= fun c =>
          pure (.countedLoop count c)) := by
      simp only [Block.actionOf, hkind]
      rfl
    rw [hplan]
    exact loop_writes (p := .ok (Count.fixed (b.numberField "TIMES"))) hbody
      (fun count c => countedLoop_lines c count) fun _ _ => by rw [Action.ids]
  next hkind =>
    have hplan : b.actionOf v ins bodies =
        (b.countOf ins >>= fun count => bodies.get "DO" >>= fun c => pure (.countedLoop count c)) := by
      simp only [Block.actionOf, hkind]
    rw [hplan]
    exact loop_writes hbody (fun count c => countedLoop_lines c count) fun _ _ => by rw [Action.ids]
  next hkind =>
    have hplan : b.actionOf v ins bodies =
        (ins.get "BOOL" (.truth false) >>= fun cond => bodies.get "DO" >>= fun c =>
          pure (.whileLoop (b.field? "MODE" = some "UNTIL") cond c)) := by
      simp only [Block.actionOf, hkind]
    rw [hplan]
    exact loop_writes hbody (fun cond c => whileLoop_lines c _ cond) fun _ _ => by rw [Action.ids]
  next hkind =>
    have hplan : b.actionOf v ins bodies =
        (b.boundsOf ins >>= fun bounds => bodies.get "DO" >>= fun c => pure (.rangeLoop (v b) bounds c)) := by
      simp only [Block.actionOf, hkind]
    rw [hplan]
    exact loop_writes hbody (fun bounds c => rangeLoop_lines c (v b) bounds) fun _ _ => by rw [Action.ids]
  next hchoice hfixed hcounted hwhile hfor =>
    have hleaf : chainKinds.contains b.kind = false := by
      simpa [chainKinds] using And.intro hchoice ⟨hfixed, hcounted, hwhile, hfor⟩
    obtain ⟨hsame, hids⟩ := actionOf_leaf hleaf v bodies
    rw [hsame]
    exact writes_write hids

end

theorem actionOf_of_check {b : Block} {e : CompileError} (h : checkStatement b = .error e) (v : Block → String)
    (ins : Inputs) (bodies : Bodies) : b.actionOf v ins bodies = .error e := by
  unfold Block.actionOf
  split <;> rename_i hkind
  case h_15 =>
    unfold checkStatement at h
    split at h <;> cases h
    next hvalue => rw [if_pos hvalue]
    next hnone => rw [hnone, if_neg (by decide)]
  all_goals
    have hshape : Shape.ofKind? b.kind = some .statement := by rw [hkind]; rfl
    rw [checkStatement, hshape] at h
    cases h

theorem marked_writes {v : Block → String} {b : Block} {ins : Inputs} {chains : Chains} {bodies : Bodies}
    (h : Agree chains bodies) :
    Writes (lift (checkStatement b) >>= fun _ => mark b.id >>= fun _ => statementOf v b ins chains)
      (b.actionOf v ins bodies) (fun a => (Item.action b.id a).lines) fun a => (Item.action b.id a).ids := by
  cases hcheck : checkStatement b with
  | ok _ => exact (statementOf_writes h v).after (puts_mark b.id)
  | error e =>
    rw [actionOf_of_check hcheck]
    exact .failing fun _ => rfl

def statementLines (c : Block.Chain) : Coding (List String) := stackLines (c.map fun x => .action x.1 x.2)

theorem chainLines_eq (c : Block.Chain) : chainLines c = indented <$> statementLines c := by
  induction c with
  | nil => rfl
  | cons x c ih =>
    rw [chainLines, ih]
    funext names
    exact Prod.ext List.map_append.symm rfl

mutual

theorem statement_writes (v : Block → String) : (b : Block) →
    Writes (statement v b) (b.action v) (fun a => (Item.action b.id a).lines) fun a => (Item.action b.id a).ids
  | ⟨id, kind, position, disabled, fields, values, ⟨statements⟩, mutation⟩ => by
    rw [statement, Block.action]
    exact marked_writes (chains_agree v statements)

theorem chain_writes (v : Block → String) : (bs : List Block) →
    Writes (chain v bs) (Block.chain v bs) statementLines chainIds
  | [] => by
    rw [chain, Block.chain]
    exact .planned puts_pure
  | b :: rest => by
    rw [chain, Block.chain]
    split
    next => exact chain_writes v rest
    next =>
      have hrest := chain_writes v rest
      exact (statement_writes v b).seq hrest (fun a c => (b.id, a) :: c) (fun _ _ => rfl) fun _ _ => rfl

theorem chains_agree (v : Block → String) : (statements : List (String × List Block)) →
    Agree (chains v statements) (Block.bodies v statements)
  | [], name => by
    rw [chains, Block.bodies]
    exact .planned (puts_pure.nested)
  | (key, c) :: rest, name => by
    have hchain : Writes (nested (chain v c)) (Block.chain v c) chainLines chainIds := by
      simpa only [← chainLines_eq] using (chain_writes v c).nested
    have hrest := chains_agree v rest name
    rw [chains, Block.bodies, Chains.get, Bodies.get, List.lookup_cons, List.lookup_cons]
    cases name == key with
    | true => exact hchain
    | false => exact hrest

end

/-! Stacks. -/

theorem item_writes (v : Block → String) (b : Block) : Writes (item v b) (b.item v) Item.lines Item.ids := by
  unfold item Block.item
  split
  next =>
    have hterm : Writes _ (b.term v) (fun t => (Item.value t).lines) fun _ => [] := writes_write fun _ _ => rfl
    exact hterm.map Item.value (fun _ => rfl) fun _ => rfl
  next => exact (statement_writes v b).map (Item.action b.id) (fun _ => rfl) fun _ => rfl

theorem stack_writes (v : Block → String) (bs : List Block) :
    Writes (stack v bs) (bs.mapM (Block.item v)) stackLines (·.flatMap Item.ids) := by
  induction bs with
  | nil => exact .planned puts_pure
  | cons b bs ih =>
    rw [stack, List.mapM_cons]
    exact (item_writes v b).seq ih List.cons (fun _ _ => rfl) fun _ _ => rfl

def appended (g : Generator) (text : String) (names : Names) (ids : List String) : Generator :=
  { g with
    output := g.output ++ text
    names := names
    ids := g.ids ++ ids }

@[simp]
theorem appended_appended (g : Generator) (text more : String) (names names' : Names) (ids ids' : List String) :
    (g.appended text names ids).appended more names' ids' = g.appended (text ++ more) names' (ids ++ ids') := by
  simp [appended, String.append_assoc]

theorem wrote_at_margin {g : Generator} (hdepth : g.depth = 0) (code : Coding (List String)) (ids : List String) :
    g.wrote code ids = g.appended (unlines (code.run g.names).1) (code.run g.names).2 ids := by
  have hmargin : (margin g.depth ++ ·) = id := by
    rw [hdepth]
    exact funext fun line => String.empty_append
  rw [wrote, hmargin, List.map_id]
  rfl

def filled (g : Generator) (plans : List (List Item)) : Generator :=
  g.appended ("\n".intercalate ((stackTexts plans).run g.names).1) ((stackTexts plans).run g.names).2
    (plans.flatMap (·.flatMap Item.ids))

theorem run_stackTexts (plan : List Item) (plans : List (List Item)) (names : Names) :
    (stackTexts (plan :: plans)).run names =
      (unlines ((stackLines plan).run names).1 :: ((stackTexts plans).run ((stackLines plan).run names).2).1,
        ((stackTexts plans).run ((stackLines plan).run names).2).2) := rfl

theorem filled_nil (g : Generator) : g.filled [] = g := by
  change g.appended ("\n".intercalate []) g.names [] = g
  simp [appended]

section

variable {g : Generator} (hdepth : g.depth = 0)

include hdepth

theorem filled_single (plan : List Item) : g.filled [plan] = g.wrote (stackLines plan) (plan.flatMap Item.ids) := by
  rw [wrote_at_margin hdepth, filled, run_stackTexts, List.flatMap_singleton]
  exact congrArg (g.appended · _ _) (String.intercalate_singleton ..)

/-- The state when the first one of several stacks has been written. -/
def beyond (g : Generator) (plan : List Item) : Generator :=
  (g.wrote (stackLines plan) (plan.flatMap Item.ids)).appended "\n" ((stackLines plan).run g.names).2 []

theorem filled_cons (plan next : List Item) (plans : List (List Item)) :
    g.filled (plan :: next :: plans) = (g.beyond plan).filled (next :: plans) := by
  have htexts (t : String) (names : Names) :
      "\n".intercalate (t :: ((stackTexts (next :: plans)).run names).1) =
        t ++ "\n" ++ "\n".intercalate ((stackTexts (next :: plans)).run names).1 := by
    rw [run_stackTexts next, String.intercalate_cons_cons]
  rw [beyond, wrote_at_margin hdepth, appended_appended, filled, filled, appended_appended, run_stackTexts plan,
    List.append_nil]
  exact congrArg (g.appended · _ _) (htexts _ _)

end

/-- Whether a part fails where the plan of some stacks does, and else writes their texts. -/
structure Fills (m : Generating Unit) (p : Planned (List (List Item))) (g : Generator) : Prop where
  fails : ∀ e, p = .error e → (m g).1 = .error e
  succeeds : ∀ plans, p = .ok plans → m g = (.ok (), g.filled plans)

section

variable {m : Generating Unit} {g : Generator}

theorem Fills.failing {e : CompileError} (h : (m g).1 = .error e) : Fills m (.error e) g where
  fails e' hp := by cases hp; exact h
  succeeds plans hp := by cases hp

theorem Fills.planned {plans : List (List Item)} (h : m g = (.ok (), g.filled plans)) : Fills m (.ok plans) g where
  fails e hp := by cases hp
  succeeds plans' hp := by cases hp; exact h

end

theorem gap_ok (g : Generator) : gap g = (.ok (), g.appended "\n" g.names []) := by
  rw [gap, modify_ok]
  simp [appended]

theorem allStacks_fills (w : Workspace) (ss : List (List Block)) {g : Generator} (hdepth : g.depth = 0) :
    Fills (allStacks w.variableOf ss) (ss.mapM w.planStack) g := by
  induction ss generalizing g with
  | nil =>
    rw [List.mapM_nil]
    exact .planned (by rw [filled_nil]; rfl)
  | cons s rest ih =>
    have hstack : Writes _ (w.planStack s) stackLines fun plan => plan.flatMap Item.ids :=
      stack_writes w.variableOf (s.filter (!·.disabled))
    rw [List.mapM_cons]
    cases hplan : w.planStack s with
    | error e =>
      have hfirst := hstack.fails g e hplan
      refine .failing ?_
      cases rest with
      | nil => exact hfirst
      | cons s' rest => exact bind_fails hfirst
    | ok plan =>
      have hfirst := hstack.succeeds plan hplan g
      -- a blank line is written between two stacks, none behind the last one
      cases rest with
      | nil =>
        rw [List.mapM_nil]
        exact .planned (by rw [allStacks, hfirst, filled_single hdepth])
      | cons s' rest =>
        have hnext : allStacks w.variableOf (s :: s' :: rest) g = allStacks w.variableOf (s' :: rest) (g.beyond plan) := by
          rw [allStacks, bind_ok hfirst, bind_ok (gap_ok _)]
          rfl
        have hrest : Fills _ _ (g.beyond plan) := ih hdepth
        cases hplans : (s' :: rest).mapM w.planStack with
        | error e => exact .failing (by rw [hnext]; exact hrest.fails e hplans)
        | ok plans =>
          refine .planned ?_
          rw [hnext, hrest.succeeds plans hplans]
          rw [List.mapM_cons] at hplans
          obtain ⟨next, -, hplans⟩ := bind_eq_ok hplans
          obtain ⟨plans', -, hplans⟩ := bind_eq_ok hplans
          cases hplans
          rw [filled_cons hdepth]

/-- What is generated for a workspace is what it compiles to, whatever the generator has been left as. -/
theorem generate_eq (g : Generator) (w : Workspace) : (g.generate w).1 = w.compile := by
  let begun : Generator := ⟨0, "" ++ Workspace.header w.names, w.names, w.vars, []⟩
  have hstacks : Fills _ _ begun := allStacks_fills w w.orderedStacks rfl
  change ((allStacks w.variableOf w.orderedStacks >>= fun _ => _ : Generating Compiled) begun).1 = _
  unfold Workspace.compile Workspace.plan
  cases hplan : w.orderedStacks.mapM w.planStack with
  | error e => exact bind_fails (hstacks.fails e hplan)
  | ok plans =>
    rw [bind_ok (hstacks.succeeds plans hplan)]
    change Except.ok (Compiled.mk ("" ++ Workspace.header w.names ++ _) _) = _
    rw [String.empty_append]
    rfl

end ScopeBlocks.Generator
