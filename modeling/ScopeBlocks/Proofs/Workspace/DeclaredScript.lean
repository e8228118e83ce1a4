import ScopeBlocks.Proofs.Script.FreeUses
import ScopeBlocks.Proofs.Workspace.ReadBack
import ScopeBlocks.Proofs.Workspace.Stacks

/-! What the script of a workspace uses, it has declared: the header declares the variables that blocks name,
and a loop declares its helpers right before their first use. The exception is a counting loop whose bounds
are all written down. They go into the script as they are read, and one that is no finite number stands there
as a name that nothing declares. -/
namespace ScopeBlocks

open Script (BinaryOp Covered Use freeAll freeBranches freeOtherwise)

/-! Numbers. -/

theorem Number.uses_tree (x : Number) :
    x.tree.uses = if x.isFinite then [] else [.read x.abs.text] := by
  cases x with
  | nan => rfl
  | infinite negative => cases negative <;> rfl
  | finite negative k hk =>
    simp only [Number.tree]
    split <;> rfl

theorem Number.uses_finite {x : Number} (h : x.isFinite = true) : x.tree.uses = [] := by
  rw [Number.uses_tree, if_pos h]

theorem Number.uses_abs (x : Number) : x.abs.tree.uses = x.tree.uses := by
  rw [Number.uses_tree, Number.uses_tree]
  cases x <;> rfl

theorem Number.covered_tree {known : List String} {lost : Use → Prop} {x : Number}
    (h : x.isFinite = false → lost (.read x.abs.text)) : Covered known lost x.tree.uses := by
  rw [Number.uses_tree]
  split
  next => exact .nil
  next hx => exact Covered.cons_iff.2 ⟨.inr (h (Bool.eq_false_iff.2 hx)), .nil⟩

theorem Number.uses_one : (Number.tree 1).uses = [] :=
  Number.uses_finite (by
    rw [show (1 : Number) = .ofNat 1 from rfl,
      Number.ofNat_eq_finite (Nat.one_mul _) Number.representable_unit]
    rfl)

namespace Block

theorem uses_zeroTree : zeroTree.uses = [] :=
  Number.uses_finite (congrArg Number.isFinite Number.ofNat_zero)

theorem isFinite_finiteOf (text : String) : (finiteOf text).isFinite = true := by
  simp only [finiteOf]
  split
  next => split <;> first | assumption | rfl
  next => rfl

theorem covered_numberField {known : List String} {lost : Use → Prop} (b : Block) (name : String) :
    Covered known lost (b.numberField name).tree.uses := by
  rw [numberField, Number.uses_finite (isFinite_finiteOf _)]
  exact .nil

end Block

/-! Codings. -/

/-- Whether a coding gives results of one kind wherever the variables have some identifiers, and leaves the
variables with these. -/
def Keeping {α : Type} (assigned : List (String × String)) (P : α → Prop) (m : Coding α) : Prop :=
  ∀ names : Names, names.assigned = assigned → P (m names).1 ∧ (m names).2.assigned = assigned

namespace Keeping

variable {α β : Type} {assigned : List (String × String)} {P : α → Prop} {Q : β → Prop}

theorem pure {a : α} (h : P a) : Keeping assigned P (Pure.pure a) := fun _ hn => ⟨h, hn⟩

theorem bind {m : Coding α} {f : α → Coding β} (h : Keeping assigned P m)
    (hf : ∀ a, P a → Keeping assigned Q (f a)) : Keeping assigned Q (m >>= f) := by
  intro names hn
  obtain ⟨ha, hn'⟩ := h names hn
  exact hf _ ha _ hn'

theorem get : Keeping assigned (fun names : Names => names.assigned = assigned) MonadState.get :=
  fun _ hn => ⟨hn, hn⟩

theorem helper (base : String) : Keeping assigned (fun _ => True) (helper base) :=
  fun _ hn => ⟨trivial, hn⟩

theorem mapM {γ : Type} {f : γ → Coding α} {l : List γ} (h : ∀ c ∈ l, Keeping assigned P (f c)) :
    Keeping assigned (fun as => ∀ a ∈ as, P a) (l.mapM f) := by
  induction l with
  | nil => exact .pure (by simp)
  | cons c l ih =>
    rw [List.mapM_cons]
    refine .bind (h c List.mem_cons_self) fun a ha => ?_
    refine .bind (ih fun d hd => h d (List.mem_cons_of_mem _ hd)) fun as has => .pure ?_
    exact fun x hx => (List.mem_cons.1 hx).elim (· ▸ ha) (has x)

end Keeping

/-! Statements. -/

section

variable {known : List String} {lost : Use → Prop}

/-- Whether statements use only what is known, or what may be missed. -/
def Declared (known : List String) (lost : Use → Prop) (ss : List Script.Statement) : Prop :=
  Covered known lost (freeAll ss)

theorem Declared.nil : Declared known lost [] := Covered.nil

theorem Declared.cons {s : Script.Statement} {ss : List Script.Statement} (hs : Covered known lost s.free)
    (h : Declared (s.declares ++ known) lost ss) : Declared known lost (s :: ss) :=
  Covered.append_iff.2 ⟨hs, Covered.outside_iff.2 h⟩

theorem Declared.single {s : Script.Statement} (hs : Covered known lost s.free) :
    Declared known lost [s] := .cons hs .nil

theorem Declared.append {ss ts : List Script.Statement} (hs : Declared known lost ss)
    (ht : Declared known lost ts) : Declared known lost (ss ++ ts) := by
  intro u hu
  rcases Script.mem_freeAll_append.1 hu with hu | ⟨hu, -⟩
  · exact hs u hu
  · exact ht u hu

theorem Declared.mono {known' : List String} {ss : List Script.Statement} (h : Declared known lost ss)
    (hk : known ⊆ known') : Declared known' lost ss := Covered.mono h hk

theorem Declared.flatten {sss : List (List Script.Statement)} (h : ∀ ss ∈ sss, Declared known lost ss) :
    Declared known lost sss.flatten := by
  induction sss with
  | nil => exact .nil
  | cons ss sss ih =>
    rw [List.flatten_cons]
    exact .append (h ss List.mem_cons_self) (ih fun ts ht => h ts (List.mem_cons_of_mem _ ht))

theorem covered_branches {bs : List (Script.Expr × List Script.Statement)}
    (h : ∀ p ∈ bs, Covered known lost p.1.uses ∧ Declared known lost p.2) :
    Covered known lost (freeBranches bs) := by
  induction bs with
  | nil => exact .nil
  | cons p bs ih =>
    obtain ⟨hcond, hbody⟩ := h p List.mem_cons_self
    have hrest := ih fun q hq => h q (List.mem_cons_of_mem _ hq)
    exact Covered.append_iff.2 ⟨Covered.append_iff.2 ⟨hcond, hbody⟩, hrest⟩

/-- Whether a loop uses only what is known around every body that does. -/
def DeclaredLoop (known : List String) (lost : Use → Prop) (loop : LoopTree) : Prop :=
  ∀ ss, Declared known lost ss → Declared known lost (loop ss)

theorem declaredLoop_counted {counter : String} {times : Script.Expr}
    (ht : Covered (counter :: known) lost times.uses) :
    DeclaredLoop known lost fun body => [countedTree counter times body] := by
  intro ss hs
  refine .single ?_
  have hbody := hs.mono (List.subset_cons_self counter known)
  simpa [countedTree, declaration, increase, Script.Statement.free, Script.Binding.uses,
    Script.Binding.declares, Script.Assignment.uses, Script.Expr.uses, Covered.append_iff,
    Covered.cons_iff, Covered.outside_iff, Covered.nil, Use.name] using ⟨ht, hbody⟩

theorem declaredLoop_range {ident : String} (hi : ident ∈ known) {start stop step : Number}
    (h : ∀ x ∈ [start, stop, step], Covered known lost x.tree.uses) :
    DeclaredLoop known lost fun body => [rangeTree ident start stop step body] := by
  intro ss hs
  have hstart := h start (by simp)
  have hstop := h stop (by simp)
  have hstep := h step (by simp)
  refine .single ?_
  simp only [Declared] at hs
  cases hle : start.le stop <;>
    simp [rangeTree, hle, setTo, Script.Statement.free, Script.Binding.uses, Script.Binding.declares,
      Script.Assignment.uses, Script.Expr.uses, Covered.append_iff, Covered.cons_iff,
      Covered.outside_iff, Use.name, Number.uses_abs, hi, hstart, hstop, hstep, hs]

theorem declaredLoop_computedRange {ident start stop step : String} (hi : ident ∈ known)
    {e f g : Script.Expr} (he : Covered known lost e.uses) (hf : Covered known lost f.uses)
    (hg : Covered known lost g.uses) :
    DeclaredLoop known lost fun body => rangeSetupTree start stop step e f g ++
      [computedRangeTree ident start stop step body] := by
  intro ss hs
  have hf' : Covered (start :: known) lost f.uses := hf.mono (List.subset_cons_self start known)
  have hg' : Covered (stop :: start :: known) lost g.uses := hg.mono (by intro x hx; simp [hx])
  have hbody : Covered (step :: stop :: start :: known) lost (freeAll ss) :=
    hs.mono (by intro x hx; simp [hx])
  simp [Declared, rangeSetupTree, computedRangeTree, declaration, setTo, increase, freeAll,
    freeBranches, freeOtherwise, Script.Statement.free, Script.Statement.declares, Script.Binding.uses,
    Script.Binding.declares, Script.Assignment.uses, Script.Expr.uses, Covered.append_iff,
    Covered.cons_iff, Covered.outside_iff, Covered.nil, Use.name, hi, he, hf', hg', hbody]

end

namespace Block

section

variable {known : List String} {lost : Use → Prop} {ident : Block → String} {b : Block} {ops : Operands}

/-- Whether what is plugged into sockets uses only what is known. -/
def Operands.Declared (known : List String) (lost : Use → Prop) (operands : Operands) : Prop :=
  ∀ p ∈ operands, Covered known lost p.2.uses

theorem Operands.Declared.get (h : Operands.Declared known lost ops) (name : String)
    {default : Script.Expr} (hd : default.uses = []) :
    Covered known lost (ops.get name default).uses := by
  simp only [Operands.get]
  cases hl : ops.lookup name with
  | none =>
    rw [Option.getD_none, hd]
    exact .nil
  | some e =>
    obtain ⟨l₁, l₂, he, -⟩ := List.lookup_eq_some_iff.1 hl
    exact h (name, e) (by rw [he]; simp)

theorem covered_operation (h : Operands.Declared known lost ops) (op : BinaryOp) (left right : String)
    {default : Script.Expr} (hd : default.uses = []) :
    Covered known lost (operationTree ops op left right default).uses :=
  Covered.append_iff.2 ⟨h.get left hd, h.get right hd⟩

theorem covered_parts {parts : List Script.Expr} (h : ∀ e ∈ parts, Covered known lost e.uses) :
    Covered known lost (partsTree parts).uses := by
  have hfrom : ∀ before : Script.Expr, Covered known lost before.uses →
      Covered known lost (parts.foldl (fun e part => .binary .add e part) before).uses := by
    induction parts with
    | nil => exact fun before hb => hb
    | cons part parts ih =>
      intro before hb
      refine ih (fun e he => h e (List.mem_cons_of_mem _ he)) _ ?_
      exact Covered.append_iff.2 ⟨hb, h part List.mem_cons_self⟩
  exact hfrom _ .nil

theorem covered_prompt {message : Script.Expr} (h : Covered known lost message.uses) :
    Covered known lost (b.promptTree message).uses := by
  refine Covered.append_iff.2 ⟨h, ?_⟩
  cases b.isNumericPrompt <;> exact .nil

theorem covered_exprOf (hvar : b.kind = "variables_get" → ident b ∈ known)
    (h : Operands.Declared known lost ops) : Covered known lost (exprOf ident b ops).uses := by
  unfold exprOf
  split <;> rename_i hkind
  case h_1 => exact covered_numberField b "NUM"
  case h_2 | h_3 | h_4 | h_6 | h_7 | h_16 => exact .nil
  case h_5 => exact Covered.cons_iff.2 ⟨.inl (hvar hkind), .nil⟩
  case h_8 | h_9 | h_10 => exact covered_operation h _ _ _ uses_zeroTree
  case h_11 => exact covered_operation h _ _ _ rfl
  case h_12 => exact h.get "BOOL" rfl
  case h_13 =>
    refine covered_parts fun e he => ?_
    obtain ⟨i, -, rfl⟩ := List.mem_map.1 he
    exact h.get _ rfl
  case h_14 => exact covered_prompt .nil
  case h_15 => exact covered_prompt (h.get "TEXT" rfl)

end

mutual

theorem covered_expr {known : List String} {lost : Use → Prop} {ident : Block → String} :
    (b : Block) → (∀ c ∈ b.active, c.kind = "variables_get" → ident c ∈ known) →
    Covered known lost (b.expr ident).uses
  | ⟨id, kind, position, disabled, fields, ⟨values⟩, statements, mutation⟩, h => by
    rw [active] at h
    rw [expr]
    refine covered_exprOf (h _ List.mem_cons_self) (operands_declared values fun c hc => h c ?_)
    exact List.mem_cons_of_mem _ (List.mem_append_left _ hc)

theorem operands_declared {known : List String} {lost : Use → Prop} {ident : Block → String} :
    (values : List (String × Socket Block)) →
    (∀ c ∈ socketsActive values, c.kind = "variables_get" → ident c ∈ known) →
    Operands.Declared known lost (operands ident values)
  | [], _ => by
    rw [operands]
    exact fun _ h => absurd h List.not_mem_nil
  | (name, ⟨some b, _⟩) :: rest, h | (name, ⟨none, some b⟩) :: rest, h => by
    simp only [socketsActive, List.mem_append] at h
    have hb : Covered known lost (b.expr ident).uses := covered_expr b fun c hc => h c (.inl hc)
    have hrest : Operands.Declared known lost (operands ident rest) :=
      operands_declared rest fun c hc => h c (.inr hc)
    rw [operands]
    exact List.forall_mem_cons.2 ⟨hb, hrest⟩
  | (_, ⟨none, none⟩) :: rest, h => by
    rw [socketsActive] at h
    rw [operands]
    exact operands_declared rest h

end

/-- The numbers that a counting loop writes down as its bounds and its step. -/
def Splices (b : Block) (x : Number) : Prop :=
  b.kind = "controls_for" ∧ ∃ start stop step, b.knownBound? "FROM" 0 = some start ∧
    b.knownBound? "TO" 0 = some stop ∧ b.knownBound? "BY" 1 = some step ∧ x ∈ [start, stop, step]

/-- What is not finite among them may be missed. -/
def LosesBounds (lost : Use → Prop) (b : Block) : Prop :=
  ∀ x, b.Splices x → x.isFinite = false → lost (.read x.abs.text)

def Requests (variableOf : Block → String) (assigned : List (String × String)) (bs : List Block) : Prop :=
  ∀ b ∈ bs, Workspace.namesVariable b = true → variableOf b ∈ assigned.map Prod.fst

section

variable {assigned : List (String × String)} {lost : Use → Prop} {variableOf : Block → String}
  {b : Block} {ops : Names → Operands} {inn : Inner}

theorem identOf_known {names : Names} (hn : names.assigned = assigned) {name : String}
    (h : name ∈ assigned.map Prod.fst) : names.identOf name ∈ assigned.map Prod.snd := by
  subst hn
  exact Names.identOf_mem_declared h

theorem repeatTree_declared
    (hops : ∀ names : Names, names.assigned = assigned →
      Operands.Declared (assigned.map Prod.snd) lost (ops names)) :
    Keeping assigned (DeclaredLoop (assigned.map Prod.snd) lost) (b.repeatTree ops) := by
  unfold repeatTree
  split
  next =>
    refine .bind (.helper _) fun counter _ => .pure (declaredLoop_counted ?_)
    rw [uses_zeroTree]
    exact .nil
  next times _ =>
    split
    next =>
      refine .bind (.helper _) fun counter _ => .pure (declaredLoop_counted ?_)
      exact covered_numberField times "NUM"
    next =>
      refine .bind (.helper _) fun stop _ => .bind (.helper _) fun counter _ => ?_
      refine .bind .get fun names hn => .pure fun ss hs => ?_
      refine .cons ((hops names hn).get "TIMES" uses_zeroTree) ?_
      have hstop : Covered (counter :: stop :: assigned.map Prod.snd) lost
          (Script.Expr.var stop).uses := Covered.cons_iff.2 ⟨.inl (by simp [Use.name]), .nil⟩
      exact declaredLoop_counted hstop ss (hs.mono (List.subset_cons_self stop _))

theorem forTree_declared {ident : String} (hi : ident ∈ assigned.map Prod.snd)
    (hkind : b.kind = "controls_for") (hbounds : b.LosesBounds lost)
    (hops : ∀ names : Names, names.assigned = assigned →
      Operands.Declared (assigned.map Prod.snd) lost (ops names)) :
    Keeping assigned (DeclaredLoop (assigned.map Prod.snd) lost) (b.forTree ident ops) := by
  unfold forTree
  split
  next start stop step hstart hstop hstep =>
    refine .pure (declaredLoop_range hi fun x hx => Number.covered_tree fun hf => ?_)
    exact hbounds x ⟨hkind, start, stop, step, hstart, hstop, hstep, hx⟩ hf
  next =>
    refine .bind .get fun names hn => .bind (.helper _) fun s _ => .bind (.helper _) fun e _ => ?_
    refine .bind (.helper _) fun i _ => .pure ?_
    have ho := hops names hn
    exact declaredLoop_computedRange hi (ho.get "FROM" uses_zeroTree) (ho.get "TO" uses_zeroTree)
      (ho.get "BY" Number.uses_one)

theorem chooseTree_declared
    (hops : ∀ names : Names, names.assigned = assigned →
      Operands.Declared (assigned.map Prod.snd) lost (ops names))
    (helse : b.hasElse = true →
      Keeping assigned (Declared (assigned.map Prod.snd) lost) (inn.get "ELSE"))
    (hdo : ∀ i < b.branchCount,
      Keeping assigned (Declared (assigned.map Prod.snd) lost) (inn.get s!"DO{i}")) :
    Keeping assigned (Declared (assigned.map Prod.snd) lost) (b.chooseTree ops inn) := by
  have hall : Keeping assigned (fun bs => ∀ p ∈ bs, Covered (assigned.map Prod.snd) lost p.1.uses ∧
      Declared (assigned.map Prod.snd) lost p.2) (branchesTree ops inn (List.range b.branchCount)) := by
    refine .mapM fun i hi => .bind .get fun names hn => ?_
    refine .bind (hdo i (List.mem_range.1 hi)) fun body hbody => .pure ?_
    exact ⟨(hops names hn).get _ rfl, hbody⟩
  unfold chooseTree
  refine .bind hall fun branches hb => ?_
  split
  next h =>
    refine .bind (helse h) fun body hbody => .pure (.single ?_)
    exact Covered.append_iff.2 ⟨covered_branches hb, hbody⟩
  next => exact .pure (.single (Covered.append_iff.2 ⟨covered_branches hb, .nil⟩))

theorem declared_call {known : List String} {p : Script.Primitive} {args : List Script.Expr}
    (h : ∀ e ∈ args, Covered known lost e.uses) : Declared known lost [callTree p args] := by
  refine .single ?_
  change Covered known lost (Script.argUses args)
  induction args with
  | nil => exact .nil
  | cons e args ih =>
    exact Covered.append_iff.2 ⟨h e List.mem_cons_self, ih fun d hd => h d (List.mem_cons_of_mem _ hd)⟩

theorem declared_mark {known : List String} (id : String) : Declared known lost [markTree id] :=
  declared_call (by simp [textTree, Script.Expr.uses, Covered.nil])

theorem ownOf_declared
    (hname : Workspace.namesVariable b = true → variableOf b ∈ assigned.map Prod.fst)
    (hbounds : b.LosesBounds lost)
    (hops : ∀ names : Names, names.assigned = assigned →
      Operands.Declared (assigned.map Prod.snd) lost (ops names))
    (hinner : ∀ name ∈ b.chainNames,
      Keeping assigned (Declared (assigned.map Prod.snd) lost) (inn.get name)) :
    Keeping assigned (Declared (assigned.map Prod.snd) lost) (ownOf variableOf b ops inn) := by
  have hbody : b.isLoop = true →
      Keeping assigned (Declared (assigned.map Prod.snd) lost) (inn.get "DO") :=
    fun hloop => hinner "DO" (by simp [chainNames_loop hloop])
  unfold ownOf
  split <;> rename_i hkind
  case h_1 => exact .pure (declared_call (by simp))
  case h_2 => exact .pure (declared_call (by simp [textTree, Script.Expr.uses, Covered.nil]))
  case h_3 => exact .pure (declared_call (by simp [covered_numberField]))
  case h_4 =>
    refine .bind .get fun names hn => .pure (declared_call ?_)
    have hsteps := (hops names hn).get "steps" uses_zeroTree
    simp [textTree, Script.Expr.uses, Covered.nil, hsteps]
  case h_5 =>
    refine .bind .get fun names hn => .pure (declared_call ?_)
    have hx := (hops names hn).get "x_steps" uses_zeroTree
    have hy := (hops names hn).get "y_steps" uses_zeroTree
    have hz := (hops names hn).get "z_steps" uses_zeroTree
    simp [textTree, Script.Expr.uses, Covered.nil, hx, hy, hz]
  case h_6 =>
    refine .bind .get fun names hn => .pure (declared_call ?_)
    have htext : Covered (assigned.map Prod.snd) lost
        ((ops names).get "TEXT" (textTree "")).uses := (hops names hn).get "TEXT" rfl
    simpa using htext
  case h_7 =>
    have hi := hname (by simp [Workspace.namesVariable, hkind])
    refine .bind .get fun names hn => .pure (.single ?_)
    exact Covered.cons_iff.2 ⟨.inl (identOf_known hn hi), (hops names hn).get "VALUE" uses_zeroTree⟩
  case h_8 =>
    have hi := hname (by simp [Workspace.namesVariable, hkind])
    refine .bind .get fun names hn => .pure (.single ?_)
    exact Covered.cons_iff.2 ⟨.inl (identOf_known hn hi), (hops names hn).get "DELTA" uses_zeroTree⟩
  case h_9 =>
    exact chooseTree_declared hops (fun h => hinner _ (else_mem_chainNames hkind h)) fun i hi =>
      hinner _ (branch_mem_chainNames hkind hi)
  case h_10 =>
    refine .bind (.helper _) fun counter _ => ?_
    refine .bind (hbody (by simp [isLoop, hkind])) fun body hs => .pure ?_
    exact declaredLoop_counted (covered_numberField b "TIMES") body hs
  case h_11 =>
    refine .bind (repeatTree_declared hops) fun loop hl => ?_
    exact .bind (hbody (by simp [isLoop, hkind])) fun body hs => .pure (hl body hs)
  case h_12 =>
    refine .bind .get fun names hn => ?_
    refine .bind (hbody (by simp [isLoop, hkind])) fun body hs => .pure (.single ?_)
    have hcond : Covered (assigned.map Prod.snd) lost
        ((ops names).get "BOOL" (truthTree false)).uses := (hops names hn).get "BOOL" rfl
    refine Covered.append_iff.2 ⟨?_, hs⟩
    split <;> exact hcond
  case h_13 =>
    have hi := hname (by simp [Workspace.namesVariable, hkind])
    refine .bind .get fun names hn => ?_
    refine .bind (forTree_declared (identOf_known hn hi) hkind hbounds hops) fun loop hl => ?_
    exact .bind (hbody (by simp [isLoop, hkind])) fun body hs => .pure (hl body hs)
  case h_14 =>
    refine .pure (.single ?_)
    split <;> exact .nil
  case h_15 => exact .pure .nil

end

section

variable {assigned : List (String × String)} {lost : Use → Prop} {variableOf : Block → String}

mutual

/-- A block uses variables that the blocks in it name, and helpers that it declares. -/
theorem own_declared : (b : Block) → Requests variableOf assigned b.active →
    (∀ l d, Inside l b d → d.LosesBounds lost) →
    Keeping assigned (Declared (assigned.map Prod.snd) lost) (b.own variableOf)
  | ⟨id, kind, position, disabled, fields, ⟨values⟩, ⟨statements⟩, mutation⟩, hnames, hbounds => by
    simp only [Requests, active, List.mem_cons, List.mem_append] at hnames
    rw [own]
    refine ownOf_declared (hnames _ (.inl rfl)) (hbounds _ _ .here) (fun names hn => ?_)
      fun name hname => ?_
    · refine operands_declared values fun c hc hkind => identOf_known hn ?_
      exact hnames c (.inr (.inl hc)) (by simp [Workspace.namesVariable, hkind])
    · refine inner_declared statements name (fun c hc => hnames c (.inr (.inr hc))) ?_
      intro chain hchain c hc hon l d hd
      exact hbounds _ d (.inChain hname hchain hc hon hd)

theorem statementsOf_declared : (chain : List Block) →
    Requests variableOf assigned (chainActive chain) →
    (∀ b ∈ chain, b.disabled = false → ∀ l d, Inside l b d → d.LosesBounds lost) →
    Keeping assigned (Declared (assigned.map Prod.snd) lost) (statementsOf variableOf chain)
  | [], _, _ => by
    rw [statementsOf]
    exact .pure .nil
  | b :: rest, hnames, hbounds => by
    simp only [Requests, chainActive, List.mem_append] at hnames
    have hrest := statementsOf_declared rest (fun c hc => hnames c (.inr hc))
      fun c hc => hbounds c (List.mem_cons_of_mem _ hc)
    rw [statementsOf]
    split
    next => exact hrest
    next hon =>
      have hb := own_declared b (fun c hc => hnames c (.inl hc))
        (hbounds b List.mem_cons_self (by simpa using hon))
      refine .bind hb fun ss hs => .bind hrest fun ts ht => .pure ?_
      exact .append (.append (declared_mark b.id) hs) ht

theorem inner_declared : (statements : List (String × List Block)) → (name : String) →
    Requests variableOf assigned (chainsActive statements) →
    (∀ chain, statements.lookup name = some chain →
      ∀ b ∈ chain, b.disabled = false → ∀ l d, Inside l b d → d.LosesBounds lost) →
    Keeping assigned (Declared (assigned.map Prod.snd) lost) ((inner variableOf statements).get name)
  | [], _, _, _ => by
    rw [inner]
    exact .pure .nil
  | (key, chain) :: rest, name, hnames, hbounds => by
    simp only [Requests, chainsActive, List.mem_append] at hnames
    rw [inner, Inner.get]
    rw [List.lookup_cons] at hbounds ⊢
    cases hkey : name == key with
    | true =>
      simp only [hkey] at hbounds
      exact statementsOf_declared chain (fun c hc => hnames c (.inl hc)) (hbounds chain rfl)
    | false =>
      simp only [hkey] at hbounds
      exact inner_declared rest name (fun c hc => hnames c (.inr hc)) hbounds

end

theorem itemTree_declared {b : Block} (hnames : Requests variableOf assigned b.active)
    (hbounds : ∀ l d, Inside l b d → d.LosesBounds lost) :
    Keeping assigned (Declared (assigned.map Prod.snd) lost) (b.itemTree variableOf) := by
  unfold itemTree
  split
  next =>
    refine .bind .get fun names hn => .pure (.single ?_)
    refine covered_expr b fun c hc hkind => identOf_known hn ?_
    exact hnames c hc (by simp [Workspace.namesVariable, hkind])
  next =>
    exact .bind (own_declared b hnames hbounds) fun ss hs => .pure (.append (declared_mark b.id) hs)

end

theorem mem_chainActive {b c : Block} {chain : List Block} (hb : b ∈ chain) (hc : c ∈ b.active) :
    c ∈ chainActive chain := by
  induction chain with
  | nil => cases hb
  | cons d chain ih =>
    rw [chainActive]
    rcases List.mem_cons.1 hb with rfl | hb
    · exact List.mem_append_left _ hc
    · exact List.mem_append_right _ (ih hb)

end Block

namespace Workspace

/-- The blocks whose code a script contains: those in the stacks, and in their chains, that are enabled. -/
def Generates (w : Workspace) (d : Block) : Prop :=
  ∃ stack ∈ w.stackList, ∃ b ∈ stack, b.disabled = false ∧ ∃ l, b.Inside l d

variable {w : Workspace}

theorem requests_active {stack : List Block} (hs : stack ∈ w.orderedStacks) {b : Block}
    (hb : b ∈ stack) : Block.Requests w.variableOf w.names.assigned b.active := by
  intro c hc hn
  refine Names.mem_assigned_ofVariables (List.mem_append_left _ (List.mem_map.2 ⟨c, ?_, rfl⟩))
  exact List.mem_filter.2 ⟨List.mem_flatMap.2 ⟨stack, hs, Block.mem_chainActive hb hc⟩, hn⟩

theorem free_header {names : Names} {ss : List Script.Statement} {u : Use}
    (h : u ∈ freeAll (headerTree names ++ ss)) : u ∈ freeAll ss ∧ u.name ∉ names.declared := by
  have hheader : ∀ idents : List String, u ∉ freeAll
      (idents.map fun ident => .bind (declaration ident (.literal .null))) := by
    intro idents
    induction idents with
    | nil => exact List.not_mem_nil
    | cons ident idents ih => exact fun hu => ih (Use.mem_outside.1 hu).1
  rcases Script.mem_freeAll_append.1 h with hu | ⟨hu, hdeclared⟩
  · exact absurd hu (hheader names.declared)
  · refine ⟨hu, fun hin => ?_⟩
    exact hdeclared _ (List.mem_map.2 ⟨u.name, hin, rfl⟩) (List.mem_singleton.2 rfl)

/-- What a script uses without having declared it: bounds that are written down and not finite. -/
theorem free_script {u : Use} (h : u ∈ freeAll w.script) : u.name ∉ w.names.declared ∧
    ∃ b, w.Generates b ∧ ∃ x, b.Splices x ∧ x.isFinite = false ∧ u = .read x.abs.text := by
  obtain ⟨hfree, hu⟩ := free_header h
  refine ⟨hu, ?_⟩
  let lost (v : Use) : Prop :=
    ∃ b, w.Generates b ∧ ∃ x, b.Splices x ∧ x.isFinite = false ∧ v = .read x.abs.text
  have hstack : ∀ stack ∈ w.orderedStacks, Keeping w.names.assigned
      (Declared (w.names.assigned.map Prod.snd) lost) (w.stackScript stack) := by
    intro stack hs
    refine .bind (.mapM fun b hb => ?_) fun parts hparts => .pure (.flatten hparts)
    obtain ⟨hb, hon⟩ := List.mem_filter.1 hb
    refine Block.itemTree_declared (requests_active hs hb) fun l d hd x hx hf => ?_
    exact ⟨d, ⟨stack, mem_stackList hs, b, hb, by simpa using hon, l, hd⟩, x, hx, hf, rfl⟩
  have hall := Declared.flatten (Keeping.mapM hstack w.names rfl).1
  exact (hall u hfree).resolve_left hu

end Workspace

end ScopeBlocks
