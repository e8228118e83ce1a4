import ScopeBlocks.Proofs.Dict
import ScopeBlocks.Proofs.Script.Followed

/-! The free uses of a script: the variables that it reads or changes where no declaration before them, in the
same statements, has made them. A run misses a variable by a free use only, whatever its host and its driver:
each thing that a machine has still to run uses what its store has, or what is free in the whole script. -/
namespace ScopeBlocks.Script

/-- A use of a variable that is to be there already. -/
inductive Use where
  | read (name : String)
  | change (name : String)
  deriving DecidableEq, Repr

namespace Use

def name : Use → String
  | read name => name
  | change name => name

def fault : Use → Fault
  | read name => .unbound name
  | change name => .undeclared name

theorem fault_injective {u v : Use} (h : u.fault = v.fault) : u = v := by
  cases u <;> cases v <;> cases h <;> rfl

/-- The uses that are left of some where variables have been declared. -/
def outside (declared : List String) (uses : List Use) : List Use :=
  uses.filter fun u => !declared.contains u.name

theorem mem_outside {declared : List String} {uses : List Use} {u : Use} :
    u ∈ outside declared uses ↔ u ∈ uses ∧ u.name ∉ declared := by
  simp [outside]

end Use

open Use (outside)

mutual

def Expr.uses : Expr → List Use
  | .literal _ => []
  | .var name => [.read name]
  | .call _ args => argUses args
  | .member object _ => object.uses
  | .unary _ operand => operand.uses
  | .binary _ left right => left.uses ++ right.uses

def argUses : List Expr → List Use
  | [] => []
  | e :: rest => e.uses ++ argUses rest

end

def Assignment.uses (a : Assignment) : List Use := .change a.name :: a.value.uses

def Binding.uses : Binding → List Use
  | .declare _ init => init.elim [] Expr.uses
  | .assign a => a.uses

def Binding.declares : Binding → List String
  | .declare name _ => [name]
  | .assign _ => []

/-- What a statement declares for those after it. -/
def Statement.declares : Statement → List String
  | .bind b => b.declares
  | _ => []

mutual

def Statement.free : Statement → List Use
  | .bind b => b.uses
  | .eval e => e.uses
  | .branch branches otherwise => freeBranches branches ++ freeOtherwise otherwise
  | .whileLoop cond body => cond.uses ++ freeAll body
  | .forLoop init cond update body => init.elim [] Binding.uses ++
    outside (init.elim [] Binding.declares)
      (cond.elim [] Expr.uses ++ update.elim [] Assignment.uses ++ freeAll body)
  | .exitLoop | .nextRound => []

/-- The free uses of statements: each one declares for those after it. -/
def freeAll : List Statement → List Use
  | [] => []
  | s :: rest => s.free ++ outside s.declares (freeAll rest)

def freeBranches : List (Expr × List Statement) → List Use
  | [] => []
  | (cond, body) :: rest => cond.uses ++ freeAll body ++ freeBranches rest

def freeOtherwise : Option (List Statement) → List Use
  | none => []
  | some body => freeAll body

end

/-- The free uses of a round of a loop: of its test, its update and its body. -/
def Loop.roundUses (l : Loop) : List Use :=
  l.cond.elim [] Expr.uses ++ l.update.elim [] Assignment.uses ++ freeAll l.body

/-- A loop that has begun has declared what its first clause declares. -/
def Loop.free (l : Loop) : LoopPhase → List Use
  | .init => l.init.elim [] Binding.uses ++ outside (l.init.elim [] Binding.declares) l.roundUses
  | .test | .update => l.roundUses

def Frame.free : Frame → List Use
  | .block rest => freeAll rest
  | .loop l phase => l.free phase

theorem mem_freeAll_append {ss ts : List Statement} {u : Use} : u ∈ freeAll (ss ++ ts) ↔
    u ∈ freeAll ss ∨ u ∈ freeAll ts ∧ ∀ s ∈ ss, u.name ∉ s.declares := by
  induction ss with
  | nil => simp [freeAll]
  | cons s ss ih =>
    simp only [List.cons_append, freeAll, List.mem_append, Use.mem_outside, ih, List.forall_mem_cons]
    grind

/-- The variables of some uses are known, or else the uses may be missed. -/
def Covered (known : List String) (lost : Use → Prop) (uses : List Use) : Prop :=
  ∀ u ∈ uses, u.name ∈ known ∨ lost u

namespace Covered

variable {known : List String} {lost : Use → Prop} {us vs : List Use}

theorem nil : Covered known lost [] := fun _ h => absurd h List.not_mem_nil

theorem append_iff : Covered known lost (us ++ vs) ↔ Covered known lost us ∧ Covered known lost vs :=
  List.forall_mem_append

theorem cons_iff {u : Use} : Covered known lost (u :: us) ↔
    (u.name ∈ known ∨ lost u) ∧ Covered known lost us := List.forall_mem_cons

theorem outside_iff {declared : List String} : Covered known lost (outside declared us) ↔
    Covered (declared ++ known) lost us := by
  simp only [Covered, Use.mem_outside, List.mem_append, and_imp]
  grind

theorem mono {known' : List String} (h : Covered known lost us) (hk : known ⊆ known') :
    Covered known' lost us := fun u hu => (h u hu).imp_left (hk ·)

end Covered

/-- An error is the want of a variable only for uses that may be missed. -/
def MissesOnly (lost : Use → Prop) (e : Error) : Prop := ∀ u : Use, e = .fault u.fault → lost u

/-! Stores lose no variables. -/

theorem Store.keys_define (store : Store) (name : String) (v : Value) :
    store.keys ⊆ (store.define name v).keys := by
  intro x hx
  exact Dict.mem_keys_insert.2 (.inr hx)

theorem Store.mem_keys_define (store : Store) (name : String) (v : Value) :
    name ∈ (store.define name v).keys := Dict.mem_keys_insert.2 (.inl rfl)

theorem Store.keys_assign {store after : Store} {name : String} {v : Value}
    (h : store.assign name v = .ok after) : store.keys ⊆ after.keys := by
  unfold assign at h
  split at h
  next =>
    cases h
    exact store.keys_define name v
  next => cases h

/-! Units. -/

section

variable {lost : Use → Prop} {store : Store} {frames : List Frame}

theorem missesOnly_of_ne {cause : Fault} (h : ∀ u : Use, cause ≠ u.fault) :
    MissesOnly lost (.fault cause) := by
  rintro u ⟨⟩
  exact absurd rfl (h u)

theorem Value.member_ne {field : String} {v : Value} {cause : Fault}
    (h : v.member field = .error cause) (u : Use) : cause ≠ u.fault := by
  cases v <;> cases h <;> cases u <;> nofun

theorem UnaryOp.apply_ne {op : UnaryOp} {v : Value} {cause : Fault} (h : op.apply v = .error cause)
    (u : Use) : cause ≠ u.fault := by
  cases op <;> cases v <;> cases h <;> cases u <;> nofun

theorem BinaryOp.apply_ne {op : BinaryOp} {v w : Value} {cause : Fault}
    (h : op.apply v w = .error cause) (u : Use) : cause ≠ u.fault := by
  have harith : ∀ f, v.arithmetic f w = .error cause → cause ≠ u.fault := by
    intro f hf
    cases v <;> cases w <;> cases hf <;> cases u <;> nofun
  have hcompare : ∀ f, v.compareBy f w = .error cause → cause ≠ u.fault := by
    intro f hf
    cases v <;> cases w <;> cases hf <;> cases u <;> nofun
  cases op with
  | add => cases v <;> cases w <;> cases h <;> cases u <;> nofun
  | sub | mul | div | rem => exact harith _ h
  | lt | le | gt | ge => exact hcompare _ h
  | eq | ne | and | or => cases h

theorem missesOnly_of_absent {u : Use} (hu : u.name ∈ store.keys ∨ lost u)
    (habsent : store.get? u.name = none) : MissesOnly lost (.fault u.fault) := by
  intro v hv
  obtain rfl := Use.fault_injective (Error.fault.inj hv)
  refine hu.resolve_left fun hin => ?_
  have hfound := Dict.contains_iff.2 hin
  simp [Dict.contains, habsent] at hfound

theorem read_yields {name : String} (h : Covered store.keys lost [.read name]) :
    (Dialogue.ofFault (store.read name)).Yields (fun _ => True) (MissesOnly lost) := by
  refine .ofFault (fun _ _ => trivial) fun cause hcause => ?_
  unfold Store.read at hcause
  split at hcause
  next => cases hcause
  next habsent =>
    cases hcause
    exact missesOnly_of_absent (u := .read name) (h _ (List.mem_singleton.2 rfl)) habsent

theorem apply_yields (op : BinaryOp) (v w : Value) :
    (Dialogue.ofFault (op.apply v w)).Yields (fun _ => True) (MissesOnly lost) :=
  .ofFault (fun _ _ => trivial) fun _ hc => missesOnly_of_ne (BinaryOp.apply_ne hc)

mutual

theorem Expr.covered_yields : (e : Expr) → Covered store.keys lost e.uses →
    (e.dialogue store).Yields (fun _ => True) (MissesOnly lost)
  | .literal _, _ => trivial
  | .var name, h => by
    unfold Expr.uses at h
    unfold Expr.dialogue
    exact read_yields h
  | .member object field, h => by
    unfold Expr.uses at h
    unfold Expr.dialogue
    refine .bind (object.covered_yields h) fun v _ => ?_
    exact .ofFault (fun _ _ => trivial) fun cause hc => missesOnly_of_ne (Value.member_ne hc)
  | .unary op operand, h => by
    unfold Expr.uses at h
    unfold Expr.dialogue
    refine .bind (operand.covered_yields h) fun v _ => ?_
    exact .ofFault (fun _ _ => trivial) fun cause hc => missesOnly_of_ne (UnaryOp.apply_ne hc)
  | .binary op left right, h => by
    unfold Expr.uses at h
    obtain ⟨hleft, hright⟩ := Covered.append_iff.1 h
    have hl := left.covered_yields hleft
    have hr := right.covered_yields hright
    cases op with
    | and | or =>
      refine .bind hl fun v _ => ?_
      split
      · first | exact .bind hr fun _ _ => trivial | exact trivial
      · first | exact trivial | exact .bind hr fun _ _ => trivial
    | add | sub | mul | div | rem | eq | ne | lt | le | gt | ge =>
      exact .bind hl fun v _ => .bind hr fun w _ => apply_yields _ v w
  | .call p args, h => by
    unfold Expr.uses at h
    unfold Expr.dialogue
    exact .bind (Expr.covered_yields_args args h) fun _ _ => .call

theorem Expr.covered_yields_args : (es : List Expr) → Covered store.keys lost (argUses es) →
    (Expr.dialogueArgs store es).Yields (fun _ => True) (MissesOnly lost)
  | [], _ => trivial
  | e :: rest, h => by
    unfold argUses at h
    obtain ⟨he, hrest⟩ := Covered.append_iff.1 h
    exact .bind (e.covered_yields he) fun _ _ =>
      .bind (Expr.covered_yields_args rest hrest) fun _ _ => trivial

end

/-- An assignment needs its variable twice at most, and fails both times in the same way without it. -/
theorem Assignment.covered_yields {a : Assignment} (h : Covered store.keys lost a.uses) :
    (a.dialogue store).Yields (fun after => store.keys ⊆ after.keys) (MissesOnly lost) := by
  unfold uses at h
  obtain ⟨htarget, hvalue⟩ := Covered.cons_iff.1 h
  have hwrite (v : Value) : (Dialogue.ofFault (store.assign a.name v)).Yields
      (fun after => store.keys ⊆ after.keys) (MissesOnly lost) := by
    refine .ofFault (fun after hafter => Store.keys_assign hafter) fun cause hcause => ?_
    unfold Store.assign at hcause
    split at hcause
    next => cases hcause
    next habsent =>
      cases hcause
      exact missesOnly_of_absent (u := .change a.name) htarget habsent
  have hcurrent : (Dialogue.ofFault (store.current a.name)).Yields (fun _ => True) (MissesOnly lost) := by
    refine .ofFault (fun _ _ => trivial) fun cause hcause => ?_
    unfold Store.current at hcause
    split at hcause
    next => cases hcause
    next habsent =>
      cases hcause
      exact missesOnly_of_absent (u := .change a.name) htarget habsent
  have hpure (v : Value) : (Pure.pure v : Dialogue Value).Yields (fun _ => True) (MissesOnly lost) :=
    trivial
  have hoperand := a.value.covered_yields hvalue
  unfold dialogue
  cases a.op with
  | set => exact .bind (hpure .null) fun _ _ => .bind hoperand fun w _ =>
      .bind (hpure w) fun v _ => hwrite v
  | add => exact .bind hcurrent fun v _ => .bind hoperand fun w _ =>
      .bind (apply_yields .add v w) fun v _ => hwrite v
  | sub => exact .bind hcurrent fun v _ => .bind hoperand fun w _ =>
      .bind (apply_yields .sub v w) fun v _ => hwrite v

theorem Binding.covered_yields {b : Binding} (h : Covered store.keys lost b.uses) :
    (b.dialogue store).Yields (fun after => b.declares ++ store.keys ⊆ after.keys)
      (MissesOnly lost) := by
  have hdeclared (name : String) (v : Value) :
      [name] ++ store.keys ⊆ (store.define name v).keys :=
    List.append_subset.2 ⟨by simpa using store.mem_keys_define name v, store.keys_define name v⟩
  cases b with
  | declare name init =>
    cases init with
    | none => exact hdeclared name .null
    | some e => exact .bind (e.covered_yields h) fun v _ => hdeclared name v
  | assign a => exact (Assignment.covered_yields h).mono fun _ hkeys => by simpa [declares] using hkeys

theorem choice_covered {otherwise : Option (List Statement)}
    (ho : Covered store.keys lost (freeOtherwise otherwise)) (branches : List (Expr × List Statement))
    (h : Covered store.keys lost (freeBranches branches)) :
    (choiceDialogue store otherwise branches).Yields
      (fun chosen => Covered store.keys lost (freeOtherwise chosen)) (MissesOnly lost) := by
  induction branches with
  | nil => exact ho
  | cons branch rest ih =>
    obtain ⟨cond, body⟩ := branch
    unfold freeBranches at h
    simp only [Covered.append_iff] at h
    obtain ⟨⟨hcond, hbody⟩, hrest⟩ := h
    unfold choiceDialogue
    refine .bind (cond.covered_yields hcond) fun v _ => ?_
    split
    · exact hbody
    · exact ih hrest

/-- What a machine has still to run uses only what its store has, or what may be missed. -/
def Position.Covered (lost : Use → Prop) (p : Position) : Prop :=
  ∀ f ∈ p.1, Script.Covered p.2.keys lost f.free

namespace Position.Covered

theorem suffix {rest : List Frame} (h : Position.Covered lost (frames, store)) (hr : rest <:+ frames) :
    Position.Covered lost (rest, store) := fun f hf => h f (hr.subset hf)

theorem cons {f : Frame} (hf : Script.Covered store.keys lost f.free)
    (h : Position.Covered lost (frames, store)) : Position.Covered lost (f :: frames, store) :=
  List.forall_mem_cons.2 ⟨hf, h⟩

theorem grow {after : Store} (h : Position.Covered lost (frames, store))
    (hk : store.keys ⊆ after.keys) : Position.Covered lost (frames, after) :=
  fun f hf => (h f hf).mono hk

end Position.Covered

theorem Loop.round_covered {l : Loop} (hl : Covered store.keys lost l.roundUses)
    (h : Position.Covered lost (frames, store)) :
    Dialogue.Yields (Position.Covered lost) (MissesOnly lost) (do
      if ← l.testDialogue store then return (.block l.body :: .loop l .update :: frames, store)
      else return (frames, store)) := by
  have hparts := hl
  unfold roundUses at hparts
  simp only [Covered.append_iff] at hparts
  obtain ⟨⟨hcond, -⟩, hbody⟩ := hparts
  have htest : (l.testDialogue store).Yields (fun _ => True) (MissesOnly lost) := by
    unfold testDialogue
    split
    next => exact trivial
    next e he =>
      rw [he] at hcond
      exact .bind (e.covered_yields hcond) fun _ _ => trivial
  refine .bind htest fun go _ => ?_
  split
  · exact .pure (.cons hbody (.cons (f := .loop l .update) hl h))
  · exact .pure h

theorem Loop.covered_yields {l : Loop} (phase : LoopPhase)
    (hl : Covered store.keys lost (l.free phase)) (h : Position.Covered lost (frames, store)) :
    (l.dialogue store phase frames).Yields (Position.Covered lost) (MissesOnly lost) := by
  unfold dialogue
  cases phase with
  | init =>
    unfold free at hl
    obtain ⟨hinit, hround⟩ := Covered.append_iff.1 hl
    rw [Covered.outside_iff] at hround
    cases hb : l.init with
    | none =>
      rw [hb] at hround
      exact round_covered hround h
    | some b =>
      rw [hb] at hinit hround
      refine .bind (b.covered_yields hinit) fun after hafter => .pure ?_
      exact .cons (f := .loop l .test) (hround.mono hafter)
        (h.grow fun _ hx => hafter (List.mem_append_right _ hx))
  | test => exact round_covered hl h
  | update =>
    cases ha : l.update with
    | none => exact round_covered hl h
    | some a =>
      have hround : Covered store.keys lost l.roundUses := hl
      have hparts := hround
      unfold roundUses at hparts
      rw [ha, Covered.append_iff, Covered.append_iff] at hparts
      refine .bind (Assignment.covered_yields hparts.1.2) fun after hafter => .pure ?_
      exact .cons (f := .loop l .test) (hround.mono hafter) (h.grow hafter)

theorem Statement.covered_yields {s : Statement} (hs : Covered store.keys lost s.free)
    {rest : List Statement} (hrest : Covered (s.declares ++ store.keys) lost (freeAll rest))
    (h : Position.Covered lost (frames, store)) :
    (s.dialogue store (.block rest :: frames)).Yields (Position.Covered lost) (MissesOnly lost) := by
  -- only a declaration declares anything for the statements after it
  have hstay (hd : s.declares = []) : Position.Covered lost (.block rest :: frames, store) := by
    rw [hd] at hrest
    exact .cons (f := .block rest) hrest h
  cases s with
  | bind b =>
    unfold free at hs
    refine .bind (b.covered_yields hs) fun after hafter => .pure ?_
    exact .cons (f := .block rest) (hrest.mono hafter)
      (h.grow fun _ hx => hafter (List.mem_append_right _ hx))
  | eval e =>
    unfold free at hs
    exact .bind (e.covered_yields hs) fun _ _ => .pure (hstay rfl)
  | branch branches otherwise =>
    unfold free at hs
    obtain ⟨hb, ho⟩ := Covered.append_iff.1 hs
    refine .bind (choice_covered ho branches hb) fun chosen hchosen => ?_
    cases chosen with
    | none => exact .pure (hstay rfl)
    | some body => exact .pure (.cons (f := .block body) hchosen (hstay rfl))
  | whileLoop cond body =>
    unfold free at hs
    exact Loop.covered_yields (l := ⟨none, some cond, none, body⟩) .test
      (by simpa [Loop.free, Loop.roundUses] using hs) (hstay rfl)
  | forLoop init cond update body =>
    unfold free at hs
    exact Loop.covered_yields (l := ⟨init, cond, update, body⟩) .init hs (hstay rfl)
  | exitLoop =>
    unfold dialogue
    dsimp only
    split
    next hr => exact .pure ((hstay rfl).suffix (afterLoop?_suffix hr))
    next => exact missesOnly_of_ne fun u => by cases u <;> nofun
  | nextRound =>
    unfold dialogue
    dsimp only
    split
    next hr => exact .pure ((hstay rfl).suffix (fromLoop?_suffix hr))
    next => exact missesOnly_of_ne fun u => by cases u <;> nofun

theorem abides_covered (lost : Use → Prop) : Abides (Position.Covered lost) (MissesOnly lost) where
  settle h := h.suffix (settle_suffix _)
  halt _ := fun _ hf => absurd hf List.not_mem_nil
  unit := by
    intro frames store h
    unfold unitDialogue
    split
    next s rest below =>
      obtain ⟨hhead, htail⟩ := List.forall_mem_cons.1 h
      unfold Frame.free freeAll at hhead
      obtain ⟨hs, hrest⟩ := Covered.append_iff.1 hhead
      exact Statement.covered_yields hs (Covered.outside_iff.1 hrest) htail
    next l phase below =>
      obtain ⟨hhead, htail⟩ := List.forall_mem_cons.1 h
      exact Loop.covered_yields phase hhead htail
    next => exact .pure (h.suffix (settle_suffix _))
  misuse _ _ := fun u h => by cases h

end

/-- However a script is driven, it misses a variable only by one of its free uses. -/
theorem free_of_missed {σ : Type} {program : Program} {host : Host σ} {s : σ} {calls : List DriverCall}
    {d : Driver σ} (h : Driver.Driven host calls (.start program s) d) {u : Use}
    (hd : d.ended = some (.error (.fault u.fault))) : u ∈ freeAll program := by
  have hstart : Position.Covered (· ∈ freeAll program) ([.block program], .empty) := by
    rintro f hf u hu
    obtain rfl := List.mem_singleton.1 hf
    exact .inr hu
  exact ((abides_covered _).driven host hstart (by rintro _ ⟨⟩) h).2 _ hd u rfl

end ScopeBlocks.Script
