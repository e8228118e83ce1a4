import ScopeBlocks.Script.Builder

/-! The places of a script that may be refused: the variables that it declares, assigns and reads, the names
that it calls, and its jumps, in the order in which they stand. What is checked of a script is that each of
them is in order, one after another. -/
namespace ScopeBlocks.Script

namespace Rules

/-- A name or a jump where it stands, a jump with the number of loops around it. -/
inductive Use where
  | name (text : String) (place : List Char)
  | callee (text : String) (place : List Char)
  | jump (word : Keyword) (loops : Nat) (place : List Char)
  deriving DecidableEq, Repr

namespace Use

/-- A variable has the name of a primitive, a callee has not, or a jump stands outside of every loop. -/
def Faulty : Use → Prop
  | .name text _ => ∃ p : Primitive, p.name = text
  | .callee text _ => ∀ p : Primitive, p.name ≠ text
  | .jump _ loops _ => loops = 0

/-- What a script is refused with at a place. -/
def error (source : List Char) : Use → ParseError
  | .name text place => .reservedName text (.of source place)
  | .callee text place => .unknownFunction text (.of source place)
  | .jump word _ place => .outsideLoop word (.of source place)

def isFaulty : Use → Bool
  | .name text _ => (Primitive.ofName? text).isSome
  | .callee text _ => (Primitive.ofName? text).isNone
  | .jump _ loops _ => loops == 0

def fault? (source : List Char) (u : Use) : Option ParseError :=
  if u.isFaulty then some (u.error source) else none

end Use

def calleeUses : List Pair → List Use
  | [] => []
  | p :: _ => [.callee p.string p.place]

mutual

/-- The uses in a pair with so many loops around it. A name after a point is none, and the first name of a
call is its callee. -/
def Pair.uses (loops : Nat) : Pair → List Use
  | ⟨symbol, place, text, inner⟩ =>
    match symbol with
    | .ident => [.name (String.ofList text) place]
    | .call => calleeUses inner ++ argUses loops inner
    | .fields => headUses loops inner
    | .breakStmt => [.jump .breakWord loops place]
    | .continueStmt => [.jump .continueWord loops place]
    | .whileStmt | .forStmt => usesIn (loops + 1) inner
    | _ => usesIn loops inner

def usesIn (loops : Nat) : List Pair → List Use
  | [] => []
  | p :: rest => p.uses loops ++ usesIn loops rest

def headUses (loops : Nat) : List Pair → List Use
  | [] => []
  | p :: _ => p.uses loops

def argUses (loops : Nat) : List Pair → List Use
  | [] => []
  | _ :: args => usesIn loops args

end

end Rules

namespace Surface

mutual

def Expr.uses : Expr → List Rules.Use
  | .literal _ => []
  | .name x => [.name x.text x.place]
  | .call callee args => .callee callee.text callee.place :: usesAll args
  | .member object _ => object.uses
  | .unary _ operand => operand.uses
  | .binary _ left right => left.uses ++ right.uses

def Expr.usesAll : List Expr → List Rules.Use
  | [] => []
  | e :: rest => e.uses ++ usesAll rest

end

def usesOf {α : Type} (uses : α → List Rules.Use) (part : Option α) : List Rules.Use := (part.map uses).getD []

def Assignment.uses (a : Assignment) : List Rules.Use := .name a.target.text a.target.place :: a.value.uses

def Binding.uses : Binding → List Rules.Use
  | .declare target init => .name target.text target.place :: usesOf Expr.uses init
  | .assign a => a.uses

mutual

def Statement.uses (loops : Nat) : Statement → List Rules.Use
  | .bind b => b.uses
  | .eval e => e.uses
  | .branch branches otherwise => branchUses loops branches ++ otherwiseUses loops otherwise
  | .whileLoop cond body => cond.uses ++ usesAll (loops + 1) body
  | .forLoop init cond update body =>
    usesOf Binding.uses init ++ (usesOf Expr.uses cond ++
      (usesOf Assignment.uses update ++ usesAll (loops + 1) body))
  | .jump j place => [.jump j.word loops place]

def Statement.usesAll (loops : Nat) : List Statement → List Rules.Use
  | [] => []
  | s :: rest => s.uses loops ++ usesAll loops rest

def Statement.branchUses (loops : Nat) : List (Expr × List Statement) → List Rules.Use
  | [] => []
  | (cond, body) :: rest => cond.uses ++ (usesAll loops body ++ branchUses loops rest)

def Statement.otherwiseUses (loops : Nat) : Option (List Statement) → List Rules.Use
  | none => []
  | some body => usesAll loops body

end

end Surface

namespace Rules

variable {source : List Char}

theorem ofName?_isSome (name : String) :
    (Primitive.ofName? name).isSome = true ↔ ∃ p : Primitive, p.name = name := by
  constructor
  · intro h
    obtain ⟨p, hp⟩ := Option.isSome_iff_exists.1 h
    exact ⟨p, Primitive.name_of_ofName? hp⟩
  · rintro ⟨p, rfl⟩
    rw [Primitive.ofName?_name]
    rfl

theorem Use.isFaulty_iff (u : Use) : u.isFaulty = true ↔ u.Faulty := by
  cases u with
  | name text place => exact ofName?_isSome text
  | callee text place =>
    rw [Faulty, ← not_exists, ← ofName?_isSome, isFaulty, Option.isNone_iff_eq_none,
      Option.not_isSome_iff_eq_none]
  | jump word loops place => exact beq_iff_eq

/-- A use at fault is what a script is refused with. -/
theorem Use.fault?_eq_some (u : Use) (e : ParseError) :
    u.fault? source = some e ↔ u.Faulty ∧ e = u.error source := by
  rw [← isFaulty_iff, fault?]
  split
  next h => simp [h, eq_comm]
  next h => simp [h]

/-- What a check fails for. -/
def problem? {α : Type} : Except ParseError α → Option ParseError
  | .error e => some e
  | .ok _ => none

/-- Whether a check fails for the first fault among some uses, and for nothing else. -/
def Finds {α : Type} (source : List Char) (x : Except ParseError α) (uses : List Use) : Prop :=
  problem? x = uses.findSome? (Use.fault? source)

namespace Finds

variable {α β : Type} {x : Except ParseError α} {f : α → Except ParseError β} {us vs : List Use}

theorem ok (a : α) : Finds source (.ok a) [] := rfl

theorem bind (hx : Finds source x us) (hf : ∀ a, Finds source (f a) vs) :
    Finds source (x >>= f) (us ++ vs) := by
  unfold Finds at hx ⊢
  rw [List.findSome?_append, ← hx]
  cases x with
  | error e => rfl
  | ok a => exact hf a

theorem map (hx : Finds source x us) (g : α → β) : Finds source (x >>= fun a => pure (g a)) us := by
  have hgoesOn (a : α) : Finds source (.ok (g a)) [] := .ok (g a)
  have h := hx.bind hgoesOn
  rwa [List.append_nil] at h

end Finds

theorem variable_finds (x : Surface.Located) :
    Finds source (x.variable source) [.name x.text x.place] := by
  unfold Finds Surface.Located.variable
  cases h : Primitive.ofName? x.text <;> simp [Use.fault?, Use.isFaulty, h, problem?, Use.error]

theorem primitive_finds (x : Surface.Located) :
    Finds source (x.primitive source) [.callee x.text x.place] := by
  unfold Finds Surface.Located.primitive
  cases h : Primitive.ofName? x.text <;> simp [Use.fault?, Use.isFaulty, h, problem?, Use.error]

end Rules

namespace Surface

open Rules (Finds)

variable {source : List Char}

mutual

theorem Expr.check_finds : (e : Expr) → Finds source (e.check source) e.uses
  | .literal _ => .ok _
  | .name x => (Rules.variable_finds x).map _
  | .call callee args => (Rules.primitive_finds callee).bind fun _ => (checkArgs_finds args).map _
  | .member object _ => object.check_finds.map _
  | .unary _ operand => operand.check_finds.map _
  | .binary _ left right => left.check_finds.bind fun _ => right.check_finds.map _

theorem Expr.checkArgs_finds : (es : List Expr) →
    Finds source (checkArgs source es) (usesAll es)
  | [] => .ok _
  | e :: rest => e.check_finds.bind fun _ => (checkArgs_finds rest).map _

end

theorem Expr.check?_finds : (e : Option Expr) → Finds source (Expr.check? source e) (usesOf Expr.uses e)
  | none => .ok _
  | some e => e.check_finds.map _

theorem Assignment.check_finds (a : Assignment) : Finds source (a.check source) a.uses :=
  (Rules.variable_finds a.target).bind fun _ => a.value.check_finds.map _

theorem Assignment.check?_finds : (a : Option Assignment) →
    Finds source (Assignment.check? source a) (usesOf Assignment.uses a)
  | none => .ok _
  | some a => a.check_finds.map _

theorem Binding.check_finds : (b : Binding) → Finds source (b.check source) b.uses
  | .declare target init =>
    (Rules.variable_finds target).bind fun _ => (Expr.check?_finds init).map _
  | .assign a => a.check_finds.map _

theorem Binding.check?_finds : (b : Option Binding) →
    Finds source (Binding.check? source b) (usesOf Binding.uses b)
  | none => .ok _
  | some b => b.check_finds.map _

mutual

/-- A statement is refused for the first of its uses that is at fault. -/
theorem Statement.check_finds (loops : Nat) : (s : Statement) →
    Finds source (s.check source (loops != 0)) (s.uses loops)
  | .bind b => b.check_finds.map _
  | .eval e => e.check_finds.map _
  | .branch branches otherwise =>
    (checkBranches_finds loops branches).bind fun _ => (checkOtherwise_finds loops otherwise).map _
  | .whileLoop cond body => cond.check_finds.bind fun _ => (checkAll_finds (loops + 1) body).map _
  | .forLoop init cond update body =>
    (Binding.check?_finds init).bind fun _ => (Expr.check?_finds cond).bind fun _ =>
      (Assignment.check?_finds update).bind fun _ => (checkAll_finds (loops + 1) body).map _
  | .jump _ _ => by
    cases loops <;> rfl

theorem Statement.checkAll_finds (loops : Nat) : (ss : List Statement) →
    Finds source (checkAll source (loops != 0) ss) (usesAll loops ss)
  | [] => .ok _
  | s :: rest => (check_finds loops s).bind fun _ => (checkAll_finds loops rest).map _

theorem Statement.checkBranches_finds (loops : Nat) : (bs : List (Expr × List Statement)) →
    Finds source (checkBranches source (loops != 0) bs) (branchUses loops bs)
  | [] => .ok _
  | (cond, body) :: rest =>
    cond.check_finds.bind fun _ => (checkAll_finds loops body).bind fun _ =>
      (checkBranches_finds loops rest).map _

theorem Statement.checkOtherwise_finds (loops : Nat) : (body : Option (List Statement)) →
    Finds source (checkOtherwise source (loops != 0) body) (otherwiseUses loops body)
  | none => .ok _
  | some body => (checkAll_finds loops body).map _

end

end Surface

end ScopeBlocks.Script
