import Mathlib.Data.List.Forall2
import ScopeBlocks.Proofs.Script.Followed

/-! The marks of a script in the order of its text, each with the code that begins with it. In a tidy script these
are all calls that mark a block. -/
namespace ScopeBlocks.Script

/-! Calls. -/

mutual

def Expr.calls (p : Primitive) : Expr → List (List Expr)
  | .literal _ | .var _ => []
  | .call q args => (if q = p then [args] else []) ++ callsArgs p args
  | .member object _ => object.calls p
  | .unary _ operand => operand.calls p
  | .binary _ left right => left.calls p ++ right.calls p

def callsArgs (p : Primitive) : List Expr → List (List Expr)
  | [] => []
  | e :: rest => e.calls p ++ callsArgs p rest

end

def Assignment.calls (p : Primitive) (a : Assignment) : List (List Expr) := a.value.calls p

def Binding.calls (p : Primitive) : Binding → List (List Expr)
  | .declare _ init => init.elim [] (Expr.calls p)
  | .assign a => a.calls p

mutual

def Statement.calls (p : Primitive) : Statement → List (List Expr)
  | .bind b => b.calls p
  | .eval e => e.calls p
  | .branch branches otherwise => callsBranches p branches ++ callsOtherwise p otherwise
  | .whileLoop cond body => cond.calls p ++ callsAll p body
  | .forLoop init cond update body =>
    init.elim [] (Binding.calls p) ++ cond.elim [] (Expr.calls p) ++ update.elim [] (Assignment.calls p) ++
      callsAll p body
  | .exitLoop | .nextRound => []

def callsAll (p : Primitive) : List Statement → List (List Expr)
  | [] => []
  | s :: rest => s.calls p ++ callsAll p rest

def callsBranches (p : Primitive) : List (Expr × List Statement) → List (List Expr)
  | [] => []
  | (cond, body) :: rest => cond.calls p ++ callsAll p body ++ callsBranches p rest

def callsOtherwise (p : Primitive) : Option (List Statement) → List (List Expr)
  | none => []
  | some body => callsAll p body

end

mutual

theorem Expr.calls_of_quiet : (e : Expr) → e.quiet = true → e.calls .mark = []
  | .literal _, _ | .var _, _ => rfl
  | .call q args, h => by
    rw [Expr.quiet, Bool.and_eq_true] at h
    have hq : q ≠ .mark := by simpa using h.1
    rw [Expr.calls, if_neg hq, callsArgs_of_quiet args h.2, List.append_nil]
  | .member object _, h => object.calls_of_quiet h
  | .unary _ operand, h => operand.calls_of_quiet h
  | .binary _ left right, h => by
    rw [Expr.quiet, Bool.and_eq_true] at h
    rw [Expr.calls, left.calls_of_quiet h.1, right.calls_of_quiet h.2, List.append_nil]

theorem callsArgs_of_quiet : (args : List Expr) → quietAll args = true → callsArgs .mark args = []
  | [], _ => rfl
  | e :: rest, h => by
    rw [quietAll, Bool.and_eq_true] at h
    rw [callsArgs, e.calls_of_quiet h.1, callsArgs_of_quiet rest h.2, List.append_nil]

end

theorem Assignment.calls_of_quiet {a : Assignment} (h : a.quiet = true) : a.calls .mark = [] :=
  a.value.calls_of_quiet h

theorem Binding.calls_of_quiet {b : Binding} (h : b.quiet = true) : b.calls .mark = [] := by
  cases b with
  | declare x init =>
    cases init with
    | none => rfl
    | some e => exact e.calls_of_quiet h
  | assign a => exact a.calls_of_quiet h

theorem elim_of_quiet {α : Type} {quiet : α → Bool} {calls : α → List (List Expr)}
    (hquiet : ∀ a, quiet a = true → calls a = []) {o : Option α} (h : o.all quiet = true) :
    o.elim [] calls = [] := by
  cases o with
  | none => rfl
  | some a => exact hquiet a h

/-! Marks. -/

def argsOf : List Statement → List Expr
  | .eval (.call _ args) :: _ => args
  | _ => []

mutual

/-- The code inside a statement from each of its marks on, in the order of the text. -/
def Statement.marked : Statement → List (List Statement)
  | .branch branches otherwise => markedBranches branches ++ markedOtherwise otherwise
  | .whileLoop _ body | .forLoop _ _ _ body => markedAll body
  | _ => []

/-- The code from each mark on, as far as the block of statements goes in which the mark stands. -/
def markedAll : List Statement → List (List Statement)
  | [] => []
  | s :: rest => (if s.isMark then [s :: rest] else []) ++ s.marked ++ markedAll rest

def markedBranches : List (Expr × List Statement) → List (List Statement)
  | [] => []
  | (_, body) :: rest => markedAll body ++ markedBranches rest

def markedOtherwise : Option (List Statement) → List (List Statement)
  | none => []
  | some body => markedAll body

end

mutual

/-- Where marks are statements, they are all calls that mark. -/
theorem Statement.calls_of_tidy : (s : Statement) → (rest : List Statement) → s.tidy = true →
    s.calls .mark = ((if s.isMark then [s :: rest] else []) ++ s.marked).map argsOf
  | .bind b, _, h => b.calls_of_quiet h
  | .eval e, _, h => by
    cases hmark : e.isMark with
    | true =>
      unfold Expr.isMark at hmark
      split at hmark
      · rfl
      · cases hmark
    | false =>
      rw [Statement.tidy, hmark, Bool.false_or] at h
      rw [Statement.calls, e.calls_of_quiet h]
      simp [Statement.isMark, hmark, Statement.marked]
  | .branch branches otherwise, _, h => by
    rw [Statement.tidy, Bool.and_eq_true] at h
    rw [Statement.calls, callsBranches_of_tidy branches h.1, callsOtherwise_of_tidy otherwise h.2]
    simp [Statement.isMark, Statement.marked]
  | .whileLoop cond body, _, h => by
    rw [Statement.tidy, Bool.and_eq_true] at h
    rw [Statement.calls, cond.calls_of_quiet h.1, callsAll_of_tidy body h.2]
    rfl
  | .forLoop init cond update body, _, h => by
    simp only [Statement.tidy, Bool.and_eq_true] at h
    obtain ⟨⟨⟨hinit, hcond⟩, hupdate⟩, hbody⟩ := h
    rw [Statement.calls, elim_of_quiet (fun _ => Binding.calls_of_quiet) hinit, elim_of_quiet Expr.calls_of_quiet hcond,
      elim_of_quiet (fun _ => Assignment.calls_of_quiet) hupdate, callsAll_of_tidy body hbody]
    rfl
  | .exitLoop, _, _ | .nextRound, _, _ => rfl

theorem callsAll_of_tidy : (ss : List Statement) → tidyAll ss = true →
    callsAll .mark ss = (markedAll ss).map argsOf
  | [], _ => rfl
  | s :: rest, h => by
    rw [tidyAll, Bool.and_eq_true] at h
    rw [callsAll, s.calls_of_tidy rest h.1, callsAll_of_tidy rest h.2, markedAll, ← List.map_append]

theorem callsBranches_of_tidy : (bs : List (Expr × List Statement)) → tidyBranches bs = true →
    callsBranches .mark bs = (markedBranches bs).map argsOf
  | [], _ => rfl
  | (cond, body) :: rest, h => by
    simp only [tidyBranches, Bool.and_eq_true] at h
    rw [callsBranches, cond.calls_of_quiet h.1.1, callsAll_of_tidy body h.1.2, callsBranches_of_tidy rest h.2,
      markedBranches, List.map_append, List.nil_append]

theorem callsOtherwise_of_tidy : (o : Option (List Statement)) → tidyOtherwise o = true →
    callsOtherwise .mark o = (markedOtherwise o).map argsOf
  | none, _ => rfl
  | some body, h => callsAll_of_tidy body h

end

theorem markedAll_append (ss ts : List Statement) :
    List.Forall₂ (· <+: ·) (markedAll ss ++ markedAll ts) (markedAll (ss ++ ts)) := by
  have hself (l : List (List Statement)) : List.Forall₂ (· <+: ·) l l :=
    List.forall₂_same.2 fun _ _ => List.prefix_rfl
  induction ss with
  | nil => exact hself _
  | cons s ss ih =>
    rw [List.cons_append, markedAll, markedAll, List.append_assoc]
    refine List.rel_append (List.rel_append ?_ (hself _)) ih
    split
    · exact .cons (List.prefix_append (s :: ss) ts) .nil
    · exact .nil

section

variable {α : Type} {R : α → List Statement → Prop}

/-- Whether the marks of some code come in turn with some things, of which the code from the mark on depends. -/
def MarkedAs (R : α → List Statement → Prop) (as : List α) (ss : List Statement) : Prop :=
  List.Forall₂ R as (markedAll ss)

theorem MarkedAs.extend (hR : ∀ a l l', R a l → l <+: l' → R a l') {as : List α} {ls ls' : List (List Statement)}
    (h : List.Forall₂ R as ls) (hextends : List.Forall₂ (· <+: ·) ls ls') : List.Forall₂ R as ls' := by
  induction h generalizing ls' with
  | nil =>
    cases hextends
    exact .nil
  | cons ha _ ih =>
    cases hextends with
    | cons hprefix hrest => exact .cons (hR _ _ _ ha hprefix) (ih hrest)

theorem MarkedAs.append (hR : ∀ a l l', R a l → l <+: l' → R a l') {as bs : List α} {ss ts : List Statement}
    (hs : MarkedAs R as ss) (ht : MarkedAs R bs ts) : MarkedAs R (as ++ bs) (ss ++ ts) :=
  extend hR (List.rel_append hs ht) (markedAll_append ss ts)

end

end ScopeBlocks.Script
