import ScopeBlocks.Script.Parse

/-! How expressions may be written, as lexemes: parentheses may stand around every operand and must
stand around those that bind less tightly. The grammar reads each of these ways back. -/
namespace ScopeBlocks.Script

/-- How loosely an operator binds; operands in parentheses have rank 0, those with fields 1 and those
with a sign 2. -/
def BinaryOp.rank : BinaryOp → Nat
  | .mul | .div | .rem => 3
  | .add | .sub => 4
  | .lt | .le | .gt | .ge => 5
  | .eq | .ne => 6
  | .and => 7
  | .or => 8

def UnaryOp.lexeme : UnaryOp → Lexeme
  | .not => .bang
  | .neg => .operator .sub

/-- Lists of lexemes with commas between them. -/
def commas : List (List Lexeme) → List Lexeme
  | [] => []
  | [ls] => ls
  | ls :: ms :: rest => ls ++ .comma :: commas (ms :: rest)

/-- The ways of writing an expression with operators of at most some rank outside of parentheses. -/
inductive Expr.Written : Nat → List Lexeme → Expr → Prop
  | number (x : Number) : Written 0 [.number x] (.literal (.number x))
  | text (s : String) : Written 0 [.text s] (.literal (.string s))
  | truth (b : Bool) :
      Written 0 [.keyword (if b then .trueWord else .falseWord)] (.literal (.bool b))
  | null : Written 0 [.keyword .nullWord] (.literal .null)
  | var {x : String} (free : Primitive.ofName? x = none) : Written 0 [.name x] (.var x)
  | call (p : Primitive) (args : List (List Lexeme × Expr))
      (written : ∀ a ∈ args, Written 8 a.1 a.2) :
      Written 0 (.name p.name :: .openParen :: (commas (args.map Prod.fst) ++ [.closeParen]))
        (.call p (args.map Prod.snd))
  | parens {ls : List Lexeme} {e : Expr} (written : Written 8 ls e) :
      Written 0 (.openParen :: (ls ++ [.closeParen])) e
  | fields {ls : List Lexeme} {e : Expr} (written : Written 0 ls e) (fs : List String) :
      Written 1 (ls ++ fs.flatMap fun f => [.dot, .name f]) (fs.foldl .member e)
  | signs (ops : List UnaryOp) {ls : List Lexeme} {e : Expr} (written : Written 1 ls e) :
      Written 2 (ops.map UnaryOp.lexeme ++ ls) (ops.foldr .unary e)
  | chain {k : Nat} {ls : List Lexeme} {e : Expr} (written : Written (k + 2) ls e)
      (tail : List (BinaryOp × List Lexeme × Expr)) (rank : ∀ t ∈ tail, t.1.rank = k + 3)
      (operands : ∀ t ∈ tail, Written (k + 2) t.2.1 t.2.2) :
      Written (k + 3) (ls ++ tail.flatMap fun t => .operator t.1 :: t.2.1)
        (tail.foldl (fun e t => .binary t.1 e t.2.2) e)

namespace Expr.Written

variable {k : Nat} {ls ms : List Lexeme} {e f : Expr}

theorem loosen (h : Written k ls e) : Written (k + 1) ls e := by
  match k with
  | 0 => simpa using h.fields []
  | 1 => exact signs [] h
  | k + 2 => simpa using h.chain [] (by simp) (by simp)

theorem loosen_le (h : Written k ls e) {m : Nat} (hkm : k ≤ m) : Written m ls e := by
  induction hkm with
  | refl => exact h
  | step _ ih => exact ih.loosen

theorem binary {op : BinaryOp} (hop : op.rank = k + 3) (hl : Written (k + 2) ls e)
    (hr : Written (k + 2) ms f) :
    Written (k + 3) (ls ++ .operator op :: ms) (.binary op e f) := by
  simpa using hl.chain [(op, ms, f)] (by simpa using hop) (by simpa using hr)

theorem not (h : Written 1 ls e) : Written 2 (.bang :: ls) (.unary .not e) := signs [.not] h

theorem neg (h : Written 1 ls e) : Written 2 (.operator .sub :: ls) (.unary .neg e) :=
  signs [.neg] h

end Expr.Written

def Lexeme.startsOperand : Lexeme → Bool
  | .number _ | .text _ | .name _ | .openParen => true
  | .keyword w => w = .trueWord || w = .falseWord || w = .nullWord
  | _ => false

def Lexeme.startsExpr (l : Lexeme) : Bool :=
  l.startsOperand || l = .bang || l = .operator .sub

namespace Expr.Written

variable {k : Nat} {ls : List Lexeme} {e : Expr}

theorem starts (h : Written k ls e) :
    ∃ l r, ls = l :: r ∧ l.startsExpr = true ∧ (k ≤ 1 → l.startsOperand = true) := by
  induction h with
  | number x => exact ⟨_, _, rfl, rfl, fun _ => rfl⟩
  | text s => exact ⟨_, _, rfl, rfl, fun _ => rfl⟩
  | truth b => cases b <;> exact ⟨_, _, rfl, rfl, fun _ => rfl⟩
  | null => exact ⟨_, _, rfl, rfl, fun _ => rfl⟩
  | var free => exact ⟨_, _, rfl, rfl, fun _ => rfl⟩
  | call p args _ _ => exact ⟨_, _, rfl, rfl, fun _ => rfl⟩
  | parens _ _ => exact ⟨_, _, rfl, rfl, fun _ => rfl⟩
  | fields _ fs ih =>
    obtain ⟨l, r, rfl, hl, ho⟩ := ih
    exact ⟨l, _, rfl, hl, fun _ => ho (by decide)⟩
  | signs ops _ ih =>
    obtain ⟨l, r, rfl, hl, -⟩ := ih
    cases ops with
    | nil => exact ⟨l, _, rfl, hl, by simp⟩
    | cons op ops => cases op <;> exact ⟨_, _, rfl, rfl, by simp⟩
  | chain _ tail _ _ ih _ =>
    obtain ⟨l, r, rfl, hl, -⟩ := ih
    exact ⟨l, _, rfl, hl, by omega⟩

theorem assign_not_mem (h : Written k ls e) (op : AssignOp) : .assign op ∉ ls := by
  induction h with
  | call p args _ ih =>
    have hc : ∀ lss : List (List Lexeme), (∀ ls ∈ lss, .assign op ∉ ls) → .assign op ∉ commas lss := by
      intro lss
      fun_induction commas lss <;> simp_all
    simpa using hc _ (by simpa using ih)
  | signs ops _ ih =>
    simp only [List.mem_append, List.mem_map, not_or, not_exists, not_and]
    exact ⟨fun o _ => by cases o <;> simp [UnaryOp.lexeme], ih⟩
  | chain _ tail _ _ ih ihs =>
    simp only [List.mem_append, List.mem_flatMap, List.mem_cons, not_or, not_exists, not_and]
    exact ⟨ih, fun t ht => ⟨by simp, ihs t ht⟩⟩
  | _ => simp_all

end Expr.Written

/-! Statements. -/

inductive Assignment.Written : List Lexeme → Assignment → Prop
  | mk {x : String} (free : Primitive.ofName? x = none) (op : AssignOp) {ls : List Lexeme} {e : Expr}
      (value : e.Written 8 ls) : Written (.name x :: .assign op :: ls) ⟨x, op, e⟩

inductive Binding.Written : List Lexeme → Binding → Prop
  | declare {x : String} (free : Primitive.ofName? x = none) :
      Written [.keyword .var, .name x] (.declare x none)
  | init {x : String} (free : Primitive.ofName? x = none) {ls : List Lexeme} {e : Expr}
      (value : e.Written 8 ls) :
      Written (.keyword .var :: .name x :: .assign .set :: ls) (.declare x (some e))
  | assign {ls : List Lexeme} {a : Assignment} (written : a.Written ls) : Written ls (.assign a)

inductive WrittenOption {α : Type} (written : List Lexeme → α → Prop) :
    List Lexeme → Option α → Prop
  | none : WrittenOption written [] none
  | some {ls : List Lexeme} {a : α} (h : written ls a) : WrittenOption written ls (some a)

/-- Statements next to the lexemes that they are written with. -/
abbrev Listing (α : Type) := List (List Lexeme × α)

def Listing.lexemes {α : Type} (b : Listing α) : List Lexeme := b.flatMap Prod.fst

def Listing.parts {α : Type} (b : Listing α) : List α := b.map Prod.snd

def braced (ls : List Lexeme) : List Lexeme := .openBrace :: (ls ++ [.closeBrace])

/-- A condition next to its lexemes, and the statements that it guards. -/
structure Guarded where
  lexemes : List Lexeme
  cond : Expr
  body : Listing Statement

def Guarded.all (g : Guarded) : List Lexeme :=
  .openParen :: (g.lexemes ++ .closeParen :: braced g.body.lexemes)

def Guarded.branch (g : Guarded) : Expr × List Statement := (g.cond, g.body.parts)

def otherwiseLexemes : Option (Listing Statement) → List Lexeme
  | none => []
  | some body => .keyword .elseWord :: braced body.lexemes

inductive Statement.Written : List Lexeme → Statement → Prop
  | bind {ls : List Lexeme} {b : Binding} (written : b.Written ls) :
      Written (ls ++ [.semicolon]) (.bind b)
  | eval {ls : List Lexeme} {e : Expr} (written : e.Written 8 ls) :
      Written (ls ++ [.semicolon]) (.eval e)
  | branch (first : Guarded) (others : List Guarded) (otherwise : Option (Listing Statement))
      (conds : ∀ g ∈ first :: others, g.cond.Written 8 g.lexemes)
      (bodies : ∀ g ∈ first :: others, ∀ p ∈ g.body, Written p.1 p.2)
      (last : ∀ body ∈ otherwise, ∀ p ∈ body, Written p.1 p.2) :
      Written (.keyword .ifWord :: (first.all ++
          (others.flatMap fun g => .keyword .elseWord :: .keyword .ifWord :: g.all) ++
            otherwiseLexemes otherwise))
        (.branch ((first :: others).map Guarded.branch) (otherwise.map Listing.parts))
  | whileLoop (g : Guarded) (cond : g.cond.Written 8 g.lexemes)
      (body : ∀ p ∈ g.body, Written p.1 p.2) :
      Written (.keyword .whileWord :: g.all) (.whileLoop g.cond g.body.parts)
  | forLoop {ils cls uls : List Lexeme} {init : Option Binding} {cond : Option Expr}
      {update : Option Assignment} (hi : WrittenOption Binding.Written ils init)
      (hc : WrittenOption (Expr.Written 8) cls cond)
      (hu : WrittenOption Assignment.Written uls update) (body : Listing Statement)
      (hb : ∀ p ∈ body, Written p.1 p.2) :
      Written (.keyword .forWord :: .openParen :: (ils ++ .semicolon :: (cls ++ .semicolon ::
          (uls ++ .closeParen :: braced body.lexemes))))
        (.forLoop init cond update body.parts)
  | exitLoop : Written [.keyword .breakWord, .semicolon] .exitLoop
  | nextRound : Written [.keyword .continueWord, .semicolon] .nextRound

/-- The ways of writing some statements one after another. -/
def AllWritten (ls : List Lexeme) (ss : List Statement) : Prop :=
  ∃ b : Listing Statement, (∀ p ∈ b, p.2.Written p.1) ∧ b.lexemes = ls ∧ b.parts = ss

namespace AllWritten

variable {ls ms : List Lexeme} {ss ts : List Statement}

theorem nil : AllWritten [] [] := ⟨[], by simp, rfl, rfl⟩

theorem single {s : Statement} (h : s.Written ls) : AllWritten ls [s] :=
  ⟨[(ls, s)], by simpa using h, by simp [Listing.lexemes], rfl⟩

theorem append (hs : AllWritten ls ss) (ht : AllWritten ms ts) :
    AllWritten (ls ++ ms) (ss ++ ts) := by
  obtain ⟨b, hb, rfl, rfl⟩ := hs
  obtain ⟨c, hc, rfl, rfl⟩ := ht
  refine ⟨b ++ c, fun p hp => ?_, List.flatMap_append, List.map_append⟩
  exact (List.mem_append.1 hp).elim (hb p) (hc p)

end AllWritten

/-! Jumps. -/

mutual

/-- Whether every jump in a statement stands in a loop. -/
def Statement.placed (inLoop : Bool) : Statement → Bool
  | .bind _ | .eval _ => true
  | .branch branches otherwise => placedBranches inLoop branches && placedOtherwise inLoop otherwise
  | .whileLoop _ body => placedAll true body
  | .forLoop _ _ _ body => placedAll true body
  | .exitLoop | .nextRound => inLoop

def placedAll (inLoop : Bool) : List Statement → Bool
  | [] => true
  | s :: rest => s.placed inLoop && placedAll inLoop rest

def placedBranches (inLoop : Bool) : List (Expr × List Statement) → Bool
  | [] => true
  | (_, body) :: rest => placedAll inLoop body && placedBranches inLoop rest

def placedOtherwise (inLoop : Bool) : Option (List Statement) → Bool
  | none => true
  | some body => placedAll inLoop body

end

theorem placedAll_of_forall {inLoop : Bool} {ss : List Statement}
    (h : ∀ s ∈ ss, s.placed inLoop = true) : placedAll inLoop ss = true := by
  induction ss with
  | nil => simp [placedAll]
  | cons s ss ih =>
    simp [placedAll, h s List.mem_cons_self, ih fun t ht => h t (List.mem_cons_of_mem _ ht)]

theorem placedBranches_of_forall {inLoop : Bool} {bs : List (Expr × List Statement)}
    (h : ∀ p ∈ bs, placedAll inLoop p.2 = true) : placedBranches inLoop bs = true := by
  induction bs with
  | nil => rfl
  | cons p bs ih =>
    unfold placedBranches
    rw [h p List.mem_cons_self, ih fun q hq => h q (List.mem_cons_of_mem _ hq)]
    rfl

end ScopeBlocks.Script
