import ScopeBlocks.Proofs.Script.Adjacency
import ScopeBlocks.Proofs.Script.ReadingStatements

/-! Scripts written out from their trees. Parentheses stand around every operand, or only where an
operand binds less tightly than its place needs; between lexemes there is any blank text. Whatever the
style and the blanks, parsing gives back the tree. -/
namespace ScopeBlocks.Script

/-! The trees of the language. -/

/-- Values that a script can write down. -/
def Value.IsLiteral : Value → Prop
  | .null | .bool _ | .string _ => True
  | .number x => ∃ k hk, x = .finite false k hk
  | _ => False

/-- Names of variables: neither keywords nor names of primitives. -/
structure IsVariable (x : String) : Prop where
  name : IsName x
  free : Primitive.ofName? x = none

inductive Expr.Plain : Expr → Prop
  | literal {v : Value} (h : v.IsLiteral) : Plain (.literal v)
  | var {x : String} (h : IsVariable x) : Plain (.var x)
  | call (p : Primitive) {args : List Expr} (h : ∀ e ∈ args, Plain e) : Plain (.call p args)
  | member {e : Expr} {f : String} (h : Plain e) (hf : IsName f) : Plain (.member e f)
  | unary (op : UnaryOp) {e : Expr} (h : Plain e) : Plain (.unary op e)
  | binary (op : BinaryOp) {e f : Expr} (he : Plain e) (hf : Plain f) : Plain (.binary op e f)

structure Assignment.Plain (a : Assignment) : Prop where
  name : IsVariable a.name
  value : a.value.Plain

inductive Binding.Plain : Binding → Prop
  | declare {x : String} {init : Option Expr} (hx : IsVariable x) (h : ∀ e ∈ init, e.Plain) :
      Plain (.declare x init)
  | assign {a : Assignment} (h : a.Plain) : Plain (.assign a)

/-- Statements of the language, in a loop or outside of every loop: a choice has a branch, and jumps
stand in loops. -/
inductive Statement.Plain : Bool → Statement → Prop
  | bind {l : Bool} {b : Binding} (h : b.Plain) : Plain l (.bind b)
  | eval {l : Bool} {e : Expr} (h : e.Plain) : Plain l (.eval e)
  | branch {l : Bool} {branches : List (Expr × List Statement)} {otherwise : Option (List Statement)}
      (some : branches ≠ []) (conds : ∀ b ∈ branches, b.1.Plain)
      (bodies : ∀ b ∈ branches, ∀ s ∈ b.2, Plain l s)
      (last : ∀ body ∈ otherwise, ∀ s ∈ body, Plain l s) : Plain l (.branch branches otherwise)
  | whileLoop {l : Bool} {cond : Expr} {body : List Statement} (hc : cond.Plain)
      (h : ∀ s ∈ body, Plain true s) : Plain l (.whileLoop cond body)
  | forLoop {l : Bool} {init : Option Binding} {cond : Option Expr} {update : Option Assignment}
      {body : List Statement} (hi : ∀ b ∈ init, b.Plain) (hc : ∀ e ∈ cond, e.Plain)
      (hu : ∀ a ∈ update, a.Plain) (h : ∀ s ∈ body, Plain true s) :
      Plain l (.forLoop init cond update body)
  | exitLoop : Plain true .exitLoop
  | nextRound : Plain true .nextRound

/-! Their lexemes. -/

/-- Where parentheses stand. -/
inductive Style where
  | everyOperand
  | whereNeeded
  deriving DecidableEq, Repr

/-- How loosely the outermost operator of an expression binds. -/
def Expr.rank : Expr → Nat
  | .member .. => 1
  | .unary .. => 2
  | .binary op .. => op.rank
  | _ => 0

def Style.operand (style : Style) (bound rank : Nat) (ls : List Lexeme) : List Lexeme :=
  if style = .everyOperand ∨ bound < rank then .openParen :: (ls ++ [.closeParen]) else ls

def Value.lexeme : Value → Lexeme
  | .bool b => .keyword (if b then .trueWord else .falseWord)
  | .number x => .number x
  | .string s => .text s
  | _ => .keyword .nullWord

mutual

/-- The lexemes of an expression. Operators of one rank group to the left, so that the right operand
must bind more tightly. -/
def Expr.lexemes (style : Style) : Expr → List Lexeme
  | .literal v => [v.lexeme]
  | .var x => [.name x]
  | .call p args => .name p.name :: .openParen :: (commas (lexemesAll style args) ++ [.closeParen])
  | .member e f => style.operand 1 e.rank (e.lexemes style) ++ [.dot, .name f]
  | .unary op e => op.lexeme :: style.operand 2 e.rank (e.lexemes style)
  | .binary op l r => style.operand op.rank l.rank (l.lexemes style) ++
      .operator op :: style.operand (op.rank - 1) r.rank (r.lexemes style)

def Expr.lexemesAll (style : Style) : List Expr → List (List Lexeme)
  | [] => []
  | e :: rest => e.lexemes style :: lexemesAll style rest

end

def Assignment.lexemes (style : Style) (a : Assignment) : List Lexeme :=
  .name a.name :: .assign a.op :: a.value.lexemes style

def Binding.lexemes (style : Style) : Binding → List Lexeme
  | .declare x none => [.keyword .var, .name x]
  | .declare x (some e) => .keyword .var :: .name x :: .assign .set :: e.lexemes style
  | .assign a => a.lexemes style

def lexemesOption {α : Type} (lexemes : α → List Lexeme) : Option α → List Lexeme
  | none => []
  | some a => lexemes a

mutual

def Statement.lexemes (style : Style) : Statement → List Lexeme
  | .bind b => b.lexemes style ++ [.semicolon]
  | .eval e => e.lexemes style ++ [.semicolon]
  | .branch branches otherwise => branchLexemes style [.keyword .ifWord] branches ++
      elseLexemes style otherwise
  | .whileLoop cond body => .keyword .whileWord :: .openParen ::
      (cond.lexemes style ++ .closeParen :: braced (lexemesAll style body))
  | .forLoop init cond update body => .keyword .forWord :: .openParen ::
      (lexemesOption (Binding.lexemes style) init ++ .semicolon ::
        (lexemesOption (Expr.lexemes style) cond ++ .semicolon ::
          (lexemesOption (Assignment.lexemes style) update ++ .closeParen ::
            braced (lexemesAll style body))))
  | .exitLoop => [.keyword .breakWord, .semicolon]
  | .nextRound => [.keyword .continueWord, .semicolon]

def lexemesAll (style : Style) : List Statement → List Lexeme
  | [] => []
  | s :: rest => s.lexemes style ++ lexemesAll style rest

/-- The branches of a choice, the first one after the given words and the others after `else if`. -/
def branchLexemes (style : Style) (words : List Lexeme) :
    List (Expr × List Statement) → List Lexeme
  | [] => []
  | (cond, body) :: rest => words ++ .openParen ::
      (cond.lexemes style ++ .closeParen :: braced (lexemesAll style body)) ++
        branchLexemes style [.keyword .elseWord, .keyword .ifWord] rest

def elseLexemes (style : Style) : Option (List Statement) → List Lexeme
  | none => []
  | some body => .keyword .elseWord :: braced (lexemesAll style body)

end

/-! Both styles are ways of writing the tree. -/

namespace Expr

variable {style : Style} {k : Nat} {ls ms : List Lexeme} {e f : Expr}

theorem Written.extend {op : BinaryOp} (hl : Written op.rank ls e) (hr : Written (op.rank - 1) ms f) :
    Written op.rank (ls ++ .operator op :: ms) (.binary op e f) := by
  obtain ⟨k, hk⟩ : ∃ k, op.rank = k + 3 := by cases op <;> exact ⟨_, rfl⟩
  rw [hk] at hl hr ⊢
  cases hl with
  | @chain _ ls e written tail rank operands =>
    have hchain := written.chain (tail ++ [(op, ms, f)]) ?_ ?_
    · simpa using hchain
    · intro t ht
      rcases List.mem_append.1 ht with ht | ht
      · exact rank t ht
      · obtain rfl := List.mem_singleton.1 ht
        exact hk
    · intro t ht
      rcases List.mem_append.1 ht with ht | ht
      · exact operands t ht
      · obtain rfl := List.mem_singleton.1 ht
        exact hr

theorem Written.field (h : Written 1 ls e) (g : String) :
    Written 1 (ls ++ [.dot, .name g]) (.member e g) := by
  cases h with
  | @fields ls e written fs => simpa using written.fields (fs ++ [g])

theorem Written.sign (op : UnaryOp) (h : Written 2 ls e) :
    Written 2 (op.lexeme :: ls) (.unary op e) := by
  cases h with
  | @signs ops ls e written => exact written.signs (op :: ops)

theorem rank_le (e : Expr) : e.rank ≤ 8 := by
  cases e with
  | binary op =>
    show op.rank ≤ 8
    cases op <;> decide
  | _ => simp [rank]

theorem Written.operand_le (h : Written e.rank ls e) (style : Style) (bound : Nat) :
    Written bound (style.operand bound e.rank ls) e := by
  unfold Style.operand
  split
  next => exact (h.loosen_le (rank_le e)).parens.loosen_le (Nat.zero_le bound)
  next hn => exact h.loosen_le (by omega)

theorem Plain.written (h : e.Plain) (style : Style) : Written e.rank (e.lexemes style) e := by
  induction h with
  | @literal v h =>
    cases v with
    | null => exact .null
    | bool b => exact .truth b
    | number x => exact .number x
    | string s => exact .text s
    | array | object | error => cases h
  | var h => exact .var h.free
  | @call p args _ ih =>
    have hargs : ∀ es : List Expr, (∀ e ∈ es, Written e.rank (e.lexemes style) e) →
        ∃ lss : List (List Lexeme × Expr), (∀ a ∈ lss, Written 8 a.1 a.2) ∧
          lss.map Prod.fst = lexemesAll style es ∧ lss.map Prod.snd = es := by
      intro es hes
      induction es with
      | nil => exact ⟨[], by simp, by simp [lexemesAll], rfl⟩
      | cons e es ihes =>
        obtain ⟨lss, hw, hfst, hsnd⟩ := ihes fun f hf => hes f (List.mem_cons_of_mem _ hf)
        refine ⟨(e.lexemes style, e) :: lss, fun a ha => ?_, by simp [lexemesAll, hfst],
          by simp [hsnd]⟩
        rcases List.mem_cons.1 ha with rfl | ha
        · exact (hes e List.mem_cons_self).loosen_le (rank_le e)
        · exact hw a ha
    obtain ⟨lss, hw, hfst, hsnd⟩ := hargs args ih
    have hcall := Written.call p lss hw
    rw [hfst, hsnd] at hcall
    simpa [lexemes, rank] using hcall
  | @member e f _ _ ih => simpa [lexemes, rank] using (ih.operand_le style 1).field f
  | @unary op e _ ih => simpa [lexemes, rank] using (ih.operand_le style 2).sign op
  | @binary op e f _ _ ihe ihf =>
    simpa [lexemes, rank] using
      (ihe.operand_le style op.rank).extend (ihf.operand_le style (op.rank - 1))

end Expr

theorem Assignment.Plain.written {a : Assignment} (h : a.Plain) (style : Style) :
    a.Written (a.lexemes style) :=
  .mk h.name.free a.op ((h.value.written style).loosen_le (Expr.rank_le _))

theorem Binding.Plain.written {b : Binding} (h : b.Plain) (style : Style) :
    b.Written (b.lexemes style) := by
  cases h with
  | @declare x init hx h =>
    cases init with
    | none => exact .declare hx.free
    | some e => exact .init hx.free (((h e rfl).written style).loosen_le (Expr.rank_le _))
  | assign h => exact .assign (h.written style)

theorem writtenOption {α : Type} {Written : List Lexeme → α → Prop} {lexemes : α → List Lexeme}
    {o : Option α} (h : ∀ a ∈ o, Written (lexemes a) a) :
    WrittenOption Written (lexemesOption lexemes o) o := by
  cases o with
  | none => exact .none
  | some a => exact .some (h a rfl)

def listing (style : Style) (ss : List Statement) : Listing Statement :=
  ss.map fun s => (s.lexemes style, s)

variable {style : Style}

@[simp] theorem lexemes_listing (ss : List Statement) :
    (listing style ss).lexemes = lexemesAll style ss := by
  induction ss with
  | nil => simp [listing, Listing.lexemes, lexemesAll]
  | cons s ss ih =>
    rw [lexemesAll, ← ih]
    rfl

@[simp] theorem parts_listing (ss : List Statement) : (listing style ss).parts = ss := by
  simp [listing, Listing.parts, Function.comp_def]

def guardedOf (style : Style) (b : Expr × List Statement) : Guarded :=
  ⟨b.1.lexemes style, b.1, listing style b.2⟩

theorem branchLexemes_cons (words : List Lexeme) (b : Expr × List Statement)
    (rest : List (Expr × List Statement)) : branchLexemes style words (b :: rest) =
      words ++ (guardedOf style b).all ++
        branchLexemes style [.keyword .elseWord, .keyword .ifWord] rest := by
  obtain ⟨cond, body⟩ := b
  simp [branchLexemes, guardedOf, Guarded.all]

theorem branchLexemes_others (rest : List (Expr × List Statement)) :
    branchLexemes style [.keyword .elseWord, .keyword .ifWord] rest =
      (rest.map (guardedOf style)).flatMap fun g => .keyword .elseWord :: .keyword .ifWord :: g.all := by
  induction rest with
  | nil => simp [branchLexemes]
  | cons b rest ih => rw [branchLexemes_cons, ih]; rfl

theorem elseLexemes_eq (otherwise : Option (List Statement)) :
    elseLexemes style otherwise = otherwiseLexemes (otherwise.map (listing style)) := by
  cases otherwise with
  | none => simp [elseLexemes, otherwiseLexemes]
  | some body => simp [elseLexemes, otherwiseLexemes]

theorem Statement.Plain.written {l : Bool} {s : Statement} (h : s.Plain l) (style : Style) :
    s.Written (s.lexemes style) := by
  have hlisting : ∀ {ss : List Statement}, (∀ s ∈ ss, s.Written (s.lexemes style)) →
      ∀ p ∈ listing style ss, p.2.Written p.1 := by
    intro ss hss p hp
    obtain ⟨s, hs, rfl⟩ := List.mem_map.1 hp
    exact hss s hs
  induction h with
  | bind h => simpa [lexemes] using Written.bind (h.written style)
  | eval h => simpa [lexemes] using Written.eval ((h.written style).loosen_le (Expr.rank_le _))
  | @branch l branches otherwise some conds bodies last ihs ihlast =>
    obtain ⟨first, rest, rfl⟩ := List.exists_cons_of_ne_nil some
    have hguarded : ∀ g ∈ guardedOf style first :: rest.map (guardedOf style),
        ∃ b ∈ first :: rest, guardedOf style b = g := fun g hg => List.mem_map.1 hg
    have hbranch := Written.branch (guardedOf style first) (rest.map (guardedOf style))
      (otherwise.map (listing style)) ?_ ?_ ?_
    · rw [lexemes, branchLexemes_cons, branchLexemes_others, elseLexemes_eq]
      simpa [guardedOf, Guarded.branch, Function.comp_def] using hbranch
    · intro g hg
      obtain ⟨b, hb, rfl⟩ := hguarded g hg
      exact ((conds b hb).written style).loosen_le (Expr.rank_le _)
    · intro g hg
      obtain ⟨b, hb, rfl⟩ := hguarded g hg
      exact hlisting (ihs b hb)
    · intro body hbody
      obtain ⟨ss, hss, rfl⟩ := Option.mem_map.1 hbody
      exact hlisting (ihlast ss hss)
  | @whileLoop l cond body hc _ ih =>
    have hloop := Written.whileLoop (guardedOf style (cond, body))
      ((hc.written style).loosen_le (Expr.rank_le _)) (hlisting ih)
    simpa [lexemes, guardedOf, Guarded.all] using hloop
  | @forLoop l init cond update body hi hc hu _ ih =>
    have hloop := Written.forLoop (writtenOption fun b hb => (hi b hb).written style)
      (writtenOption fun e he => ((hc e he).written style).loosen_le (Expr.rank_le _))
      (writtenOption fun a ha => (hu a ha).written style) (listing style body) (hlisting ih)
    simpa [lexemes] using hloop
  | exitLoop => simpa [lexemes] using Written.exitLoop
  | nextRound => simpa [lexemes] using Written.nextRound

/-! Nor do they put a jump outside of a loop. -/

theorem Statement.Plain.placed {l : Bool} {s : Statement} (h : s.Plain l) : s.placed l = true := by
  induction h with
  | bind | eval => simp [Statement.placed]
  | @branch l branches otherwise _ _ _ _ ihs ihlast =>
    have hbranches : placedBranches l branches = true :=
      placedBranches_of_forall fun b hb => placedAll_of_forall (ihs b hb)
    cases otherwise with
    | none => simp [Statement.placed, placedOtherwise, hbranches]
    | some body =>
      simp [Statement.placed, placedOtherwise, hbranches, placedAll_of_forall (ihlast body rfl)]
  | whileLoop _ _ ih => simp [Statement.placed, placedAll_of_forall ih]
  | forLoop _ _ _ _ ih => simp [Statement.placed, placedAll_of_forall ih]
  | exitLoop | nextRound => simp [Statement.placed]

/-! Every lexeme has a spelling. -/

def SpelledAll (ls : List Lexeme) : Prop := ∀ l ∈ ls, l.Spelled

namespace SpelledAll

variable {ls ms : List Lexeme} {l : Lexeme}

@[simp] theorem nil : SpelledAll [] := by simp [SpelledAll]

@[simp] theorem cons_iff : SpelledAll (l :: ls) ↔ l.Spelled ∧ SpelledAll ls := List.forall_mem_cons

@[simp] theorem append_iff : SpelledAll (ls ++ ms) ↔ SpelledAll ls ∧ SpelledAll ms :=
  List.forall_mem_append

theorem commas {lss : List (List Lexeme)} (h : ∀ ls ∈ lss, SpelledAll ls) :
    SpelledAll (commas lss) := by
  induction lss with
  | nil => exact nil
  | cons ls lss ih =>
    have hls := h ls List.mem_cons_self
    have hlss := ih fun ms hms => h ms (List.mem_cons_of_mem _ hms)
    cases lss with
    | nil => exact hls
    | cons ms lss => exact append_iff.2 ⟨hls, cons_iff.2 ⟨trivial, hlss⟩⟩

theorem operand (h : SpelledAll ls) (bound rank : Nat) :
    SpelledAll (style.operand bound rank ls) := by
  unfold Style.operand
  split
  · simpa [Lexeme.Spelled] using h
  · exact h

theorem braced (h : SpelledAll ls) : SpelledAll (braced ls) := by
  simpa [Script.braced, Lexeme.Spelled] using h

theorem option {α : Type} {lexemes : α → List Lexeme} {o : Option α}
    (h : ∀ a ∈ o, SpelledAll (lexemes a)) : SpelledAll (lexemesOption lexemes o) := by
  cases o with
  | none => exact nil
  | some a => exact h a rfl

end SpelledAll

theorem Primitive.isName_name (p : Primitive) : IsName p.name := by
  cases p <;> exact ⟨⟨⟨_, _, rfl, by decide⟩, List.all_eq_true.1 (by decide)⟩, by decide⟩

theorem Expr.Plain.spelled {e : Expr} (h : e.Plain) : SpelledAll (e.lexemes style) := by
  induction h with
  | @literal v h =>
    cases v with
    | number => simpa [Expr.lexemes, Value.lexeme, Lexeme.Spelled, Value.IsLiteral] using h
    | null | bool | string => simp [Expr.lexemes, Value.lexeme, Lexeme.Spelled]
    | array | object | error => cases h
  | var h => simpa [Expr.lexemes, Lexeme.Spelled] using h.name
  | @call p args _ ih =>
    have hargs : ∀ es : List Expr, (∀ e ∈ es, SpelledAll (e.lexemes style)) →
        ∀ ls ∈ Expr.lexemesAll style es, SpelledAll ls := by
      intro es hes
      induction es with
      | nil => simp [Expr.lexemesAll]
      | cons e es ihes =>
        rw [Expr.lexemesAll, List.forall_mem_cons]
        exact ⟨hes e List.mem_cons_self, ihes fun f hf => hes f (List.mem_cons_of_mem _ hf)⟩
    simpa [Expr.lexemes, Lexeme.Spelled, p.isName_name] using SpelledAll.commas (hargs args ih)
  | member _ hf ih => simpa [Expr.lexemes, Lexeme.Spelled, hf] using ih.operand _ _
  | unary op _ ih =>
    cases op <;> simpa [Expr.lexemes, Lexeme.Spelled, UnaryOp.lexeme] using ih.operand _ _
  | binary op _ _ ihe ihf =>
    simpa [Expr.lexemes, Lexeme.Spelled] using ⟨ihe.operand _ _, ihf.operand _ _⟩

theorem Assignment.Plain.spelled {a : Assignment} (h : a.Plain) : SpelledAll (a.lexemes style) := by
  simpa [Assignment.lexemes, Lexeme.Spelled, h.name.name] using h.value.spelled

theorem Binding.Plain.spelled {b : Binding} (h : b.Plain) : SpelledAll (b.lexemes style) := by
  cases h with
  | @declare x init hx h =>
    cases init with
    | none => simpa [Binding.lexemes, Lexeme.Spelled] using hx.name
    | some e => simpa [Binding.lexemes, Lexeme.Spelled, hx.name] using (h e rfl).spelled
  | assign h => exact h.spelled

theorem SpelledAll.statements {ss : List Statement} (h : ∀ s ∈ ss, SpelledAll (s.lexemes style)) :
    SpelledAll (lexemesAll style ss) := by
  induction ss with
  | nil => simp [lexemesAll]
  | cons s ss ih =>
    rw [lexemesAll, append_iff]
    exact ⟨h s List.mem_cons_self, ih fun t ht => h t (List.mem_cons_of_mem _ ht)⟩

theorem SpelledAll.branches {words : List Lexeme} (hwords : SpelledAll words)
    {bs : List (Expr × List Statement)} (hconds : ∀ b ∈ bs, SpelledAll (b.1.lexemes style))
    (hbodies : ∀ b ∈ bs, SpelledAll (lexemesAll style b.2)) :
    SpelledAll (branchLexemes style words bs) := by
  induction bs generalizing words with
  | nil => simp [branchLexemes]
  | cons b bs ih =>
    obtain ⟨cond, body⟩ := b
    have hwords' : SpelledAll [.keyword .elseWord, .keyword .ifWord] := by simp [Lexeme.Spelled]
    have hrest := ih hwords' (fun b hb => hconds b (List.mem_cons_of_mem _ hb))
      fun b hb => hbodies b (List.mem_cons_of_mem _ hb)
    simpa [branchLexemes, Lexeme.Spelled, hwords, hrest] using
      ⟨hconds _ List.mem_cons_self, (hbodies _ List.mem_cons_self).braced⟩

theorem Statement.Plain.spelled {l : Bool} {s : Statement} (h : s.Plain l) :
    SpelledAll (s.lexemes style) := by
  induction h with
  | bind h => simpa [Statement.lexemes, Lexeme.Spelled] using h.spelled
  | eval h => simpa [Statement.lexemes, Lexeme.Spelled] using h.spelled
  | @branch l branches otherwise _ conds _ _ ihs ihlast =>
    have hbranches : SpelledAll (branchLexemes style [.keyword .ifWord] branches) :=
      .branches (by simp [Lexeme.Spelled]) (fun b hb => (conds b hb).spelled)
        fun b hb => .statements (ihs b hb)
    cases otherwise with
    | none => simpa [Statement.lexemes, elseLexemes] using hbranches
    | some body =>
      simpa [Statement.lexemes, elseLexemes, Lexeme.Spelled, hbranches] using
        (SpelledAll.statements (ihlast body rfl)).braced
  | whileLoop hc _ ih =>
    simpa [Statement.lexemes, Lexeme.Spelled] using ⟨hc.spelled, (SpelledAll.statements ih).braced⟩
  | forLoop hi hc hu _ ih =>
    simpa [Statement.lexemes, Lexeme.Spelled] using
      ⟨SpelledAll.option fun b hb => (hi b hb).spelled,
        SpelledAll.option fun e he => (hc e he).spelled,
        SpelledAll.option fun a ha => (hu a ha).spelled, (SpelledAll.statements ih).braced⟩
  | exitLoop | nextRound => simp [Statement.lexemes, Lexeme.Spelled]

/-! Any text with these lexemes is read back. -/

def Layout.WordsApart (t : Layout) : Prop :=
  t.IsChain fun p q => p.2 = [] → ¬(p.1.isWord = true ∧ q.1.isWord = true)

/-- Where lexemes that fit are laid out, only words have to be kept apart. -/
theorem Layout.apart_of_fits {t : Layout} (hfits : Fits t.lexemes) (hwords : t.WordsApart) :
    t.Apart := by
  induction t with
  | nil => exact .nil
  | cons p t ih =>
    cases t with
    | nil => exact .singleton p
    | cons q t =>
      obtain ⟨hbeside, hfits⟩ := List.isChain_cons_cons.1 hfits
      obtain ⟨hpq, hwords⟩ := List.isChain_cons_cons.1 hwords
      exact List.isChain_cons_cons.2
        ⟨fun hgap => hbeside.resolve_right (hpq hgap), ih hfits hwords⟩

theorem sealed_listing {ss : List Statement} (h : ∀ s ∈ ss, s.Written (s.lexemes style)) :
    Sealed (lexemesAll style ss) := by
  rw [← lexemes_listing]
  refine Sealed.flatMap fun p hp => ?_
  obtain ⟨s, hs, rfl⟩ := List.mem_map.1 hp
  exact (h s hs).sealed

/-- A script of the language is read back from its lexemes, whatever blank text stands before and between
them. -/
theorem parse_layout (style : Style) {p : Program} (hp : ∀ s ∈ p, s.Plain false)
    {lead : List Char} (hlead : Blank lead) {t : Layout} (ht : t.lexemes = lexemesAll style p)
    (hspaced : t.Spaced) (hwords : t.WordsApart) :
    parse (String.ofList (lead ++ t.chars)) = .ok p := by
  have hwritten : ∀ s ∈ p, s.Written (s.lexemes style) := fun s hs => (hp s hs).written style
  have hspelled : ∀ q ∈ t, q.1.Spelled := by
    have hall : SpelledAll t.lexemes := ht ▸ SpelledAll.statements fun s hs => (hp s hs).spelled
    exact fun q hq => hall q.1 (List.mem_map_of_mem hq)
  have hfits : Fits t.lexemes := ht ▸ (sealed_listing hwritten).fits
  have hscan : Token.lexemes? (lead ++ t.chars) = some (lexemesAll style p) := by
    have hapart := Layout.apart_of_fits hfits hwords
    rw [hlead.lexemes?_append, Layout.lexemes?_chars hspelled hspaced hapart, ht]
  have hall : AllWritten (lexemesAll style p) p := by
    refine ⟨listing style p, fun q hq => ?_, lexemes_listing p, parts_listing p⟩
    obtain ⟨s, hs, rfl⟩ := List.mem_map.1 hq
    exact hwritten s hs
  rw [← String.toList_ofList (l := lead ++ t.chars)] at hscan
  have hparse := parse_of_written hscan hall
  rw [if_pos (placedAll_of_forall fun s hs => (hp s hs).placed)] at hparse
  cases hresult : parse (String.ofList (lead ++ t.chars)) with
  | error e =>
    rw [hresult] at hparse
    cases hparse
  | ok q =>
    rw [hresult] at hparse
    exact congrArg Except.ok (Option.some.inj hparse)

def render (style : Style) (p : Program) : String :=
  String.ofList (Layout.chars ((lexemesAll style p).map fun l => (l, [' '])))

/-- Every script of the language parses from its text in either style to itself, and so it does with
other blank text before the first lexeme and after each one, as long as words are kept apart. -/
theorem parse_rendered (style : Style) {p : Program} (hp : ∀ s ∈ p, s.Plain false) :
    parse (render style p) = .ok p ∧
      ∀ (lead : List Char) (t : Layout), Blank lead → t.lexemes = lexemesAll style p → t.Spaced →
        t.WordsApart → parse (String.ofList (lead ++ t.chars)) = .ok p := by
  refine ⟨parse_layout style hp .nil ?_ ?_ ?_, fun lead t hlead ht hspaced hwords =>
    parse_layout style hp hlead ht hspaced hwords⟩
  · simp [Layout.lexemes, Function.comp_def]
  · intro q hq
    obtain ⟨l, -, rfl⟩ := List.mem_map.1 hq
    exact ⟨.space rfl .nil, by simp [Token.isSpace]⟩
  · exact List.Pairwise.isChain (List.pairwise_map.2 (List.pairwise_of_forall (by simp)))

/-- A loop without clauses, whose body counts down and chooses. -/
def countdown : Program :=
  [.forLoop none none none
    [.bind (.assign ⟨"iffy", .sub, .binary .sub (.var "a")
      (.binary .div (.binary .sub (.literal (.number .zero)) (.var "b")) (.member (.var "a") "end"))⟩),
     .branch [(.unary .not (.var "iffy"), [.exitLoop]), (.literal (.bool true), [.nextRound])] none]]

def countdownLayout : Layout :=
  [(.keyword .forWord, [' ']), (.openParen, []), (.semicolon, []), (.semicolon, []),
   (.closeParen, [' ']), (.openBrace, [' ']),
   (.name "iffy", []), (.assign .sub, []), (.name "a", [' ']), (.operator .sub, []),
   (.openParen, []), (.number .zero, []), (.operator .sub, []), (.name "b", []), (.closeParen, []),
   (.operator .div, []), (.name "a", []), (.dot, []), (.name "end", []),
   (.semicolon, [' ', '/', '*', '?', '*', '/']),
   (.keyword .ifWord, []), (.openParen, []), (.bang, []), (.name "iffy", []), (.closeParen, []),
   (.openBrace, []), (.keyword .breakWord, []), (.semicolon, []), (.closeBrace, []),
   (.keyword .elseWord, [' ']), (.keyword .ifWord, []), (.openParen, []), (.keyword .trueWord, []),
   (.closeParen, []), (.openBrace, []), (.keyword .continueWord, []), (.semicolon, []),
   (.closeBrace, []), (.closeBrace, [])]

theorem countdown_plain : ∀ s ∈ countdown, s.Plain false := by
  have hx : ∀ x ∈ ["iffy", "a", "b"], IsVariable x := by
    intro x hx
    simp only [List.mem_cons, List.not_mem_nil, or_false] at hx
    rcases hx with rfl | rfl | rfl <;>
      exact ⟨⟨⟨⟨_, _, rfl, by decide⟩, List.all_eq_true.1 (by decide)⟩, by decide⟩, by decide⟩
  have hend : IsName "end" := ⟨⟨⟨_, _, rfl, by decide⟩, List.all_eq_true.1 (by decide)⟩, by decide⟩
  have hzero : Value.IsLiteral (.number .zero) := ⟨_, _, rfl⟩
  have hvar : ∀ x ∈ ["iffy", "a", "b"], Expr.Plain (.var x) := fun x h => .var (hx x h)
  intro s hs
  obtain rfl := List.mem_singleton.1 hs
  refine .forLoop (by simp) (by simp) (by simp) ?_
  simp only [List.forall_mem_cons, List.not_mem_nil, IsEmpty.forall_iff, implies_true, and_true]
  have hvalue : Expr.Plain (.binary .div (.binary .sub (.literal (.number .zero)) (.var "b"))
      (.member (.var "a") "end")) :=
    .binary _ (.binary _ (.literal hzero) (hvar _ (by decide))) (.member (hvar _ (by decide)) hend)
  refine ⟨.bind (.assign ⟨hx _ (by decide), .binary _ (hvar _ (by decide)) hvalue⟩),
    .branch (by simp) ?_ ?_ (by simp)⟩
  · simpa using ⟨.unary _ (hvar _ (by decide)), .literal trivial⟩
  · simpa using ⟨.exitLoop, .nextRound⟩

theorem countdownLayout_spaced : countdownLayout.Spaced := by
  have hgaps : ∀ p ∈ countdownLayout,
      p.2 = [] ∨ p.2 = [' '] ∨ p.2 = [' ', '/', '*', '?', '*', '/'] := by decide
  intro p hp
  rcases hgaps p hp with h | h | h <;> rw [h]
  · exact ⟨.nil, by simp⟩
  · exact ⟨.space rfl .nil, by simp [Token.isSpace]⟩
  · exact ⟨.space rfl (@Blank.comment ['?'] _ (by decide) .nil), by simp [Token.isSpace]⟩

theorem parse_countdown : (∀ s ∈ countdown, s.Plain false) ∧
    parse ("for (;;) \x7b iffy-=a -(0-b)/a.end; /*?*/" ++
      "if(!iffy)\x7bbreak;\x7delse if(true)\x7bcontinue;\x7d\x7d") = .ok countdown :=
  ⟨countdown_plain, (parse_rendered .whereNeeded countdown_plain).2 [] countdownLayout .nil
    (by decide) countdownLayout_spaced (by unfold Layout.WordsApart; decide)⟩

end ScopeBlocks.Script
