import ScopeBlocks.Proofs.Script.Lexing
import ScopeBlocks.Proofs.Script.ReadingStatements

/-! Text that writes expressions and statements. Pieces of it are put together as their expressions
are, whatever the pieces are. -/
namespace ScopeBlocks.Script

open Token

/-- Whether a text writes an expression with looser operators in parentheses only. -/
def Writes (code : String) (k : Nat) (e : Expr) : Prop :=
  ∃ ls, Scans code.toList ls ∧ e.Written k ls

namespace Writes

variable {code left right : String} {k : Nat} {e f : Expr}

theorem loosen (h : Writes code k e) {m : Nat} (hkm : k ≤ m) : Writes code m e := by
  obtain ⟨ls, hs, hw⟩ := h
  exact ⟨ls, hs, hw.loosen_le hkm⟩

theorem var {x : String} (hs : Scans x.toList [.name x]) (free : Primitive.ofName? x = none) :
    Writes x 0 (.var x) := ⟨_, hs, .var free⟩

theorem quote (s : String) : Writes (Text.quote s) 0 (.literal (.string s)) :=
  ⟨_, fun rest _ => scans_quote s rest, .text s⟩

theorem truth (b : Bool) : Writes (if b then "true" else "false") 0 (.literal (.bool b)) := by
  refine ⟨_, ?_, .truth b⟩
  cases b
  · exact scans_word (s := "false".toList) ⟨⟨'f', _, rfl, rfl⟩, List.all_eq_true.1 rfl⟩
  · exact scans_word (s := "true".toList) ⟨⟨'t', _, rfl, rfl⟩, List.all_eq_true.1 rfl⟩

theorem null : Writes "null" 0 (.literal .null) :=
  ⟨_, scans_word (s := "null".toList) ⟨⟨'n', _, rfl, rfl⟩, List.all_eq_true.1 rfl⟩, .null⟩

theorem parens (h : Writes code 8 e) : Writes ("(" ++ code ++ ")") 0 e := by
  obtain ⟨ls, hs, hw⟩ := h
  refine ⟨_, fun rest _ => ?_, hw.parens⟩
  unfold Scans at hs
  simp [hs]

theorem not (h : Writes code 8 e) : Writes ("!(" ++ code ++ ")") 2 (.unary .not e) := by
  obtain ⟨ls, hs, hw⟩ := h
  refine ⟨_, fun rest _ => ?_, hw.parens.loosen.not⟩
  unfold Scans at hs
  simp [lexemes?_bang, hs]

theorem binary (op : BinaryOp) (hl : Writes left 2 e) (hr : Writes right 2 f) :
    Writes (left ++ " " ++ op.text ++ " " ++ right) op.rank (.binary op e f) := by
  obtain ⟨ls, hls, hlw⟩ := hl
  obtain ⟨rs, hrs, hrw⟩ := hr
  have hop := scans_binary op
  obtain ⟨k, hk⟩ : ∃ k, op.rank = k + 3 := by cases op <;> exact ⟨_, rfl⟩
  rw [hk]
  refine ⟨_, fun rest hrest => ?_, .binary hk (hlw.loosen_le (by omega)) (hrw.loosen_le (by omega))⟩
  unfold Scans at hls hrs hop
  simp [hls, hop, hrs _ hrest]

theorem rank_le (op : BinaryOp) : op.rank ≤ 8 := by cases op <;> decide

theorem neg {c : Char} {cs : List Char} (h : Writes code 1 e) (hcode : code.toList = c :: cs)
    (hc : c ≠ '=') : Writes ("-" ++ code) 2 (.unary .neg e) := by
  obtain ⟨ls, hs, hw⟩ := h
  refine ⟨_, fun rest hrest => ?_, hw.neg⟩
  have hscan := hs rest hrest
  rw [hcode] at hscan
  rw [String.toList_append, hcode]
  show lexemes? ('-' :: c :: (cs ++ rest)) = _
  rw [lexemes?_minus hc, ← List.cons_append, hscan, prepend_prepend]
  rfl

end Writes

/-! Calls. -/

theorem scans_primitive (p : Primitive) : Scans p.name.toList [.name p.name] := by
  have hw : IsWord p.name.toList := by
    constructor
    · cases p <;> exact ⟨_, _, rfl, rfl⟩
    · cases p <;> exact List.all_eq_true.1 rfl
  have hn : word p.name.toList = .name p.name := by cases p <;> rfl
  rw [← hn]
  exact scans_word hw

theorem scans_arguments (args : List (String × Expr)) (h : ∀ a ∈ args, Writes a.1 8 a.2) :
    ∃ lss : List (List Lexeme × Expr), (∀ a ∈ lss, a.2.Written 8 a.1) ∧
      lss.map Prod.snd = args.map Prod.snd ∧
      Scans (", ".intercalate (args.map Prod.fst)).toList (commas (lss.map Prod.fst)) := by
  induction args with
  | nil => exact ⟨[], by simp, rfl, fun rest _ => by simp [commas]⟩
  | cons a args ih =>
    obtain ⟨ls, hs, hw⟩ := h a List.mem_cons_self
    obtain ⟨lss, hlss, hsnd, hscan⟩ := ih fun b hb => h b (List.mem_cons_of_mem _ hb)
    refine ⟨(ls, a.2) :: lss, fun b hb => (List.mem_cons.1 hb).elim (· ▸ hw) (hlss b),
      by simp [hsnd], ?_⟩
    cases args with
    | nil =>
      obtain rfl : lss = [] := by simpa using hsnd
      simpa [commas] using hs
    | cons b args =>
      obtain ⟨m, lss, rfl⟩ : ∃ m ms, lss = m :: ms := by
        cases lss with
        | nil => simp at hsnd
        | cons m ms => exact ⟨m, ms, rfl⟩
      intro rest hrest
      have htext : (", ".intercalate ((a :: b :: args).map Prod.fst)).toList =
          a.1.toList ++ ',' :: ' ' :: (", ".intercalate ((b :: args).map Prod.fst)).toList := by
        simp [String.intercalate_cons_cons]
      unfold Scans at hs hscan
      generalize (", ".intercalate ((b :: args).map Prod.fst)).toList = tail at htext hscan
      rw [htext, List.append_assoc, List.cons_append, List.cons_append, hs _ (by simp)]
      simp [hscan rest hrest, commas]

def callCode (p : Primitive) (args : List String) : String :=
  p.name ++ "(" ++ ", ".intercalate args ++ ")"

theorem Writes.call (p : Primitive) (args : List (String × Expr)) (h : ∀ a ∈ args, Writes a.1 8 a.2) :
    Writes (callCode p (args.map Prod.fst)) 0 (.call p (args.map Prod.snd)) := by
  obtain ⟨lss, hw, hsnd, hscan⟩ := scans_arguments args h
  rw [← hsnd]
  refine ⟨_, fun rest _ => ?_, .call p lss hw⟩
  have hp := scans_primitive p
  unfold Scans at hp hscan
  unfold callCode
  generalize ", ".intercalate (args.map Prod.fst) = inner at hscan
  simp [hp, hscan]

/-! Clauses and statements. -/

def WritesAssignment (code : String) (a : Assignment) : Prop :=
  ∃ ls, Scans code.toList ls ∧ a.Written ls

def WritesBinding (code : String) (b : Binding) : Prop :=
  ∃ ls, Scans code.toList ls ∧ b.Written ls

section

variable {x code : String} {e : Expr}

theorem writes_assignment (hs : Scans x.toList [.name x]) (free : Primitive.ofName? x = none)
    (op : AssignOp) (h : Writes code 8 e) :
    WritesAssignment (x ++ " " ++ op.text ++ " " ++ code) ⟨x, op, e⟩ := by
  obtain ⟨ls, hcode, hw⟩ := h
  have hop := scans_assign op
  refine ⟨_, fun rest hrest => ?_, .mk free op hw⟩
  unfold Scans at hs hcode hop
  simp [hs, hop, hcode _ hrest]

theorem writes_assign {a : Assignment} (h : WritesAssignment code a) :
    WritesBinding code (.assign a) := by
  obtain ⟨ls, hs, hw⟩ := h
  exact ⟨ls, hs, .assign hw⟩

theorem word_var : word ['v', 'a', 'r'] = .keyword .var := rfl

theorem writes_declare (hs : Scans x.toList [.name x]) (free : Primitive.ofName? x = none)
    (h : Writes code 8 e) :
    WritesBinding ("var " ++ x ++ " = " ++ code) (.declare x (some e)) := by
  obtain ⟨ls, hcode, hw⟩ := h
  refine ⟨_, fun rest hrest => ?_, .init free hw⟩
  unfold Scans at hs hcode
  simp [lexemes?_word, isNameStart, isNameChar, lexemes?_punctuation, isPunctuation, symbol?,
    word_var, hs, hcode _ hrest]

end

/-! Lines. -/

/-- Lines that scan one by one. -/
inductive ScanLines : List String → List Lexeme → Prop
  | nil : ScanLines [] []
  | cons {line : String} {lines : List String} {ls ms : List Lexeme} (head : Scans line.toList ls)
      (tail : ScanLines lines ms) : ScanLines (line :: lines) (ls ++ ms)

namespace ScanLines

variable {lines more : List String} {ls ms : List Lexeme}

theorem single {line : String} (h : Scans line.toList ls) : ScanLines [line] ls := by
  simpa using cons h nil

theorem append (h : ScanLines lines ls) (h' : ScanLines more ms) :
    ScanLines (lines ++ more) (ls ++ ms) := by
  induction h with
  | nil => exact h'
  | cons head _ ih =>
    rw [List.append_assoc]
    exact cons head ih

theorem indented (h : ScanLines lines ls) : ScanLines (lines.map ("  " ++ ·)) ls := by
  induction h with
  | nil => exact nil
  | cons head _ ih =>
    refine cons (fun rest hrest => ?_) ih
    have hline := head rest hrest
    simpa using hline

theorem join (h : ScanLines lines ls) (rest : List Char) :
    lexemes? ((String.join (lines.map (· ++ "\n"))).toList ++ rest) = prepend ls (lexemes? rest) := by
  induction h with
  | nil => simp
  | @cons line lines ls ms head _ ih =>
    have hline := head ('\n' :: ((String.join (lines.map (· ++ "\n"))).toList ++ rest)) (by simp)
    rw [lexemes?_space _ isSpace_literal.2, ih, prepend_prepend] at hline
    rw [← hline, List.map_cons, String.join_cons]
    simp

end ScanLines

/-- Whether lines write some statements one after another. -/
def WriteLines (lines : List String) (ss : List Statement) : Prop :=
  ∃ ls, ScanLines lines ls ∧ AllWritten ls ss

namespace WriteLines

variable {lines more : List String} {ss ts : List Statement} {code : String} {e : Expr}

theorem nil : WriteLines [] [] := ⟨[], .nil, .nil⟩

theorem append (h : WriteLines lines ss) (h' : WriteLines more ts) :
    WriteLines (lines ++ more) (ss ++ ts) := by
  obtain ⟨ls, hs, hw⟩ := h
  obtain ⟨ms, hs', hw'⟩ := h'
  exact ⟨_, hs.append hs', hw.append hw'⟩

theorem indented (h : WriteLines lines ss) : WriteLines (lines.map ("  " ++ ·)) ss := by
  obtain ⟨ls, hs, hw⟩ := h
  exact ⟨ls, hs.indented, hw⟩

theorem scans_semicolon {ls : List Lexeme} (h : Scans code.toList ls) :
    Scans (code ++ ";").toList (ls ++ [.semicolon]) := by
  intro rest _
  unfold Scans at h
  simp [h]

theorem eval (h : Writes code 8 e) : WriteLines [code ++ ";"] [.eval e] := by
  obtain ⟨ls, hs, hw⟩ := h
  exact ⟨_, .single (scans_semicolon hs), .single (.eval hw)⟩

theorem bind {b : Binding} (h : WritesBinding code b) : WriteLines [code ++ ";"] [.bind b] := by
  obtain ⟨ls, hs, hw⟩ := h
  exact ⟨_, .single (scans_semicolon hs), .single (.bind hw)⟩

theorem exitLoop : WriteLines ["break;"] [.exitLoop] := by
  refine ⟨_, .single fun rest _ => ?_, .single .exitLoop⟩
  simp [lexemes?_word, isNameStart, isNameChar]
  rfl

theorem nextRound : WriteLines ["continue;"] [.nextRound] := by
  refine ⟨_, .single fun rest _ => ?_, .single .nextRound⟩
  simp [lexemes?_word, isNameStart, isNameChar]
  rfl

theorem scans_closeBrace : Scans "\x7d".toList [.closeBrace] := by
  intro rest _
  simp

theorem whileLoop (hc : Writes code 8 e) (hb : WriteLines lines ss) :
    WriteLines (("while (" ++ code ++ ") \x7b") :: lines ++ ["\x7d"]) [.whileLoop e ss] := by
  obtain ⟨cs, hcs, hcw⟩ := hc
  obtain ⟨_, hbs, b, hbw, rfl, rfl⟩ := hb
  have hhead : Scans ("while (" ++ code ++ ") \x7b").toList
      (.keyword .whileWord :: .openParen :: (cs ++ [.closeParen, .openBrace])) := by
    intro rest _
    unfold Scans at hcs
    simp [lexemes?_word, isNameStart, isNameChar, hcs]
    rfl
  refine ⟨_, .append (.cons hhead hbs) (.single scans_closeBrace), ?_⟩
  simpa [Guarded.all, braced] using AllWritten.single (.whileLoop ⟨cs, e, b⟩ hcw hbw)

theorem forLoop {i u : String} {init : Binding} {update : Assignment} (hi : WritesBinding i init)
    (hc : Writes code 8 e) (hu : WritesAssignment u update) (hb : WriteLines lines ss) :
    WriteLines (("for (" ++ i ++ "; " ++ code ++ "; " ++ u ++ ") \x7b") :: lines ++ ["\x7d"])
      [.forLoop (some init) (some e) (some update) ss] := by
  obtain ⟨is, his, hiw⟩ := hi
  obtain ⟨cs, hcs, hcw⟩ := hc
  obtain ⟨us, hus, huw⟩ := hu
  obtain ⟨_, hbs, b, hbw, rfl, rfl⟩ := hb
  have hhead : Scans ("for (" ++ i ++ "; " ++ code ++ "; " ++ u ++ ") \x7b").toList
      (.keyword .forWord :: .openParen :: (is ++ .semicolon :: (cs ++ .semicolon ::
        (us ++ [.closeParen, .openBrace])))) := by
    intro rest _
    unfold Scans at his hcs hus
    simp [lexemes?_word, isNameStart, isNameChar, his, hcs, hus]
    rfl
  refine ⟨_, .append (.cons hhead hbs) (.single scans_closeBrace), ?_⟩
  simpa [braced] using AllWritten.single (.forLoop (.some hiw) (.some hcw) (.some huw) b hbw)

end WriteLines

/-! Choices. The brace that closes one branch stands on the line that opens the next one. -/

def Guarded.opened (g : Guarded) : List Lexeme :=
  .openParen :: (g.lexemes ++ .closeParen :: .openBrace :: g.body.lexemes)

theorem Guarded.all_eq (g : Guarded) : g.all = g.opened ++ [.closeBrace] := by
  simp [Guarded.all, Guarded.opened, braced]

def openedOtherwise : Option (Listing Statement) → List Lexeme
  | none => []
  | some body => .closeBrace :: .keyword .elseWord :: .openBrace :: body.lexemes

theorem closeBrace_shift (others : List Guarded) (otherwise : Option (Listing Statement)) :
    .closeBrace :: ((others.flatMap fun g => .keyword .elseWord :: .keyword .ifWord :: g.all) ++
        otherwiseLexemes otherwise) =
      (others.flatMap fun g =>
        .closeBrace :: .keyword .elseWord :: .keyword .ifWord :: g.opened) ++
          openedOtherwise otherwise ++ [.closeBrace] := by
  induction others with
  | nil => cases otherwise <;> simp [otherwiseLexemes, openedOtherwise, braced]
  | cons g others ih =>
    simp only [List.flatMap_cons, List.append_assoc, List.cons_append, Guarded.all_eq,
      List.nil_append] at ih ⊢
    rw [ih]

/-- Whether lines write further branches, each after the brace of the one before it. -/
def WriteBranches (lines : List String) (bs : List (Expr × List Statement)) : Prop :=
  ∃ gs : List Guarded, gs.map Guarded.branch = bs ∧ (∀ g ∈ gs, g.cond.Written 8 g.lexemes) ∧
    (∀ g ∈ gs, ∀ p ∈ g.body, p.2.Written p.1) ∧
      ScanLines lines (gs.flatMap fun g =>
        .closeBrace :: .keyword .elseWord :: .keyword .ifWord :: g.opened)

def WriteOtherwise (lines : List String) (o : Option (List Statement)) : Prop :=
  ∃ last : Option (Listing Statement), last.map Listing.parts = o ∧
    (∀ body ∈ last, ∀ p ∈ body, p.2.Written p.1) ∧ ScanLines lines (openedOtherwise last)

section

variable {code : String} {e : Expr} {lines more last : List String} {ss : List Statement}
  {bs : List (Expr × List Statement)} {o : Option (List Statement)}

theorem WriteBranches.nil : WriteBranches [] [] := ⟨[], rfl, by simp, by simp, .nil⟩

theorem WriteBranches.cons (hc : Writes code 8 e) (hb : WriteLines lines ss)
    (h : WriteBranches more bs) :
    WriteBranches (("\x7d else if (" ++ code ++ ") \x7b") :: lines ++ more) ((e, ss) :: bs) := by
  obtain ⟨cs, hcs, hcw⟩ := hc
  obtain ⟨_, hbs, b, hbw, rfl, rfl⟩ := hb
  obtain ⟨gs, rfl, hconds, hbodies, hscan⟩ := h
  have hhead : Scans ("\x7d else if (" ++ code ++ ") \x7b").toList
      (.closeBrace :: .keyword .elseWord :: .keyword .ifWord :: .openParen ::
        (cs ++ [.closeParen, .openBrace])) := by
    intro rest _
    unfold Scans at hcs
    simp [lexemes?_word, isNameStart, isNameChar, hcs]
    rfl
  refine ⟨⟨cs, e, b⟩ :: gs, rfl, fun g hg => ?_, fun g hg => ?_, ?_⟩
  · exact (List.mem_cons.1 hg).elim (· ▸ hcw) (hconds g)
  · exact (List.mem_cons.1 hg).elim (· ▸ hbw) (hbodies g)
  · simpa [Guarded.opened] using (ScanLines.cons hhead hbs).append hscan

theorem WriteOtherwise.none : WriteOtherwise [] none := ⟨.none, rfl, by simp, .nil⟩

theorem WriteOtherwise.some (hb : WriteLines lines ss) :
    WriteOtherwise ("\x7d else \x7b" :: lines) (some ss) := by
  obtain ⟨_, hbs, b, hbw, rfl, rfl⟩ := hb
  have hhead : Scans "\x7d else \x7b".toList [.closeBrace, .keyword .elseWord, .openBrace] := by
    intro rest _
    simp [lexemes?_word, isNameStart, isNameChar]
    rfl
  exact ⟨.some b, rfl, by simpa using hbw, .cons hhead hbs⟩

theorem WriteLines.branch (hc : Writes code 8 e) (hb : WriteLines lines ss)
    (hbs : WriteBranches more bs) (ho : WriteOtherwise last o) :
    WriteLines ((("if (" ++ code ++ ") \x7b") :: lines ++ more) ++ last ++ ["\x7d"])
      [.branch ((e, ss) :: bs) o] := by
  obtain ⟨cs, hcs, hcw⟩ := hc
  obtain ⟨_, hbs', b, hbw, rfl, rfl⟩ := hb
  obtain ⟨gs, rfl, hconds, hbodies, hscan⟩ := hbs
  obtain ⟨ob, rfl, hlast, hscanLast⟩ := ho
  have hhead : Scans ("if (" ++ code ++ ") \x7b").toList
      (.keyword .ifWord :: .openParen :: (cs ++ [.closeParen, .openBrace])) := by
    intro rest _
    unfold Scans at hcs
    simp [lexemes?_word, isNameStart, isNameChar, hcs]
    rfl
  refine ⟨_, .append (.append (.append (.cons hhead hbs') hscan) hscanLast)
    (.single WriteLines.scans_closeBrace), ?_⟩
  have hw := AllWritten.single (Statement.Written.branch ⟨cs, e, b⟩ gs ob
    (fun g hg => (List.mem_cons.1 hg).elim (· ▸ hcw) (hconds g))
    (fun g hg => (List.mem_cons.1 hg).elim (· ▸ hbw) (hbodies g)) hlast)
  have hshift := closeBrace_shift gs ob
  rw [Guarded.all_eq] at hw
  simp only [List.append_assoc, List.cons_append, List.nil_append, Guarded.opened] at hw hshift ⊢
  rw [hshift] at hw
  exact hw

end

end ScopeBlocks.Script
