import ScopeBlocks.Proofs.Script.Rules.Clauses

/-! Statements by their rules. What fits the rule of a statement is read as that statement, and what is built
from its pairs is what is checked of it, in as many loops as there are around it. -/
namespace ScopeBlocks.Script.Rules

open Surface.Grammar (EndsBranch follows_semicolon)

variable {source : List Char} {n : Nat} {ts rest : List Token} {ps : List Pair} {place : List Char}
  {block : Surface.Grammar.Rule (List Surface.Statement)}

theorem Pair.part_statement (p : Pair) (loops : Nat) :
    (p.part source).statement loops = statementOf source p (partsOf source p.inner) loops := by
  rw [part_eq]

theorem Pair.part_block (p : Pair) (loops : Nat) :
    (p.part source).block loops = blockOf loops (partsOf source p.inner) := by
  rw [part_eq]

/-- What a pair stands for as a statement, in so many loops. -/
structure Pair.States (source : List Char) (p : Pair) (s : Surface.Statement) : Prop where
  built : ∀ loops, (p.part source).statement loops = lift (s.check source (loops != 0))
  uses : ∀ loops, p.uses loops = s.uses loops
  symbol : p.symbol ≠ .ending

/-- That a form is read as a statement before what does not go on with a choice. -/
def StatesAs (source : List Char) (n : Nat) (block : Surface.Grammar.Rule (List Surface.Statement))
    (ts rest : List Token) (ps : List Pair) : Prop :=
  ∃ p s, ps = [p] ∧ Surface.Grammar.statement n block ts = some (s, rest) ∧ p.States source s

def jumpSymbol : Surface.Jump → Symbol
  | .exitLoop => .breakStmt
  | .nextRound => .continueStmt

theorem jump_reads (j : Surface.Jump) (h : Fits (.rule (jumpSymbol j)) ts (some (ps, rest))) :
    StatesAs source n block ts rest ps := by
  obtain ⟨inner, hfits, rfl⟩ := fits_rule.1 h
  have hform : (jumpSymbol j).form = .seq (.word j.word) (.literal .semicolon) := by cases j <;> rfl
  simp only [hform, fits_seq, fits_word, fits_literal] at hfits
  obtain ⟨_, _, _, ⟨word, rfl, rfl⟩, ⟨semicolon, rfl, rfl⟩, rfl⟩ := hfits
  refine ⟨_, .jump j word, rfl, ?_, fun loops => ?_, fun loops => ?_, ?_⟩
  · cases j <;> rfl
  · rw [Pair.part_statement]
    cases j <;> cases loops <;> rfl
  · cases j <;> simp only [jumpSymbol, Pair.uses] <;> rfl
  · cases j <;> rintro ⟨⟩

theorem while_reads (hblock : BlockReads source block n) (h : Fits (.rule .whileStmt) ts (some (ps, rest)))
    (hg : Genuine ts) (hn : ts.length < n) : StatesAs source n block ts rest ps := by
  obtain ⟨_, hfits, rfl⟩ := fits_rule.1 h
  obtain ⟨_, us, inner, hword, hguard, rfl⟩ := fits_seq.1 hfits
  obtain ⟨word, rfl, rfl⟩ := fits_word.1 hword
  simp only [List.length_cons] at hn
  obtain ⟨cond, body, hread, hguards⟩ := guard_reads hblock hguard hg.tail (by omega)
  refine ⟨_, .whileLoop cond body, rfl, ?_, fun loops => ?_, fun loops => ?_, by rintro ⟨⟩⟩
  · simp only [Surface.Grammar.statement, hread]
    rfl
  · rw [Pair.part_statement]
    simp only [statementOf, List.cons_append, List.nil_append, partsOf_cons]
    rw [significant_word rfl, hguards.built]
    simp only [Surface.Statement.check, lift_bind, bind_assoc]
    rfl
  · simp only [Pair.uses, List.cons_append, List.nil_append, usesIn_cons, word_uses, hguards.uses]
    rfl

theorem if_reads (hblock : BlockReads source block n) (h : Fits (.rule .ifStmt) ts (some (ps, rest)))
    (hg : Genuine ts) (hn : ts.length < n) (hrest : EndsBranch rest) :
    StatesAs source n block ts rest ps := by
  obtain ⟨_, hfits, rfl⟩ := fits_rule.1 h
  obtain ⟨_, us, _, hword, hbranches, rfl⟩ := fits_seq.1 hfits
  obtain ⟨word, rfl, rfl⟩ := fits_word.1 hword
  obtain ⟨_, vs, _, hguard, hothers, rfl⟩ := fits_seq.1 hbranches
  obtain ⟨inner, hinner, rfl⟩ := fits_rule.1 hguard
  obtain ⟨others, mid, last, hmany, hlast, rfl⟩ := fits_seq.1 hothers
  have hsuffix := hinner.suffix _ _ rfl
  have hlength := hsuffix.length_le
  simp only [List.length_cons] at hn
  obtain ⟨cond, body, hread, hguards⟩ := guard_reads hblock hinner hg.tail (by omega)
  obtain ⟨branches, otherwise, hreads, hfurther⟩ := branches_read hblock (fits_many.1 hmany).1 hlast
    (hg.tail.of_suffix hsuffix) (by omega) (m := n) (by omega) hrest
  have hall : Branches source (.ofToken (.keyword .ifWord) ⟨.keyword .ifWord, word⟩ ::
      ⟨.condBlock, placeOf us, textOf us vs, inner⟩ :: (others ++ last)) ((cond, body) :: branches)
      otherwise := (hfurther.cons rfl hguards).word rfl word
  refine ⟨_, .branch ((cond, body) :: branches) otherwise, rfl, ?_, fun loops => ?_, fun loops => ?_,
    by rintro ⟨⟩⟩
  · simp only [Surface.Grammar.statement, hread, hreads, Option.bind_eq_bind, Option.bind_some]
    rfl
  · rw [Pair.part_statement]
    simp only [statementOf, List.cons_append, List.nil_append, hall.built, Surface.Statement.check, lift_bind,
      bind_assoc]
    rfl
  · rw [uses_plain (by simp)]
    exact hall.uses loops

theorem for_reads (hblock : BlockReads source block n) (h : Fits (.rule .forStmt) ts (some (ps, rest)))
    (hg : Genuine ts) (hn : ts.length < n) : StatesAs source n block ts rest ps := by
  obtain ⟨_, hfits, rfl⟩ := fits_rule.1 h
  simp only [Symbol.form, Form.inOrder, fits_seq, fits_word, fits_literal] at hfits
  obtain ⟨_, _, _, ⟨word, rfl, rfl⟩, ⟨_, _, _, ⟨openParen, rfl, rfl⟩, ⟨_, _, _, hinit, ⟨_, us, _,
    ⟨first, rfl, rfl⟩, ⟨_, _, _, hcond, ⟨_, vs, _, ⟨second, rfl, rfl⟩, ⟨_, _, _, hupdate, ⟨_, ws, _,
    ⟨close, rfl, rfl⟩, hbody, rfl⟩, rfl⟩, rfl⟩, rfl⟩, rfl⟩, rfl⟩, rfl⟩, rfl⟩ := hfits
  have hginit := hg.tail.tail
  have hgcond := (hginit.of_suffix (hinit.suffix _ _ rfl)).tail
  have hgupdate := (hgcond.of_suffix (hcond.suffix _ _ rfl)).tail
  have hlengths := (hinit.suffix _ _ rfl).length_le
  have hlengths' := (hcond.suffix _ _ rfl).length_le
  have hlengths'' := (hupdate.suffix _ _ rfl).length_le
  simp only [List.length_cons] at hn hlengths hlengths' hlengths''
  obtain ⟨pi, init, rfl, hpi, hreadInit, hbinds⟩ := forInit_reads source hinit hginit (n := n) (by omega)
  obtain ⟨pc, cond, rfl, hpc, hreadCond, hmeans⟩ := forCond_reads source hcond hgcond (n := n) (by omega)
  obtain ⟨pu, update, rfl, hpu, hreadUpdate, hassigns⟩ := forUpdate_reads source hupdate hgupdate (n := n)
    (by omega)
  obtain ⟨pb, body, rfl, hreadBody, hencloses⟩ := hblock hbody
    (hgupdate.of_suffix (hupdate.suffix _ _ rfl)).tail (by omega)
  refine ⟨_, .forLoop init cond update body, rfl, ?_, fun loops => ?_, fun loops => ?_, by rintro ⟨⟩⟩
  · simp only [Surface.Grammar.statement, Surface.Grammar.expect, if_true, Option.bind_eq_bind,
      Option.bind_some, hreadInit, hreadCond, hreadUpdate, hreadBody]
    rfl
  · rw [Pair.part_statement]
    simp only [statementOf, List.cons_append, List.nil_append, partsOf_cons, partsOf_nil]
    rw [significant_word rfl, significant_cons (by rw [hpi]; rfl), significant_cons (by rw [hpc]; rfl),
      significant_cons (by rw [hpu]; rfl), significant_cons (by rw [hencloses.symbol]; rfl)]
    simp only [clausesOf, clauseOf_init hpi hbinds, clauseOf_cond hpc hmeans, clauseOf_update hpu hassigns,
      clauseOf_body hencloses, Surface.Statement.check, lift_bind, bind_assoc, pure_bind]
    rfl
  · simp only [Pair.uses, List.cons_append, List.nil_append, usesIn_cons, usesIn_nil, word_uses,
      hencloses.uses]
    rw [uses_plain (by simp [hpi]), uses_plain (by simp [hpc]), uses_plain (by simp [hpu]),
      hbinds.usesIn_eq fun _ _ h => h.uses _, hmeans.usesIn_eq fun _ _ h => h.uses _,
      hassigns.usesIn_eq fun _ _ h => h.uses _, List.append_nil]
    rfl

theorem declared_reads (h : Fits (.seq (.rule .varBinding) (.literal .semicolon)) ts (some (ps, rest)))
    (hg : Genuine ts) (hn : ts.length < n) : StatesAs source n block ts rest ps := by
  obtain ⟨_, us, _, hbinding, hsemicolon, rfl⟩ := fits_seq.1 h
  obtain ⟨semicolon, rfl, rfl⟩ := fits_literal.1 hsemicolon
  obtain ⟨p, b, word, us, rfl, hp, rfl, hread, hbinds⟩ := declaration_reads source hbinding hg hn
  refine ⟨p, .bind b, List.append_nil _, ?_, fun loops => ?_, hbinds.uses, by rw [hp]; rintro ⟨⟩⟩
  · simp only [Surface.Grammar.statement, hread]
    rfl
  · have hbuilt := hbinds.built
    rw [bindingOf, Pair.part_pair, if_pos hp, Pair.part_inner] at hbuilt
    rw [Pair.part_statement]
    simp only [statementOf, hp, hbuilt, Surface.Statement.check, lift_map]

theorem assigned_reads (h : Fits (.seq (.rule .assign) (.literal .semicolon)) ts (some (ps, rest)))
    (hg : Genuine ts) (hn : ts.length < n) : StatesAs source n block ts rest ps := by
  obtain ⟨_, us, _, hassign, hsemicolon, rfl⟩ := fits_seq.1 h
  obtain ⟨semicolon, rfl, rfl⟩ := fits_literal.1 hsemicolon
  obtain ⟨p, a, x, spot, op, set, us, rfl, rfl, hread, hassigns⟩ := assignment_reads source hassign hg hn
    (follows_semicolon semicolon rest)
  refine ⟨p, .bind (.assign a), List.append_nil _, ?_, fun loops => ?_, hassigns.uses,
    by rw [hassigns.symbol]; rintro ⟨⟩⟩
  · simp only [Surface.Grammar.statement, hread]
    rfl
  · rw [Pair.part_statement]
    simp only [statementOf, hassigns.symbol, hassigns.built, Surface.Statement.check,
      Surface.Binding.check, lift_map, bind_assoc, pure_bind]

theorem expr_name {x : String} {spot set : List Char} {op : AssignOp} {us : List Token} (n : Nat) :
    Surface.Grammar.expr (n + 1) (⟨.name x, spot⟩ :: ⟨.assign op, set⟩ :: us) =
      some (.name ⟨x, spot⟩, ⟨.assign op, set⟩ :: us) := rfl

theorem statement_of_expr {e : Surface.Expr}
    (h : Surface.Grammar.expr n ts = some (e, ⟨.semicolon, place⟩ :: rest)) :
    Surface.Grammar.statement n block ts = some (.eval e, rest) := by
  obtain ⟨⟨l, spot⟩, us, rfl, hstarts⟩ := starts_of_read h
  have heval : ((Surface.Grammar.expr n (⟨l, spot⟩ :: us)).bind fun r =>
      (Surface.Grammar.expect .semicolon r.2).bind fun rest => some (.eval r.1, rest)) =
      some (Surface.Statement.eval e, rest) := by
    rw [h]
    rfl
  rw [← heval]
  cases l with
  | keyword w => cases w <;> first | rfl | cases hstarts
  | name x =>
    cases us with
    | nil => rfl
    | cons t us =>
      obtain ⟨l, set⟩ := t
      cases l with
      | assign op =>
        cases n with
        | zero => cases h
        | succ n =>
          rw [expr_name] at h
          cases h
      | _ => rfl
  | number | text | openParen | bang | operator => rfl
  | _ => cases hstarts

theorem evaluated_reads (h : Fits (.rule .exprStmt) ts (some (ps, rest))) (hg : Genuine ts)
    (hn : ts.length < n) : StatesAs source n block ts rest ps := by
  obtain ⟨_, hfits, rfl⟩ := fits_rule.1 h
  obtain ⟨_, us, _, hexpr, hsemicolon, rfl⟩ := fits_seq.1 hfits
  obtain ⟨semicolon, rfl, rfl⟩ := fits_literal.1 hsemicolon
  obtain ⟨p, e, rfl, -, hread, hmeans⟩ := expr_reads source hexpr hg hn (follows_semicolon semicolon rest)
  refine ⟨_, .eval e, rfl, ?_, fun loops => ?_, fun loops => ?_, by rintro ⟨⟩⟩
  · exact statement_of_expr hread
  · rw [Pair.part_statement]
    simp only [statementOf, List.append_nil, partsOf_cons, hmeans.built, Surface.Statement.check, lift_map]
  · rw [uses_plain (by simp)]
    show usesIn loops [p] = _
    rw [usesIn_cons, usesIn_nil, hmeans.uses, List.append_nil]
    rfl

theorem statement_reads (hblock : BlockReads source block n) (h : Fits .statement ts (some (ps, rest)))
    (hg : Genuine ts) (hn : ts.length < n) (hrest : EndsBranch rest) :
    StatesAs source n block ts rest ps := by
  simp only [Form.statement, Form.firstOf, fits_either] at h
  rcases h with h | ⟨-, h | ⟨-, h | ⟨-, h | ⟨-, h | ⟨-, h | ⟨-, h | ⟨-, h⟩⟩⟩⟩⟩⟩⟩
  · exact declared_reads h hg hn
  · exact if_reads hblock h hg hn hrest
  · exact while_reads hblock h hg hn
  · exact for_reads hblock h hg hn
  · exact jump_reads .exitLoop h
  · exact jump_reads .nextRound h
  · exact assigned_reads h hg hn
  · exact evaluated_reads h hg hn

theorem starts_of_statement {s : Surface.Statement}
    (h : Surface.Grammar.statement n block ts = some (s, rest)) :
    ∃ t us, ts = t :: us ∧ t.lexeme ≠ .closeBrace ∧ t.lexeme ≠ .keyword .elseWord := by
  cases ts with
  | nil =>
    have hnone : Surface.Grammar.statement n block [] = none := by cases n <;> rfl
    rw [hnone] at h
    cases h
  | cons t us =>
    obtain ⟨l, spot⟩ := t
    refine ⟨⟨l, spot⟩, us, rfl, ?_, ?_⟩
    · rintro rfl
      have hnone : Surface.Grammar.statement n block (⟨.closeBrace, spot⟩ :: us) = none := by
        cases n <;> rfl
      rw [hnone] at h
      cases h
    · rintro rfl
      have hnone : Surface.Grammar.statement n block (⟨.keyword .elseWord, spot⟩ :: us) = none := by
        cases n <;> rfl
      rw [hnone] at h
      cases h

/-! Blocks and whole texts. -/

def Closed (rest : List Token) : Prop := rest = [] ∨ ∃ place us, rest = ⟨.closeBrace, place⟩ :: us

/-- What pairs stand for as the statements of a block, in so many loops. -/
structure Lists (source : List Char) (ps : List Pair) (ss : List Surface.Statement) : Prop where
  built : ∀ loops, blockOf loops (partsOf source ps) =
    lift (Surface.Statement.checkAll source (loops != 0) ss)
  uses : ∀ loops, usesIn loops ps = Surface.Statement.usesAll loops ss

theorem Lists.cons {p : Pair} {s : Surface.Statement} {ss : List Surface.Statement}
    (hp : p.States source s) (h : Lists source ps ss) : Lists source (p :: ps) (s :: ss) where
  built loops := by
    rw [partsOf_cons, blockOf, Pair.part_pair, if_neg hp.symbol]
    simp only [hp.built, h.built, Surface.Statement.checkAll, lift_bind]
    rfl
  uses loops := by rw [usesIn_cons, hp.uses, h.uses, Surface.Statement.usesAll]

theorem statements_closed (h : Closed rest) (n : Nat) :
    Surface.Grammar.statements (n + 1) rest = some ([], rest) := by
  rcases h with rfl | ⟨place, us, rfl⟩ <;> rfl

theorem statements_cons {l : Lexeme} (h : l ≠ .closeBrace) (spot : List Char) (us : List Token) :
    Surface.Grammar.statements (n + 1) (⟨l, spot⟩ :: us) = (do
      let (s, rest) ← Surface.Grammar.statement (n + 1)
        (Surface.Grammar.inBraces (Surface.Grammar.statements n)) (⟨l, spot⟩ :: us)
      let (more, rest) ← Surface.Grammar.statements n rest
      return (s :: more, rest)) := by
  cases l with
  | closeBrace => exact absurd rfl h
  | _ => rfl

theorem Closed.endsBranch (h : Closed rest) : EndsBranch rest := by
  rcases h with rfl | ⟨place, us, rfl⟩
  · intro t ht
    cases ht
  · intro t ht
    cases ht
    rintro ⟨⟩

theorem shorter_of_word {w : Keyword} {f : Form} (h : Fits (.seq (.word w) f) ts (some (ps, rest))) :
    rest.length < ts.length := by
  obtain ⟨_, us, _, hword, hrest, -⟩ := fits_seq.1 h
  obtain ⟨_, rfl, -⟩ := fits_word.1 hword
  exact Nat.lt_succ_of_le (hrest.suffix _ _ rfl).length_le

theorem shorter_of_literal {l : Lexeme} {f : Form} (h : Fits (.seq f (.literal l)) ts (some (ps, rest))) :
    rest.length < ts.length := by
  obtain ⟨_, us, _, hfirst, hliteral, -⟩ := fits_seq.1 h
  obtain ⟨_, rfl, -⟩ := fits_literal.1 hliteral
  exact (hfirst.suffix _ _ rfl).length_le

theorem shorter_of_statement (h : Fits .statement ts (some (ps, rest))) : rest.length < ts.length := by
  simp only [Form.statement, Form.firstOf, fits_either] at h
  rcases h with h | ⟨-, h | ⟨-, h | ⟨-, h | ⟨-, h | ⟨-, h | ⟨-, h | ⟨-, h⟩⟩⟩⟩⟩⟩⟩
  · exact shorter_of_literal h
  iterate 5
    · obtain ⟨_, h, -⟩ := fits_rule.1 h
      exact shorter_of_word h
  · exact shorter_of_literal h
  · obtain ⟨_, h, -⟩ := fits_rule.1 h
    exact shorter_of_literal h

/-- That statements are read up to the end of a block or of the text. -/
def StatementsRead (source : List Char) (n : Nat) : Prop :=
  ∀ ⦃ts rest : List Token⦄ ⦃ps : List Pair⦄, Repeats .statement ts ps rest → Closed rest → Genuine ts →
    ts.length < n → EndsBranch ts ∧
      ∃ ss, Surface.Grammar.statements n ts = some (ss, rest) ∧ Lists source ps ss

theorem StatementsRead.blockReads (h : StatementsRead source n) :
    BlockReads source (Surface.Grammar.inBraces (Surface.Grammar.statements n)) (n + 1) := by
  intro ts rest ps hrule hg hn
  obtain ⟨_, hfits, rfl⟩ := fits_rule.1 hrule
  simp only [Symbol.form, Form.inOrder, fits_seq, fits_literal] at hfits
  obtain ⟨_, us, _, ⟨opening, rfl, rfl⟩, ⟨inner, _, _, hmany, ⟨closing, rfl, rfl⟩, rfl⟩, rfl⟩ := hfits
  obtain ⟨-, ss, hread, hlists⟩ := h (fits_many.1 hmany).1 (.inr ⟨closing, rest, rfl⟩) hg.tail
    (Nat.lt_of_succ_lt_succ hn)
  rw [List.nil_append, List.append_nil]
  refine ⟨_, ss, rfl, ?_, fun loops => ?_, fun loops => ?_, rfl⟩
  · simp only [Surface.Grammar.inBraces, Surface.Grammar.expect, if_true, Option.bind_eq_bind,
      Option.bind_some, hread]
    rfl
  · rw [Pair.part_block, hlists.built]
  · rw [uses_plain (by simp), hlists.uses]

theorem statements_read (source : List Char) (n : Nat) : StatementsRead source n := by
  induction n with
  | zero => exact fun _ _ _ _ _ _ hn => absurd hn (Nat.not_lt_zero _)
  | succ n ih =>
    intro ts rest ps h hrest hg hn
    cases h with
    | none =>
      exact ⟨hrest.endsBranch, [], statements_closed hrest n,
        fun _ => by rw [partsOf_nil]; rfl, fun _ => usesIn_nil _⟩
    | @more _ mid _ ps qs h again =>
      have hlength := shorter_of_statement h
      obtain ⟨hmid, ss, hreads, hlists⟩ := ih again hrest (hg.of_suffix (h.suffix _ _ rfl)) (by omega)
      obtain ⟨p, s, rfl, hread, hstates⟩ := statement_reads ih.blockReads h hg hn hmid
      obtain ⟨⟨l, spot⟩, us, rfl, hbrace, helse⟩ := starts_of_statement hread
      refine ⟨?_, s :: ss, ?_, hlists.cons hstates⟩
      · intro t ht
        cases ht
        exact helse
      · rw [statements_cons hbrace, hread]
        show (Surface.Grammar.statements n mid).bind _ = _
        rw [hreads]
        rfl

theorem blockOf_ending {part : Part} (h : part.pair.symbol = .ending) (loops : Nat) (parts : List Part) :
    blockOf loops (parts ++ [part]) = blockOf loops parts := by
  induction parts with
  | nil =>
    simp only [List.nil_append, blockOf, h, if_true]
  | cons p parts ih => rw [List.cons_append, blockOf, blockOf, ih]

/-- A text of the grammar is read, and the statements that are read in it stand for its pairs. -/
theorem program_reads {text : List Char} {pairs : List Pair} (h : Grammatical text pairs)
    (source : List Char) : ∃ ss, Surface.Grammar.read? text = some ss ∧
      build source pairs = lift (Surface.Statement.checkAll source false ss) ∧
      usesIn 0 pairs = Surface.Statement.usesAll 0 ss := by
  obtain ⟨tokens, hscan, hprogram⟩ := h
  obtain ⟨_, hfits, rfl⟩ := fits_rule.1 hprogram
  simp only [Symbol.form, fits_seq, fits_ending] at hfits
  obtain ⟨ps, _, _, hmany, ⟨rfl, -, rfl⟩, rfl⟩ := hfits
  obtain ⟨-, ss, hread, hlists⟩ := statements_read source (tokens.length + 1) (fits_many.1 hmany).1
    (.inl rfl) (genuine_of_scan hscan) (Nat.lt_succ_self _)
  refine ⟨ss, ?_, ?_, ?_⟩
  · rw [Surface.Grammar.read?, hscan]
    show (Surface.Grammar.statements (tokens.length + 1) tokens).bind _ = _
    rw [hread]
    rfl
  · rw [build, partsOf_append, partsOf_cons, partsOf_nil, blockOf_ending (by rw [Pair.part_pair])]
    exact hlists.built 0
  · rw [usesIn_cons, usesIn_nil, uses_plain (by simp), usesIn_append, usesIn_cons, uses_plain (by simp),
      usesIn_nil, hlists.uses]
    simp only [List.append_nil]

end ScopeBlocks.Script.Rules
