import ScopeBlocks.Proofs.Script.Reading
import ScopeBlocks.Proofs.Script.Rules.Fitting
import ScopeBlocks.Proofs.Script.Rules.TokenText
import ScopeBlocks.Proofs.Script.Rules.Uses

/-! Expressions by their rules. What fits the rule of an expression is read as that expression, and what is
built from its pairs is what is checked of it. -/
namespace ScopeBlocks.Script.Rules

open Surface.Grammar (Follows)

def lift {α : Type} (x : Except ParseError α) : Built α := x.mapError .refused

theorem lift_bind {α β : Type} (x : Except ParseError α) (f : α → Except ParseError β) :
    lift (x >>= f) = lift x >>= fun a => lift (f a) := by
  cases x <;> rfl

theorem lift_map {α β : Type} (x : Except ParseError α) (g : α → β) :
    lift (x >>= fun a => pure (g a)) = lift x >>= fun a => pure (g a) := lift_bind x _

variable {source : List Char}

theorem Pair.part_eq (p : Pair) : p.part source =
    ⟨p, partsOf source p.inner, p.exprOf source (partsOf source p.inner),
      statementOf source p (partsOf source p.inner),
      fun loops => blockOf loops (partsOf source p.inner)⟩ := by
  cases p
  rw [Pair.part]

theorem Pair.part_expr (p : Pair) : (p.part source).expr = p.exprOf source (partsOf source p.inner) := by
  rw [part_eq]

@[simp] theorem Pair.part_pair (p : Pair) : (p.part source).pair = p := by rw [part_eq]

@[simp] theorem partsOf_nil : partsOf source [] = [] := by rw [partsOf]

@[simp] theorem partsOf_cons (p : Pair) (ps : List Pair) :
    partsOf source (p :: ps) = p.part source :: partsOf source ps := by rw [partsOf]

@[simp] theorem partsOf_append (ps qs : List Pair) :
    partsOf source (ps ++ qs) = partsOf source ps ++ partsOf source qs := by
  induction ps with
  | nil => rw [partsOf_nil]; rfl
  | cons p ps ih => rw [List.cons_append, partsOf_cons, ih, partsOf_cons]; rfl

@[simp] theorem usesIn_nil (loops : Nat) : usesIn loops [] = [] := by rw [usesIn]

@[simp] theorem usesIn_cons (loops : Nat) (p : Pair) (ps : List Pair) :
    usesIn loops (p :: ps) = p.uses loops ++ usesIn loops ps := by rw [usesIn]

@[simp] theorem usesIn_append (loops : Nat) (ps qs : List Pair) :
    usesIn loops (ps ++ qs) = usesIn loops ps ++ usesIn loops qs := by
  induction ps with
  | nil => simp
  | cons p ps ih => simp [ih]

/-- Most pairs have the uses of the pairs within them. -/
theorem uses_plain {p : Pair} {loops : Nat}
    (hp : p.symbol ∉ [.ident, .call, .fields, .breakStmt, .continueStmt, .whileStmt, .forStmt]) :
    p.uses loops = usesIn loops p.inner := by
  obtain ⟨symbol, place, text, inner⟩ := p
  rw [Pair.uses] <;> rintro rfl <;> simp at hp

/-- What a pair stands for: it is built as an expression is checked, and has its uses. -/
structure Pair.Means (source : List Char) (p : Pair) (e : Surface.Expr) : Prop where
  built : (p.part source).expr = lift (e.check source)
  uses : ∀ loops, p.uses loops = e.uses

/-- What fits a form before tokens that leave it as it is, a rule reads, and its pair stands for it. -/
def ReadAs (source : List Char) (f : Form) (k : Nat) (r : Surface.Grammar.Rule Surface.Expr)
    (n : Nat) : Prop :=
  ∀ ⦃ts rest : List Token⦄ ⦃ps : List Pair⦄, Fits f ts (some (ps, rest)) → Genuine ts → ts.length < n →
    Follows k rest → ∃ p e, ps = [p] ∧ r ts = some (e, rest) ∧ p.Means source e

variable {n m : Nat} {ts rest : List Token} {ps : List Pair}

/-! Fields, signs, chains and arguments. -/

theorem Genuine.tail {t : Token} (h : Genuine (t :: ts)) : Genuine ts :=
  h.of_suffix (List.suffix_cons t ts)

theorem fields_read (h : Repeats (.seq (.literal .dot) (.token .ident)) ts ps rest) (hg : Genuine ts)
    (hn : ts.length ≤ n) (hf : Follows 1 rest) (e : Surface.Expr) :
    ∃ fs : List String, Surface.Grammar.fieldsFrom n e ts = some (fs.foldl .member e, rest) ∧
      ps.map Pair.string = fs := by
  induction h generalizing n e with
  | none ts => exact ⟨[], Surface.Grammar.fieldsFrom_stops hf e, rfl⟩
  | more h again ih =>
    simp only [fits_seq, fits_literal, fits_ident] at h
    obtain ⟨_, _, _, ⟨dot, rfl, rfl⟩, ⟨x, place, rfl, rfl⟩, rfl⟩ := h
    obtain ⟨n, rfl⟩ : ∃ m, n = m + 1 := ⟨n - 1, by simp only [List.length_cons] at hn; omega⟩
    simp only [List.length_cons] at hn
    obtain ⟨r, hr⟩ := hg.tail ⟨.name x, place⟩ List.mem_cons_self
    obtain ⟨fs, hread, hfs⟩ := ih hg.tail.tail (n := n) (by omega) hf (.member e x)
    refine ⟨x :: fs, hread, ?_⟩
    rw [List.nil_append, List.map_append, hfs, List.map_singleton, Pair.string, Pair.ofToken,
      chars_name hr]
    rfl

theorem check_fields (fs : List String) (e : Surface.Expr) : (fs.foldl Surface.Expr.member e).check source =
    (e.check source >>= fun x => pure (fs.foldl .member x)) := by
  induction fs generalizing e with
  | nil => exact (bind_pure _).symm
  | cons f fs ih =>
    rw [List.foldl_cons, ih, Surface.Expr.check]
    cases e.check source <;> rfl

theorem uses_fields (fs : List String) (e : Surface.Expr) :
    (fs.foldl Surface.Expr.member e).uses = e.uses := by
  induction fs generalizing e with
  | nil => rfl
  | cons f fs ih => rw [List.foldl_cons, ih, Surface.Expr.uses]

theorem foldl_parts (ps : List Pair) (x : Expr) :
    (partsOf source ps).foldl (fun e field => .member e field.pair.string) x =
      (ps.map Pair.string).foldl .member x := by
  induction ps generalizing x with
  | nil => rw [partsOf_nil]; rfl
  | cons p ps ih => rw [partsOf_cons, List.foldl_cons, ih, Pair.part_pair]; rfl

theorem Repeats.follows {f : Form} {k : Nat} (h : Repeats f ts ps rest)
    (hhead : ∀ {ts mid ps}, Fits f ts (some (ps, mid)) → Follows k ts) (hf : Follows k rest) :
    Follows k ts := by
  cases h with
  | none => exact hf
  | more h => exact hhead h

open Surface.Grammar (primary postfixExpr unaryExpr chain chainFrom moreArgs follows_cons follows_dot
  follows_comma follows_closeParen)

variable {inner : Surface.Grammar.Rule Surface.Expr}

theorem fields_readAs (h : ReadAs source .primary 0 (primary n inner) n) :
    ReadAs source (.rule .fields) 1 (postfixExpr n inner) n := by
  intro ts rest ps hrule hg hn hf
  obtain ⟨_, hfits, rfl⟩ := fits_rule.1 hrule
  obtain ⟨_, mid, fields, hprimary, hmany, rfl⟩ := fits_seq.1 hfits
  obtain ⟨hrepeats, -⟩ := fits_many.1 hmany
  have hmid : Follows 0 mid := by
    refine hrepeats.follows (fun hdot => ?_) (hf.tighten (by decide))
    simp only [fits_seq, fits_literal] at hdot
    obtain ⟨_, _, _, ⟨place, rfl, rfl⟩, -⟩ := hdot
    exact follows_dot
  have hsuffix := hprimary.suffix _ _ rfl
  obtain ⟨p, e, rfl, hread, hbuilt, huses⟩ := h hprimary hg hn hmid
  obtain ⟨fs, hreads, hfs⟩ := fields_read hrepeats (hg.of_suffix hsuffix)
    (Nat.le_trans hsuffix.length_le (Nat.le_of_lt hn)) hf e
  refine ⟨_, fs.foldl .member e, rfl, ?_, ?_, fun loops => ?_⟩
  · show (primary n inner ts).bind _ = _
    rw [hread]
    exact hreads
  · rw [Pair.part_expr]
    simp only [Pair.exprOf, List.singleton_append, partsOf_cons, Pair.fieldsOf, foldl_parts, hfs]
    rw [check_fields, lift_map, ← hbuilt]
  · rw [uses_fields, ← huses loops, Pair.uses, List.singleton_append, headUses]

/-! Signs. -/

theorem ofToken_uses {s : Symbol} {t : Token} (ht : s.accepts t.lexeme = true) (hs : s ≠ .ident)
    (loops : Nat) : (Pair.ofToken s t).uses loops = [] := by
  obtain ⟨l, place⟩ := t
  cases s <;> cases l <;> first | cases ht; done | exact absurd rfl hs | simp [Pair.ofToken, Pair.uses]

theorem signs_text {t : Token} (hg : Genuine (t :: ts)) (h : Symbol.unaryOp.accepts t.lexeme = true) :
    ∃ op : UnaryOp, t.lexeme = op.lexeme ∧
      (if (Pair.ofToken .unaryOp t).string = "!" then .not else .neg) = op := by
  obtain ⟨r, hr⟩ := hg t List.mem_cons_self
  obtain ⟨l, place⟩ := t
  have hmark : ∀ {mark : String}, l.mark? = some mark →
      (Pair.ofToken .unaryOp ⟨l, place⟩).string = mark := fun hl => chars_mark hr hl
  cases l with
  | bang => exact ⟨.not, rfl, by rw [hmark rfl]; rfl⟩
  | operator op =>
    cases op with
    | sub => exact ⟨.neg, rfl, by rw [hmark rfl]; rfl⟩
    | _ => cases h
  | _ => cases h

theorem signs_read {mid : List Token} (h : Repeats (.token .unaryOp) ts ps mid) (hg : Genuine ts)
    (hn : ts.length ≤ n) (operand : Surface.Grammar.Rule Surface.Expr) {e : Surface.Expr}
    (hread : ∀ m, unaryExpr operand m mid = some (e, rest)) (p : Pair) {q : Pair}
    (hq : q.Means source e) (hnot : q.symbol ≠ .unaryOp) (acc : List UnaryOp) :
    ∃ ops : List UnaryOp, unaryExpr operand n ts = some (ops.foldr .unary e, rest) ∧
      p.signsOf source acc none (partsOf source (ps ++ [q])) =
        (lift (e.check source) >>= fun x => pure (acc.foldl (fun e op => .unary op e) (ops.foldr .unary x))) ∧
      ∀ loops, usesIn loops ps = [] := by
  induction h generalizing n acc with
  | none ts =>
    refine ⟨[], hread n, ?_, fun _ => usesIn_nil _⟩
    simp only [List.nil_append, partsOf_cons, partsOf_nil, Pair.signsOf, Pair.part_pair, hnot, if_false,
      hq.built]
    rfl
  | more h again ih =>
    obtain ⟨t, ht, rfl, rfl⟩ := fits_token.1 h
    obtain ⟨op, hop, htext⟩ := signs_text hg ht
    obtain ⟨n, rfl⟩ : ∃ m, n = m + 1 := ⟨n - 1, by simp only [List.length_cons] at hn; omega⟩
    simp only [List.length_cons] at hn
    obtain ⟨ops, hreads, hbuilt, huses⟩ := ih hg.tail (n := n) (by omega) hread (op :: acc)
    refine ⟨op :: ops, ?_, ?_, fun loops => ?_⟩
    · obtain ⟨l, place⟩ := t
      obtain rfl : l = op.lexeme := hop
      cases op <;> simp [UnaryOp.lexeme, unaryExpr, hreads]
    · have hsymbol : (Pair.ofToken .unaryOp t).symbol = .unaryOp := rfl
      simp only [List.cons_append, List.nil_append, partsOf_cons, Pair.signsOf, Pair.part_pair, hsymbol,
        if_true, htext]
      exact hbuilt
    · rw [usesIn_append, usesIn_cons, usesIn_nil, huses, ofToken_uses ht (by rintro ⟨⟩)]
      rfl

theorem check_signs (ops : List UnaryOp) (e : Surface.Expr) : (ops.foldr .unary e).check source =
    (e.check source >>= fun x => pure (ops.foldr .unary x)) := by
  induction ops with
  | nil => exact (bind_pure _).symm
  | cons op ops ih =>
    rw [List.foldr_cons, Surface.Expr.check, ih]
    cases e.check source <;> rfl

theorem uses_signs (ops : List UnaryOp) (e : Surface.Expr) : (ops.foldr .unary e).uses = e.uses := by
  induction ops with
  | nil => rfl
  | cons op ops ih => rw [List.foldr_cons, Surface.Expr.uses, ih]

theorem unaryExpr_of_not_sign (h : ∀ t ∈ ts.head?, Symbol.unaryOp.accepts t.lexeme = false)
    (operand : Surface.Grammar.Rule Surface.Expr) (m : Nat) : unaryExpr operand m ts = operand ts := by
  cases m with
  | zero => rfl
  | succ m =>
    cases ts with
    | nil => rfl
    | cons t ts =>
      obtain ⟨l, place⟩ := t
      have hl := h _ rfl
      cases l with
      | bang => cases hl
      | operator op => cases op <;> first | rfl | cases hl
      | _ => rfl

theorem unary_readAs (h : ReadAs source (.rule .fields) 1 (postfixExpr n inner) n) :
    ReadAs source (.rule .unary) 2 (unaryExpr (postfixExpr n inner) n) n := by
  intro ts rest ps hrule hg hn hf
  obtain ⟨_, hfits, rfl⟩ := fits_rule.1 hrule
  obtain ⟨signs, mid, _, hmany, hfields, rfl⟩ := fits_seq.1 hfits
  obtain ⟨hrepeats, hstops⟩ := fits_many.1 hmany
  have hsuffix := hrepeats.suffix
  obtain ⟨_, -, hsymbol⟩ := fits_rule.1 hfields
  obtain ⟨p, e, rfl, hread, hmeans⟩ := h hfields (hg.of_suffix hsuffix)
    (Nat.lt_of_le_of_lt hsuffix.length_le hn) (hf.tighten (by decide))
  have hnot : p.symbol ≠ .unaryOp := by
    rw [(List.cons.inj hsymbol).1]
    rintro ⟨⟩
  have hoperand (m : Nat) : unaryExpr (postfixExpr n inner) m mid = some (e, rest) := by
    cases hstops with
    | noToken hstops => rw [unaryExpr_of_not_sign hstops, hread]
  obtain ⟨ops, hreads, hbuilt, huses⟩ := signs_read hrepeats hg (Nat.le_of_lt hn) _ hoperand
    ⟨.unary, placeOf ts, textOf ts rest, signs ++ [p]⟩ hmeans hnot []
  refine ⟨_, ops.foldr .unary e, rfl, hreads, ?_, fun loops => ?_⟩
  · rw [Pair.part_expr, check_signs, lift_map]
    exact hbuilt
  · rw [uses_signs, ← hmeans.uses loops, uses_plain (by simp), usesIn_append, huses, usesIn_cons,
      usesIn_nil, List.append_nil, List.nil_append]

/-! Chains of operators. -/

def Level.rank : Level → Nat
  | or => 8
  | and => 7
  | equality => 6
  | comparison => 5
  | sum => 4
  | product => 3

theorem Level.has_iff (l : Level) (op : BinaryOp) : l.has op = true ↔ op.rank = l.rank := by
  cases l <;> cases op <;> decide

theorem ofText?_text (op : BinaryOp) : BinaryOp.ofText? op.text = some op := by
  cases op <;> rfl

theorem operator_of_accepts {l : Level} {t : Token} (h : Symbol.accepts (.operator l) t.lexeme = true) :
    ∃ op, t = ⟨.operator op, t.place⟩ ∧ op.rank = l.rank := by
  obtain ⟨lexeme, place⟩ := t
  cases lexeme with
  | operator op => exact ⟨op, rfl, (l.has_iff op).1 h⟩
  | _ => cases h

theorem follows_operators {l : Level} {f : Form} {k : Nat} (hk : l.rank = k + 1)
    (h : Repeats (.seq (.token (.operator l)) f) ts ps rest) (hrest : Follows (k + 1) rest) :
    Follows k ts := by
  refine h.follows (fun hop => ?_) (hrest.tighten (Nat.le_succ k))
  simp only [fits_seq, fits_token] at hop
  obtain ⟨_, _, _, ⟨t, ht, rfl, -⟩, -⟩ := hop
  obtain ⟨op, hop, hrank⟩ := operator_of_accepts ht
  rw [hop]
  exact Surface.Grammar.follows_operator (by omega)

theorem chain_read {l : Level} {f : Form} {r : Surface.Grammar.Rule Surface.Expr} {k : Nat}
    (hk : l.rank = k + 1) (hf : ReadAs source f k r n)
    (h : Repeats (.seq (.token (.operator l)) f) ts ps rest) (hg : Genuine ts) (hn : ts.length ≤ n)
    (hm : ts.length ≤ m) (hrest : Follows (k + 1) rest) (p : Pair) (e : Surface.Expr) :
    ∃ e', chainFrom (fun op => op.rank == k + 1) r m e ts = some (e', rest) ∧
      (lift (e.check source) >>= fun x => p.operands source x (partsOf source ps)) =
        lift (e'.check source) ∧
      ∀ loops, e.uses ++ usesIn loops ps = e'.uses := by
  -- operators of one rank group to the left: what has been read so far grows with each operand
  induction h generalizing m e with
  | none ts =>
    refine ⟨e, Surface.Grammar.chainFrom_stops (fun op hop => ?_) hrest e, ?_, fun _ => ?_⟩
    · exact Nat.le_of_eq (beq_iff_eq.1 hop)
    · rw [partsOf_nil]
      exact bind_pure _
    · rw [usesIn_nil, List.append_nil]
  | @more ts mid rest qs ps h again ih =>
    have hmid := follows_operators hk again hrest
    obtain ⟨_, _, _, hfirst, hoperand, rfl⟩ := fits_seq.1 h
    obtain ⟨t, ht, rfl, rfl⟩ := fits_token.1 hfirst
    obtain ⟨op, hop, hrank⟩ := operator_of_accepts ht
    obtain ⟨place, rfl⟩ : ∃ place, t = ⟨.operator op, place⟩ := ⟨_, hop⟩
    obtain ⟨c, hc⟩ := hg _ List.mem_cons_self
    have htext : (Pair.ofToken (.operator l) ⟨.operator op, place⟩).string = op.text := chars_mark hc rfl
    simp only [List.length_cons] at hn hm
    obtain ⟨m, rfl⟩ : ∃ i, m = i + 1 := ⟨m - 1, by omega⟩
    have hsuffix := hoperand.suffix _ _ rfl
    have hlength := hsuffix.length_le
    obtain ⟨q, e', rfl, hread, hmeans⟩ := hf hoperand hg.tail (by omega) hmid
    obtain ⟨e'', hreads, hbuilt, huses⟩ := ih (m := m) (hg.tail.of_suffix hsuffix) (by omega) (by omega)
      hrest (.binary op e e')
    refine ⟨e'', ?_, ?_, fun loops => ?_⟩
    · have hlevel : (op.rank == k + 1) = true := beq_iff_eq.2 (hrank.trans hk)
      simp only [chainFrom, hlevel, if_true, hread, Option.bind_eq_bind, Option.bind_some]
      exact hreads
    · rw [← hbuilt, Surface.Expr.check]
      simp only [List.cons_append, List.nil_append, partsOf_cons, Pair.operands, Pair.part_pair, htext,
        ofText?_text, hmeans.built]
      cases e.check source with
      | error => rfl
      | ok x => cases e'.check source <;> rfl
    · rw [← huses loops, Surface.Expr.uses]
      simp only [usesIn_append, usesIn_cons, usesIn_nil, ofToken_uses ht (by rintro ⟨⟩), hmeans.uses,
        List.nil_append, List.append_nil, List.append_assoc]

theorem chain_readAs {l : Level} {k : Nat} (hk : l.rank = k + 1) {r : Surface.Grammar.Rule Surface.Expr}
    (h : ReadAs source (.operand l) k r n) :
    ReadAs source (.rule (.chain l)) (k + 1) (chain n (fun op => op.rank == k + 1) r) n := by
  intro ts rest ps hrule hg hn hf
  obtain ⟨_, hfits, rfl⟩ := fits_rule.1 hrule
  obtain ⟨_, mid, others, hfirst, hmany, rfl⟩ := fits_seq.1 hfits
  obtain ⟨hrepeats, -⟩ := fits_many.1 hmany
  have hmid := follows_operators hk hrepeats hf
  have hsuffix := hfirst.suffix _ _ rfl
  have hlength := hsuffix.length_le
  obtain ⟨p, e, rfl, hread, hmeans⟩ := h hfirst hg hn hmid
  obtain ⟨e', hreads, hbuilt, huses⟩ := chain_read hk h hrepeats (hg.of_suffix hsuffix)
    (m := n) (by omega) (by omega) hf ⟨.chain l, placeOf ts, textOf ts rest, [p] ++ others⟩ e
  refine ⟨_, e', rfl, ?_, ?_, fun loops => ?_⟩
  · show (r ts).bind _ = _
    rw [hread]
    exact hreads
  · rw [Pair.part_expr, ← hbuilt, ← hmeans.built]
    simp only [Pair.exprOf, List.singleton_append, partsOf_cons, Pair.chainOf]
  · rw [uses_plain (by simp), ← huses loops, usesIn_append, usesIn_cons, usesIn_nil, hmeans.uses,
      List.append_nil]

/-! Arguments. -/

theorem follows_args {place : List Char}
    (h : Repeats (.seq (.literal .comma) .expr) ts ps (⟨.closeParen, place⟩ :: rest)) : Follows 8 ts := by
  refine h.follows (fun hcomma => ?_) (follows_closeParen place rest)
  simp only [fits_seq, fits_literal] at hcomma
  obtain ⟨_, _, _, ⟨_, rfl, rfl⟩, -⟩ := hcomma
  exact follows_comma _ _

theorem args_read {place : List Char} (hf : ReadAs source .expr 8 (Surface.Grammar.expr n) n)
    (h : Repeats (.seq (.literal .comma) .expr) ts ps (⟨.closeParen, place⟩ :: rest)) (hg : Genuine ts)
    (hn : ts.length ≤ n) (hm : ts.length ≤ m) :
    ∃ es, (∀ us e, Surface.Grammar.expr n us = some (e, ts) →
        moreArgs (Surface.Grammar.expr n) (m + 1) us = some (e :: es, rest)) ∧
      Pair.exprs (partsOf source ps) = lift (Surface.Expr.checkArgs source es) ∧
      ∀ loops, usesIn loops ps = Surface.Expr.usesAll es := by
  generalize hend : (⟨.closeParen, place⟩ :: rest : List Token) = last at h
  induction h generalizing m with
  | none ts =>
    subst hend
    refine ⟨[], fun us e hread => ?_, ?_, fun _ => ?_⟩
    · simp only [moreArgs, hread, Option.bind_eq_bind, Option.bind_some]
      rfl
    · rw [partsOf_nil]
      rfl
    · rw [usesIn_nil]
      rfl
  | @more ts mid last qs ps h again ih =>
    subst hend
    have hmid := follows_args again
    obtain ⟨_, us, _, hcomma, hexpr, rfl⟩ := fits_seq.1 h
    obtain ⟨comma, rfl, rfl⟩ := fits_literal.1 hcomma
    simp only [List.length_cons] at hn hm
    obtain ⟨m, rfl⟩ : ∃ i, m = i + 1 := ⟨m - 1, by omega⟩
    have hsuffix := hexpr.suffix _ _ rfl
    have hlength := hsuffix.length_le
    obtain ⟨p, e, rfl, hread, hmeans⟩ := hf hexpr hg.tail (by omega) hmid
    obtain ⟨es, hreads, hbuilt, huses⟩ := ih (m := m) (hg.tail.of_suffix hsuffix) (by omega) (by omega) rfl
    refine ⟨e :: es, fun vs e' hread' => ?_, ?_, fun loops => ?_⟩
    · rw [moreArgs, hread']
      simp only [Option.bind_eq_bind, Option.bind_some, hreads us e hread]
      rfl
    · simp only [List.nil_append, List.singleton_append, partsOf_cons, Pair.exprs, hmeans.built, hbuilt,
        Surface.Expr.checkArgs, lift_bind]
      rfl
    · simp only [List.nil_append, List.singleton_append, usesIn_cons, hmeans.uses, huses,
        Surface.Expr.usesAll]

theorem starts_of_read {e : Surface.Expr} (h : Surface.Grammar.expr n ts = some (e, rest)) :
    ∃ t us, ts = t :: us ∧ t.lexeme.startsExpr = true := by
  cases n with
  | zero => cases h
  | succ n =>
    have hnone : Surface.Grammar.expr (n + 1) [] = none := rfl
    cases ts with
    | nil =>
      rw [hnone] at h
      cases h
    | cons t us =>
      refine ⟨t, us, rfl, ?_⟩
      cases hstarts : t.lexeme.startsExpr with
      | true => rfl
      | false =>
        obtain ⟨l, place⟩ := t
        have hunread : Surface.Grammar.expr (n + 1) (⟨l, place⟩ :: us) = none := by
          cases l with
          | keyword w => cases w <;> first | rfl | cases hstarts
          | operator op => cases op <;> first | rfl | cases hstarts
          | number | text | name | openParen | bang => cases hstarts
          | _ => rfl
        rw [hunread] at h
        cases h

theorem call_readAs (hf : ReadAs source .expr 8 (Surface.Grammar.expr n) n) :
    ReadAs source (.rule .call) 0 (primary (n + 1) (Surface.Grammar.expr n)) (n + 1) := by
  intro ts rest ps hrule hg hn _
  obtain ⟨_, hfits, rfl⟩ := fits_rule.1 hrule
  simp only [Symbol.form, Form.inOrder, fits_seq, fits_ident, fits_literal] at hfits
  obtain ⟨_, _, _, ⟨x, place, rfl, rfl⟩, ⟨_, us, _, ⟨_, rfl, rfl⟩, ⟨args, _, _, hargs, ⟨close, rfl, rfl⟩,
    rfl⟩, rfl⟩, rfl⟩ := hfits
  obtain ⟨c, hc⟩ := hg _ List.mem_cons_self
  have hname : (Pair.ofToken .ident ⟨.name x, place⟩).string = x := chars_name hc
  have hbuilt : ∃ es, Surface.Grammar.args (n + 1) (Surface.Grammar.expr n) us = some (es, rest) ∧
      Pair.exprs (partsOf source args) = lift (Surface.Expr.checkArgs source es) ∧
      ∀ loops, usesIn loops args = Surface.Expr.usesAll es := by
    simp only [List.length_cons] at hn
    rcases fits_maybe.1 hargs with hargs | ⟨-, rfl, rfl⟩
    · obtain ⟨_, mid, others, hexpr, hmany, rfl⟩ := fits_seq.1 hargs
      obtain ⟨hrepeats, -⟩ := fits_many.1 hmany
      have hsuffix := hexpr.suffix _ _ rfl
      have hlength := hsuffix.length_le
      obtain ⟨p, e, rfl, hread, hmeans⟩ := hf hexpr hg.tail.tail (by omega) (follows_args hrepeats)
      obtain ⟨es, hmore, hbuilt, huses⟩ := args_read hf hrepeats (hg.tail.tail.of_suffix hsuffix)
        (m := n) (by omega) (by omega)
      refine ⟨e :: es, ?_, ?_, fun loops => ?_⟩
      · obtain ⟨t, us, rfl, hstarts⟩ := starts_of_read hread
        rw [Surface.Grammar.args_eq_moreArgs hstarts]
        exact hmore _ e hread
      · simp only [List.singleton_append, partsOf_cons, Pair.exprs, hmeans.built, hbuilt,
          Surface.Expr.checkArgs, lift_bind]
        rfl
      · simp only [List.singleton_append, usesIn_cons, hmeans.uses, huses, Surface.Expr.usesAll]
    · refine ⟨[], rfl, ?_, fun _ => ?_⟩
      · rw [partsOf_nil]
        rfl
      · rw [usesIn_nil]
        rfl
  obtain ⟨es, hread, hbuilt, huses⟩ := hbuilt
  refine ⟨_, .call ⟨x, place⟩ es, rfl, ?_, ?_, fun loops => ?_⟩
  · simp only [primary, hread, Option.bind_eq_bind, Option.bind_some]
    rfl
  · rw [Pair.part_expr]
    simp only [Pair.exprOf, List.nil_append, List.append_nil, List.singleton_append, partsOf_cons,
      Pair.callOf, Pair.part_pair, hname, hbuilt, Surface.Expr.check, lift_bind]
    rfl
  · rw [Pair.uses]
    simp only [List.nil_append, List.append_nil, List.singleton_append, calleeUses, argUses, hname, huses]
    rfl

theorem Pair.exprOf_number {p : Pair} {x : Number} (hp : p.symbol = .number)
    (hx : Number.readChars? p.text = some x) (parts : List Part) :
    p.exprOf source parts = .ok (.literal (.number x)) := by
  simp only [exprOf, hp, hx]

theorem constant_means {word : Keyword} {v : Value} {place : List Char}
    (h : ∀ p : Pair, p.symbol = .keyword word → p.exprOf source (partsOf source p.inner) = .ok (.literal v)) :
    (Pair.ofToken (.keyword word) ⟨.keyword word, place⟩).Means source (.literal v) where
  built := by
    rw [Pair.part_expr, h _ rfl]
    rfl
  uses loops :=
    ofToken_uses (t := ⟨.keyword word, place⟩) (by exact beq_self_eq_true word) (by rintro ⟨⟩) loops

theorem ident_uses {x : String} {place r : List Char} (h : Token.lexeme? place = some (.name x, r))
    (loops : Nat) : (Pair.ofToken .ident ⟨.name x, place⟩).uses loops = [.name x place] := by
  simp only [Pair.ofToken, Pair.uses, chars_name h]

theorem bindingName_ofToken {x : String} {place r : List Char}
    (h : Token.lexeme? place = some (.name x, r)) :
    (Pair.ofToken .ident ⟨.name x, place⟩).bindingName source =
      lift ((⟨x, place⟩ : Surface.Located).variable source) := by
  simp only [Pair.bindingName, Pair.string, Pair.ofToken, chars_name h]
  rfl

theorem name_means {x : String} {place r : List Char} (h : Token.lexeme? place = some (.name x, r)) :
    (Pair.ofToken .ident ⟨.name x, place⟩).Means source (.name ⟨x, place⟩) where
  built := by
    rw [Pair.part_expr, Surface.Expr.check, lift_map, ← bindingName_ofToken h]
    rfl
  uses loops := ident_uses h loops

theorem primary_name {x : String} {place : List Char} (h : Follows 0 rest) :
    primary n inner (⟨.name x, place⟩ :: rest) = some (.name ⟨x, place⟩, rest) := by
  cases rest with
  | nil => rfl
  | cons t rest =>
    obtain ⟨l, p⟩ := t
    have hopen := (h ⟨l, p⟩ rfl).1
    cases l <;> first | rfl | exact absurd rfl hopen

theorem primary_readAs (hf : ReadAs source .expr 8 (Surface.Grammar.expr n) n) :
    ReadAs source .primary 0 (primary (n + 1) (Surface.Grammar.expr n)) (n + 1) := by
  intro ts rest ps h hg hn hrest
  simp only [Form.primary, Form.firstOf, fits_either, fits_word, fits_ident] at h
  rcases h with h | ⟨-, h | ⟨-, ⟨place, rfl, rfl⟩ | ⟨-, ⟨place, rfl, rfl⟩ | ⟨-, ⟨place, rfl, rfl⟩ | ⟨-, h |
    ⟨-, ⟨x, place, rfl, rfl⟩ | ⟨-, h⟩⟩⟩⟩⟩⟩⟩
  · obtain ⟨⟨l, place⟩, hl, rfl, rfl⟩ := fits_token.1 h
    obtain ⟨x, rfl⟩ : ∃ x, l = .number x := by cases l <;> first | exact ⟨_, rfl⟩ | cases hl
    obtain ⟨c, hc⟩ := hg _ List.mem_cons_self
    refine ⟨_, .literal (.number x), rfl, rfl, ?_, ofToken_uses hl (by rintro ⟨⟩)⟩
    rw [Pair.part_expr, Pair.exprOf_number rfl (chars_number hc)]
    rfl
  · obtain ⟨⟨l, place⟩, hl, rfl, rfl⟩ := fits_token.1 h
    obtain ⟨x, rfl⟩ : ∃ x, l = .text x := by cases l <;> first | exact ⟨_, rfl⟩ | cases hl
    obtain ⟨c, hc⟩ := hg _ List.mem_cons_self
    refine ⟨_, .literal (.string x), rfl, rfl, ?_, ofToken_uses hl (by rintro ⟨⟩)⟩
    have htext : String.ofList (Text.unescape (((⟨.text x, place⟩ : Token).chars.drop 1).dropLast)) = x :=
      chars_text hc
    rw [Pair.part_expr]
    simp only [Pair.exprOf, Pair.ofToken, partsOf_cons, List.head?_cons, Option.map_some, Option.getD_some,
      Pair.part_pair, htext]
    rfl
  · exact ⟨_, .literal (.bool true), rfl, rfl, constant_means fun p hp => by simp only [Pair.exprOf, hp]⟩
  · exact ⟨_, .literal (.bool false), rfl, rfl, constant_means fun p hp => by simp only [Pair.exprOf, hp]⟩
  · exact ⟨_, .literal .null, rfl, rfl, constant_means fun p hp => by simp only [Pair.exprOf, hp]⟩
  · exact call_readAs hf h hg hn hrest
  · obtain ⟨c, hc⟩ := hg _ List.mem_cons_self
    exact ⟨_, _, rfl, primary_name hrest, name_means hc⟩
  · simp only [Form.inOrder, fits_seq, fits_literal] at h
    obtain ⟨_, _, _, ⟨place, rfl, rfl⟩, ⟨_, us, _, hexpr, ⟨close, rfl, rfl⟩, rfl⟩, rfl⟩ := h
    simp only [List.length_cons] at hn
    obtain ⟨p, e, rfl, hread, hmeans⟩ := hf hexpr hg.tail (by omega) (follows_closeParen close rest)
    refine ⟨p, e, rfl, ?_, hmeans⟩
    simp only [primary, hread, Option.bind_eq_bind, Option.bind_some]
    rfl

/-! Expressions. -/

/-- An expression is read as it is put together by the rules. -/
theorem expr_readAs (source : List Char) (n : Nat) :
    ReadAs source .expr 8 (Surface.Grammar.expr n) n := by
  induction n with
  | zero =>
    intro ts rest ps _ _ hn
    exact absurd hn (Nat.not_lt_zero _)
  | succ n ih =>
    have hunary := unary_readAs (fields_readAs (primary_readAs ih))
    have hproduct := chain_readAs (l := .product) rfl hunary
    have hsum := chain_readAs (l := .sum) rfl hproduct
    have hcomparison := chain_readAs (l := .comparison) rfl hsum
    have hequality := chain_readAs (l := .equality) rfl hcomparison
    have hand := chain_readAs (l := .and) rfl hequality
    have hor := chain_readAs (l := .or) rfl hand
    have hlevels : Surface.Grammar.expr (n + 1) =
        Surface.Grammar.reading (n + 1) (Surface.Grammar.expr n) 8 :=
      Surface.Grammar.levels_eq_reading _ _
    rw [hlevels]
    exact hor

end ScopeBlocks.Script.Rules
