import ScopeBlocks.Proofs.Script.Rules.Expressions

/-! What is read as an expression fits its rules. The next token or two tell which rule is to be read, and the
alternatives before it do not fit; what is repeated ends before a token that cannot go on with it. -/
namespace ScopeBlocks.Script.Rules

open Surface.Grammar (primary args moreArgs fieldsFrom postfixExpr unaryExpr chain chainFrom)

variable {n m : Nat} {ts rest : List Token} {s : Symbol} {t : Token}

/-- That what is read fits a form. -/
def Fitted {α : Type} (r : Surface.Grammar.Rule α) (f : Form) (n : Nat) : Prop :=
  ∀ ⦃ts rest : List Token⦄ ⦃x : α⦄, r ts = some (x, rest) → ts.length < n →
    ∃ ps, Fits f ts (some (ps, rest))

theorem noToken_cons (h : s.accepts t.lexeme = false) : Fits (.token s) (t :: rest) none :=
  .noToken fun _ ht => by
    cases ht
    exact h

theorem noLiteral_cons {l : Lexeme} (h : t.lexeme ≠ l) : Fits (.literal l) (t :: rest) none :=
  .noLiteral fun _ ht => by
    cases ht
    exact h

/-- Tokens that no expression begins with. -/
def Barren (ts : List Token) : Prop := ∀ t ∈ ts.head?, t.lexeme.startsExpr = false

theorem Barren.noToken (h : Barren ts) (hs : s ∈ [.number, .string, .keyword .trueWord,
    .keyword .falseWord, .keyword .nullWord, .ident, .unaryOp]) : Fits (.token s) ts none := by
  refine .noToken fun t ht => ?_
  have ht := h t ht
  obtain ⟨l, place⟩ := t
  simp only [List.mem_cons, List.not_mem_nil, or_false] at hs
  rcases hs with rfl | rfl | rfl | rfl | rfl | rfl | rfl
  all_goals
    cases l with
    | keyword w => cases w <;> first | rfl | cases ht
    | operator op => cases op <;> first | rfl | cases ht
    | _ => first | rfl | cases ht

theorem Barren.noExpr (h : Barren ts) : Fits .expr ts none := by
  have hopen : Fits (.literal .openParen) ts none := .noLiteral fun t ht heq => by
    have ht := h t ht
    rw [heq] at ht
    cases ht
  have hprimary : Fits .primary ts none :=
    .right (h.noToken (by simp)) <| .right (h.noToken (by simp)) <| .right (h.noToken (by simp)) <|
      .right (h.noToken (by simp)) <| .right (h.noToken (by simp)) <|
      .right (.noRule (.noFirst (h.noToken (by simp)))) <| .right (h.noToken (by simp)) <| .noFirst hopen
  have hunary : Fits (.rule .unary) ts none :=
    .noRule (.noSecond (.stop (h.noToken (by simp))) (.noRule (.noFirst hprimary)))
  exact .noRule (.noFirst (.noRule (.noFirst (.noRule (.noFirst (.noRule (.noFirst (.noRule (.noFirst
    (.noRule (.noFirst hunary)))))))))))

/-! Expressions. -/

theorem name_eq_some {x : Surface.Located} (h : Surface.Grammar.name ts = some (x, rest)) :
    ts = ⟨.name x.text, x.place⟩ :: rest := by
  unfold Surface.Grammar.name at h
  split at h
  · cases h
    rfl
  · cases h

theorem expect_eq_some {l : Lexeme} (h : Surface.Grammar.expect l ts = some rest) :
    ∃ place, ts = ⟨l, place⟩ :: rest := by
  cases ts with
  | nil => cases h
  | cons t us =>
    obtain ⟨l', place⟩ := t
    obtain ⟨rfl, rfl⟩ : l' = l ∧ us = rest := by simpa [Surface.Grammar.expect] using h
    exact ⟨place, rfl⟩

variable {inner operand : Surface.Grammar.Rule Surface.Expr} {f : Form}

theorem fields_fitted {e e' : Surface.Expr} (h : fieldsFrom m e ts = some (e', rest)) (hm : ts.length ≤ m) :
    ∃ ps, Fits (.many (.seq (.literal .dot) (.token .ident))) ts (some (ps, rest)) := by
  have stops {ts : List Token} {e : Surface.Expr} (hdot : ∀ t ∈ ts.head?, t.lexeme ≠ .dot)
      (h : some (e, ts) = some (e', rest)) :
      ∃ ps, Fits (.many (.seq (.literal .dot) (.token .ident))) ts (some (ps, rest)) := by
    cases h
    exact ⟨[], .stop (.noFirst (.noLiteral hdot))⟩
  induction m generalizing ts e with
  | zero =>
    obtain rfl := List.length_eq_zero_iff.1 (Nat.le_zero.1 hm)
    exact stops (by simp) h
  | succ m ih =>
    cases ts with
    | nil => exact stops (by simp) h
    | cons t us =>
      obtain ⟨l, place⟩ := t
      cases l with
      | dot =>
        obtain ⟨⟨x, vs⟩, hname, h⟩ := Option.bind_eq_some_iff.1 h
        obtain rfl := name_eq_some hname
        simp only [List.length_cons] at hm
        obtain ⟨ps, hps⟩ := ih h (by omega)
        exact ⟨_, .more (.seq (.literal (t := ⟨.dot, place⟩)) (.token rfl)) hps⟩
      | _ => exact stops (by rintro _ ⟨⟩; rintro ⟨⟩) h

theorem postfix_fitted (hf : Fitted (primary n inner) .primary n) :
    Fitted (postfixExpr n inner) (.rule .fields) n := by
  intro ts rest e h hn
  obtain ⟨⟨e', mid⟩, hprimary, h⟩ := Option.bind_eq_some_iff.1 h
  obtain ⟨ps, hps⟩ := hf hprimary hn
  have hlength := (hps.suffix _ _ rfl).length_le
  obtain ⟨qs, hqs⟩ := fields_fitted h (by omega)
  exact ⟨_, .rule (.seq hps hqs)⟩

theorem signs_fitted {e : Surface.Expr} (hf : Fitted operand (.rule .fields) n)
    (h : unaryExpr operand m ts = some (e, rest)) (hm : ts.length ≤ m) (hn : ts.length < n) :
    ∃ ps qs mid, Fits (.many (.token .unaryOp)) ts (some (ps, mid)) ∧
      Fits (.rule .fields) mid (some (qs, rest)) := by
  have stops {ts : List Token} {e : Surface.Expr} (h : operand ts = some (e, rest)) (hn : ts.length < n)
      (hsign : ∀ t ∈ ts.head?, Symbol.unaryOp.accepts t.lexeme = false) :
      ∃ ps qs mid, Fits (.many (.token .unaryOp)) ts (some (ps, mid)) ∧
        Fits (.rule .fields) mid (some (qs, rest)) := by
    obtain ⟨qs, hqs⟩ := hf h hn
    exact ⟨[], qs, ts, .stop (.noToken hsign), hqs⟩
  induction m generalizing ts e with
  | zero =>
    obtain rfl := List.length_eq_zero_iff.1 (Nat.le_zero.1 hm)
    exact stops h hn (by simp)
  | succ m ih =>
    cases ts with
    | nil => exact stops h hn (by simp)
    | cons t us =>
      have signed (ht : Symbol.unaryOp.accepts t.lexeme = true)
          (hread : ∃ e, unaryExpr operand m us = some (e, rest)) :
          ∃ ps qs mid, Fits (.many (.token .unaryOp)) (t :: us) (some (ps, mid)) ∧
            Fits (.rule .fields) mid (some (qs, rest)) := by
        obtain ⟨e', hread⟩ := hread
        simp only [List.length_cons] at hm hn
        obtain ⟨ps, qs, mid, hps, hqs⟩ := ih hread (by omega) (by omega)
        exact ⟨_, qs, mid, .more (.token ht) hps, hqs⟩
      obtain ⟨l, place⟩ := t
      cases l with
      | bang =>
        obtain ⟨⟨e', mid⟩, hread, h⟩ := Option.bind_eq_some_iff.1 h
        cases h
        exact signed rfl ⟨e', hread⟩
      | operator op =>
        cases op with
        | sub =>
          obtain ⟨⟨e', mid⟩, hread, h⟩ := Option.bind_eq_some_iff.1 h
          cases h
          exact signed rfl ⟨e', hread⟩
        | _ => exact stops h hn (by rintro _ ⟨⟩; rfl)
      | _ => exact stops h hn (by rintro _ ⟨⟩; rfl)

theorem unary_fitted (hf : Fitted operand (.rule .fields) n) :
    Fitted (unaryExpr operand n) (.rule .unary) n := by
  intro ts rest e h hn
  obtain ⟨ps, qs, mid, hps, hqs⟩ := signs_fitted hf h (Nat.le_of_lt hn) hn
  exact ⟨_, .rule (.seq hps hqs)⟩

theorem operators_fitted {l : Level} {k : Nat} (hk : l.rank = k + 1) (hf : Fitted operand f n)
    {e e' : Surface.Expr} (h : chainFrom (fun op => op.rank == k + 1) operand m e ts = some (e', rest))
    (hm : ts.length ≤ m) (hn : ts.length < n) :
    ∃ ps, Fits (.many (.seq (.token (.operator l)) f)) ts (some (ps, rest)) := by
  have stops {ts : List Token} {e : Surface.Expr} (h : some (e, ts) = some (e', rest))
      (hop : ∀ t ∈ ts.head?, (Symbol.operator l).accepts t.lexeme = false) :
      ∃ ps, Fits (.many (.seq (.token (.operator l)) f)) ts (some (ps, rest)) := by
    cases h
    exact ⟨[], .stop (.noFirst (.noToken hop))⟩
  induction m generalizing ts e with
  | zero =>
    obtain rfl := List.length_eq_zero_iff.1 (Nat.le_zero.1 hm)
    exact stops h (by simp)
  | succ m ih =>
    cases ts with
    | nil => exact stops h (by simp)
    | cons t us =>
      obtain ⟨lexeme, place⟩ := t
      cases lexeme with
      | operator op =>
        cases hop : l.has op with
        | true =>
          have hrank : (op.rank == k + 1) = true := beq_iff_eq.2 (((l.has_iff op).1 hop).trans hk)
          simp only [chainFrom, hrank, if_true] at h
          obtain ⟨⟨right, mid⟩, hright, h⟩ := Option.bind_eq_some_iff.1 h
          simp only [List.length_cons] at hm hn h
          obtain ⟨ps, hps⟩ := hf hright (by omega)
          have hlength := (hps.suffix _ _ rfl).length_le
          obtain ⟨qs, hqs⟩ := ih h (by omega) (by omega)
          exact ⟨_, .more (.seq (.token hop) hps) hqs⟩
        | false =>
          have hrank : (op.rank == k + 1) = false := by
            rw [beq_eq_false_iff_ne, ← hk]
            exact fun heq => by rw [(l.has_iff op).2 heq] at hop; cases hop
          simp only [chainFrom, hrank] at h
          exact stops h (by rintro _ ⟨⟩; exact hop)
      | _ => exact stops h (by rintro _ ⟨⟩; rfl)

theorem chain_fitted {l : Level} {k : Nat} (hk : l.rank = k + 1) (hf : Fitted operand (.operand l) n) :
    Fitted (chain n (fun op => op.rank == k + 1) operand) (.rule (.chain l)) n := by
  intro ts rest e h hn
  obtain ⟨⟨e', mid⟩, hfirst, h⟩ := Option.bind_eq_some_iff.1 h
  obtain ⟨ps, hps⟩ := hf hfirst hn
  have hlength := (hps.suffix _ _ rfl).length_le
  obtain ⟨qs, hqs⟩ := operators_fitted hk hf h (by omega) (by omega)
  exact ⟨_, .rule (.seq hps hqs)⟩

theorem moreArgs_fitted {arg : Surface.Grammar.Rule Surface.Expr} (hf : Fitted arg .expr n)
    {es : List Surface.Expr} (h : moreArgs arg m ts = some (es, rest)) (hn : ts.length < n) :
    ∃ ps place, Fits (.seq .expr (.many (.seq (.literal .comma) .expr))) ts
      (some (ps, ⟨.closeParen, place⟩ :: rest)) := by
  induction m generalizing ts es with
  | zero => cases h
  | succ m ih =>
    obtain ⟨⟨e, mid⟩, harg, h⟩ := Option.bind_eq_some_iff.1 h
    obtain ⟨ps, hps⟩ := hf harg hn
    have hlength := (hps.suffix _ _ rfl).length_le
    cases mid with
    | nil => cases h
    | cons t us =>
      obtain ⟨l, place⟩ := t
      cases l with
      | comma =>
        obtain ⟨⟨es', last⟩, hmore, h⟩ := Option.bind_eq_some_iff.1 h
        cases h
        simp only [List.length_cons] at hlength
        obtain ⟨_, close, hfits⟩ := ih hmore (by omega)
        obtain ⟨qs, _, rs, hqs, hrs, -⟩ := fits_seq.1 hfits
        exact ⟨_, close, .seq hps (.more (.seq (.literal (t := ⟨.comma, place⟩)) hqs) hrs)⟩
      | closeParen =>
        cases h
        exact ⟨_, place, .seq hps (.stop (.noFirst (noLiteral_cons (by rintro ⟨⟩))))⟩
      | _ => cases h

theorem call_fitted {x : String} {name opening : List Char} {es : List Surface.Expr}
    (hf : Fitted inner .expr n) (h : args m inner ts = some (es, rest)) (hn : ts.length < n) :
    ∃ ps, Fits (.rule .call) (⟨.name x, name⟩ :: ⟨.openParen, opening⟩ :: ts) (some (ps, rest)) := by
  have hargs : ∃ ps place, Fits (.maybe (.seq .expr (.many (.seq (.literal .comma) .expr)))) ts
      (some (ps, ⟨.closeParen, place⟩ :: rest)) := by
    cases ts with
    | nil =>
      obtain ⟨ps, place, hps⟩ := moreArgs_fitted hf h hn
      exact ⟨ps, place, .present hps⟩
    | cons t us =>
      obtain ⟨l, place⟩ := t
      cases l with
      | closeParen =>
        cases h
        exact ⟨[], place, .absent (.noFirst (Barren.noExpr (by rintro _ ⟨⟩; rfl)))⟩
      | _ =>
        obtain ⟨ps, place, hps⟩ := moreArgs_fitted hf h hn
        exact ⟨ps, place, .present hps⟩
  obtain ⟨ps, place, hps⟩ := hargs
  exact ⟨_, .rule (.seq (.token rfl) (.seq (.literal (t := ⟨.openParen, opening⟩))
    (.seq hps (.literal (t := ⟨.closeParen, place⟩)))))⟩

/-- What is neither a number nor a text nor a word is a call, a name or in parentheses. -/
theorem primary_later {r : Option (List Pair × List Token)}
    (ht : ∀ s ∈ [.number, .string, .keyword .trueWord, .keyword .falseWord, .keyword .nullWord],
      Symbol.accepts s t.lexeme = false)
    (h : Fits (.firstOf (.rule .call)
      [.token .ident, .inOrder (.literal .openParen) [.expr, .literal .closeParen]]) (t :: ts) r) :
    Fits .primary (t :: ts) r :=
  .right (noToken_cons (ht _ (by simp))) <| .right (noToken_cons (ht _ (by simp))) <|
    .right (noToken_cons (ht _ (by simp))) <| .right (noToken_cons (ht _ (by simp))) <|
    .right (noToken_cons (ht _ (by simp))) h

theorem primary_fitted (hf : Fitted inner .expr n) : Fitted (primary (n + 1) inner) .primary (n + 1) := by
  intro ts rest e h hn
  unfold primary at h
  split at h
  next =>
    cases h
    exact ⟨_, .left (.token rfl)⟩
  next =>
    cases h
    exact ⟨_, .right (noToken_cons rfl) (.left (.token rfl))⟩
  next =>
    cases h
    exact ⟨_, .right (noToken_cons rfl) (.right (noToken_cons rfl) (.left (.token rfl)))⟩
  next =>
    cases h
    exact ⟨_, .right (noToken_cons rfl) (.right (noToken_cons rfl) (.right (noToken_cons rfl)
      (.left (.token rfl))))⟩
  next =>
    cases h
    exact ⟨_, .right (noToken_cons rfl) (.right (noToken_cons rfl) (.right (noToken_cons rfl)
      (.right (noToken_cons rfl) (.left (.token rfl)))))⟩
  next x name opening us =>
    obtain ⟨⟨es, mid⟩, hargs, h⟩ := Option.bind_eq_some_iff.1 h
    cases h
    simp only [List.length_cons] at hn
    obtain ⟨ps, hps⟩ := call_fitted hf hargs (by omega)
    exact ⟨_, primary_later (by simp [Symbol.accepts]) (.left hps)⟩
  next x name us hopen =>
    cases h
    have hcall : Fits (.rule .call) (⟨.name x, name⟩ :: rest) none := by
      refine .noRule (.noSecond (.token rfl) (.noFirst (.noLiteral fun t ht heq => ?_)))
      obtain ⟨l, place⟩ := t
      obtain ⟨us, rfl⟩ := List.head?_eq_some_iff.1 ht
      obtain rfl : l = .openParen := heq
      exact hopen place us rfl
    exact ⟨_, primary_later (by simp [Symbol.accepts]) (.right hcall (.left (.token rfl)))⟩
  next opening us =>
    obtain ⟨⟨e', mid⟩, hread, h⟩ := Option.bind_eq_some_iff.1 h
    obtain ⟨last, hclose, h⟩ := Option.bind_eq_some_iff.1 h
    cases h
    obtain ⟨close, rfl⟩ := expect_eq_some hclose
    simp only [List.length_cons] at hn
    obtain ⟨ps, hps⟩ := hf hread (by omega)
    exact ⟨_, primary_later (by simp [Symbol.accepts]) (.right (.noRule (.noFirst (noToken_cons rfl)))
      (.right (noToken_cons rfl) (.seq (.literal (t := ⟨.openParen, opening⟩))
        (.seq hps (.literal (t := ⟨.closeParen, close⟩))))))⟩
  next => cases h

theorem expr_fitted (n : Nat) : Fitted (Surface.Grammar.expr n) .expr n := by
  induction n with
  | zero => exact fun _ _ _ _ hn => absurd hn (Nat.not_lt_zero _)
  | succ n ih =>
    have hunary := unary_fitted (postfix_fitted (primary_fitted ih))
    have hproduct := chain_fitted (l := .product) rfl hunary
    have hsum := chain_fitted (l := .sum) rfl hproduct
    have hcomparison := chain_fitted (l := .comparison) rfl hsum
    have hequality := chain_fitted (l := .equality) rfl hcomparison
    have hand := chain_fitted (l := .and) rfl hequality
    have hor := chain_fitted (l := .or) rfl hand
    have hlevels : Surface.Grammar.expr (n + 1) =
        Surface.Grammar.reading (n + 1) (Surface.Grammar.expr n) 8 :=
      Surface.Grammar.levels_eq_reading _ _
    rw [hlevels]
    exact hor

end ScopeBlocks.Script.Rules
