import ScopeBlocks.Proofs.Script.Writing

/-! The grammar reads written expressions back: from their tokens and whatever may follow them it takes
just those tokens, and what it yields checks to the expression that was written. -/
namespace ScopeBlocks

theorem bind_eq_ok {ε α β : Type} {x : Except ε α} {f : α → Except ε β} {b : β}
    (h : x >>= f = .ok b) : ∃ a, x = .ok a ∧ f a = .ok b := by
  cases x with
  | error e => cases h
  | ok a => exact ⟨a, rfl, h⟩

namespace Script.Surface.Grammar

def reading (n : Nat) (inner : Rule Expr) : Nat → Rule Expr
  | 0 => primary n inner
  | 1 => postfixExpr n inner
  | 2 => unaryExpr (postfixExpr n inner) n
  | k + 3 => chain n (fun op => op.rank == k + 3) (reading n inner (k + 2))

theorem levels_eq_reading (n : Nat) (inner : Rule Expr) : levels n inner = reading n inner 8 := by
  have hor : isOr = fun op => op.rank == 8 := by funext op; cases op <;> rfl
  have hand : isAnd = fun op => op.rank == 7 := by funext op; cases op <;> rfl
  have heq : isEquality = fun op => op.rank == 6 := by funext op; cases op <;> rfl
  have hcmp : isComparison = fun op => op.rank == 5 := by funext op; cases op <;> rfl
  have hsum : isSum = fun op => op.rank == 4 := by funext op; cases op <;> rfl
  have hprod : isProduct = fun op => op.rank == 3 := by funext op; cases op <;> rfl
  unfold levels
  rw [hor, hand, heq, hcmp, hsum, hprod]
  rfl

/-- Whether tokens leave an expression of some rank before them as it is. -/
def Follows (k : Nat) (rest : List Token) : Prop :=
  ∀ t ∈ rest.head?, t.lexeme ≠ .openParen ∧ (0 < k → t.lexeme ≠ .dot) ∧
    ∀ op, t.lexeme = .operator op → k < op.rank

@[simp] theorem follows_nil (k : Nat) : Follows k [] := by simp [Follows]

theorem Follows.tighten {k m : Nat} {rest : List Token} (h : Follows k rest) (hm : m ≤ k) :
    Follows m rest := fun t ht =>
  ⟨(h t ht).1, fun hpos => (h t ht).2.1 (Nat.lt_of_lt_of_le hpos hm),
    fun op hop => Nat.lt_of_le_of_lt hm ((h t ht).2.2 op hop)⟩

theorem follows_cons {k : Nat} {l : Lexeme} {p : List Char} {rest : List Token}
    (hopen : l ≠ .openParen) (hdot : 0 < k → l ≠ .dot) (hop : ∀ op, l = .operator op → k < op.rank) :
    Follows k (⟨l, p⟩ :: rest) := by
  intro t ht
  cases ht
  exact ⟨hopen, hdot, hop⟩

theorem follows_operator {k : Nat} {op : BinaryOp} {p : List Char} {rest : List Token}
    (h : k < op.rank) : Follows k (⟨.operator op, p⟩ :: rest) :=
  follows_cons nofun nofun fun _ hop => by cases hop; exact h

theorem follows_dot {p : List Char} {rest : List Token} : Follows 0 (⟨.dot, p⟩ :: rest) :=
  follows_cons nofun nofun nofun

theorem follows_comma {k : Nat} (p : List Char) (rest : List Token) :
    Follows k (⟨.comma, p⟩ :: rest) := follows_cons nofun nofun nofun

theorem follows_closeParen {k : Nat} (p : List Char) (rest : List Token) :
    Follows k (⟨.closeParen, p⟩ :: rest) := follows_cons nofun nofun nofun

theorem follows_semicolon {k : Nat} (p : List Char) (rest : List Token) :
    Follows k (⟨.semicolon, p⟩ :: rest) := follows_cons nofun nofun nofun

/-- What a rule takes off the front of a text is an expression. -/
def Reads (source : List Char) (r : Rule Expr) (ts rest : List Token) (e : Script.Expr) : Prop :=
  ∃ s, r (ts ++ rest) = some (s, rest) ∧ s.check source = .ok e

variable {source : List Char} {n k : Nat} {rest : List Token}

/-! Repetitions. -/

theorem fieldsFrom_stops (h : Follows 1 rest) (s : Expr) :
    fieldsFrom n s rest = some (s, rest) := by
  cases n with
  | zero => rfl
  | succ n =>
    cases rest with
    | nil => rfl
    | cons t r =>
      obtain ⟨l, p⟩ := t
      have hdot := (h ⟨l, p⟩ rfl).2.1 (by decide)
      cases l <;> first | rfl | exact absurd rfl hdot

theorem fieldsFrom_reads (h : Follows 1 rest) {e : Script.Expr} (fs : List String) :
    ∀ {n : Nat} {ts : List Token} {s : Expr}, s.check source = .ok e →
      ts.map Token.lexeme = fs.flatMap (fun f => [.dot, .name f]) → fs.length ≤ n →
      ∃ s', fieldsFrom n s (ts ++ rest) = some (s', rest) ∧
        s'.check source = .ok (fs.foldl .member e) := by
  induction fs generalizing e with
  | nil =>
    intro n ts s hs hts _
    obtain rfl : ts = [] := by simpa using hts
    exact ⟨s, fieldsFrom_stops h s, hs⟩
  | cons f fs ih =>
    intro n ts s hs hts hn
    obtain ⟨n, rfl⟩ : ∃ m, n = m + 1 := ⟨n - 1, by simp at hn; omega⟩
    match ts, hts with
    | ⟨_, p⟩ :: ⟨_, q⟩ :: ts, hts =>
      simp only [List.map_cons, List.flatMap_cons, List.cons_append, List.nil_append,
        List.cons.injEq] at hts
      obtain ⟨rfl, rfl, hts⟩ := hts
      have hm : (Surface.Expr.member s f).check source = .ok (.member e f) := by
        unfold Surface.Expr.check
        rw [hs]
        rfl
      exact ih (n := n) hm hts (by simpa using hn)

theorem unaryExpr_reads {operand : Rule Expr} {e : Script.Expr} (ops : List UnaryOp) :
    ∀ {n : Nat} {ts us : List Token}, ts.map Token.lexeme = ops.map UnaryOp.lexeme →
      (∀ m, Reads source (unaryExpr operand m) us rest e) → ops.length ≤ n →
      Reads source (unaryExpr operand n) (ts ++ us) rest (ops.foldr .unary e) := by
  induction ops with
  | nil =>
    intro n ts us hts hus _
    obtain rfl : ts = [] := by simpa using hts
    exact hus n
  | cons op ops ih =>
    intro n ts us hts hus hn
    obtain ⟨n, rfl⟩ : ∃ m, n = m + 1 := ⟨n - 1, by simp at hn; omega⟩
    match ts, hts with
    | ⟨_, p⟩ :: ts, hts =>
      simp only [List.map_cons, List.cons.injEq] at hts
      obtain ⟨rfl, hts⟩ := hts
      obtain ⟨s, hread, hcheck⟩ := ih hts hus (by simpa using hn)
      refine ⟨.unary op s, ?_, ?_⟩
      · rw [List.append_assoc] at hread
        cases op <;> simp [UnaryOp.lexeme, unaryExpr, hread]
      · unfold Surface.Expr.check
        rw [hcheck]
        rfl

theorem chainFrom_stops {level : BinaryOp → Bool} {operand : Rule Expr}
    (hlevel : ∀ op, level op = true → op.rank ≤ k) (h : Follows k rest) (s : Expr) :
    chainFrom level operand n s rest = some (s, rest) := by
  cases n with
  | zero => rfl
  | succ n =>
    cases rest with
    | nil => rfl
    | cons t r =>
      obtain ⟨l, p⟩ := t
      cases l with
      | operator op =>
        have hrank := (h ⟨.operator op, p⟩ rfl).2.2 op rfl
        have hop : level op = false := by
          cases hl : level op with
          | false => rfl
          | true => exact absurd (hlevel op hl) (by omega)
        simp [chainFrom, hop]
      | _ => rfl

theorem chainFrom_reads {operand : Rule Expr} (h : Follows (k + 3) rest) {e : Script.Expr}
    (tail : List (BinaryOp × List Lexeme × Script.Expr)) :
    ∀ {n : Nat} {ts : List Token} {s : Expr}, s.check source = .ok e →
      ts.map Token.lexeme = tail.flatMap (fun t => .operator t.1 :: t.2.1) →
      (∀ t ∈ tail, t.1.rank = k + 3) →
      (∀ t ∈ tail, ∀ us rest', us.map Token.lexeme = t.2.1 → Follows (k + 2) rest' →
        Reads source operand us rest' t.2.2) → tail.length ≤ n →
      ∃ s', chainFrom (fun op => op.rank == k + 3) operand n s (ts ++ rest) = some (s', rest) ∧
        s'.check source = .ok (tail.foldl (fun e t => .binary t.1 e t.2.2) e) := by
  induction tail generalizing e with
  | nil =>
    intro n ts s hs hts _ _ _
    obtain rfl : ts = [] := by simpa using hts
    exact ⟨s, chainFrom_stops (fun op hop => by simp at hop; omega) h s, hs⟩
  | cons t tail ih =>
    intro n ts s hs hts hrank hoperands hn
    obtain ⟨n, rfl⟩ : ∃ m, n = m + 1 := ⟨n - 1, by simp at hn; omega⟩
    rw [List.flatMap_cons, List.cons_append] at hts
    obtain ⟨⟨_, p⟩, ts, rfl, rfl, htail⟩ := List.map_eq_cons_iff.1 hts
    obtain ⟨us, vs, rfl, hus, hvs⟩ := List.map_eq_append_iff.1 htail
    have hop : t.1.rank = k + 3 := hrank t List.mem_cons_self
    -- an operand ends before the next operator of its chain, or before the rest
    have hfollows : Follows (k + 2) (vs ++ rest) := by
      cases tail with
      | nil =>
        obtain rfl : vs = [] := by simpa using hvs
        exact h.tighten (by omega)
      | cons t' tail =>
        rw [List.flatMap_cons, List.cons_append] at hvs
        obtain ⟨⟨_, q⟩, vs, rfl, rfl, -⟩ := List.map_eq_cons_iff.1 hvs
        exact follows_operator (by
          rw [hrank t' (List.mem_cons_of_mem _ List.mem_cons_self)]
          omega)
    obtain ⟨r, hread, hcheck⟩ := hoperands t List.mem_cons_self us (vs ++ rest) hus hfollows
    have hb : (Surface.Expr.binary t.1 s r).check source = .ok (.binary t.1 e t.2.2) := by
      unfold Surface.Expr.check
      rw [hs, hcheck]
      rfl
    obtain ⟨s', hloop, hcheck'⟩ := ih (n := n) hb hvs (fun t ht => hrank t (List.mem_cons_of_mem _ ht))
      (fun t ht => hoperands t (List.mem_cons_of_mem _ ht)) (by simpa using hn)
    refine ⟨s', ?_, hcheck'⟩
    simp only [List.cons_append, List.append_assoc, chainFrom, hop, BEq.rfl, if_true, hread,
      Option.bind_eq_bind, Option.bind_some]
    exact hloop

variable (source rest) in
theorem moreArgs_reads (arg : Rule Expr) (args : List (List Lexeme × Script.Expr)) :
    ∀ {n : Nat} {ts : List Token} {p : List Char}, args ≠ [] →
      ts.map Token.lexeme = commas (args.map Prod.fst) →
      (∀ a ∈ args, ∀ us rest', us.map Token.lexeme = a.1 → Follows 8 rest' →
        Reads source arg us rest' a.2) → args.length ≤ n →
      ∃ ss, moreArgs arg n (ts ++ ⟨.closeParen, p⟩ :: rest) = some (ss, rest) ∧
        Expr.checkArgs source ss = .ok (args.map Prod.snd) := by
  induction args with
  | nil => exact fun h => absurd rfl h
  | cons a args ih =>
    intro n ts p _ hts harg hn
    obtain ⟨n, rfl⟩ : ∃ m, n = m + 1 := ⟨n - 1, by simp at hn; omega⟩
    cases args with
    | nil =>
      obtain ⟨s, hread, hcheck⟩ := harg a List.mem_cons_self ts _ (by simpa [commas] using hts)
        (follows_closeParen p rest)
      refine ⟨[s], by simp [moreArgs, hread], ?_⟩
      simp [Expr.checkArgs, hcheck]
      rfl
    | cons a' args =>
      simp only [List.map_cons, commas] at hts
      obtain ⟨us, vs, rfl, hus, hvs⟩ := List.map_eq_append_iff.1 hts
      obtain ⟨⟨_, q⟩, vs, rfl, rfl, hrest⟩ := List.map_eq_cons_iff.1 hvs
      obtain ⟨s, hread, hcheck⟩ := harg a List.mem_cons_self us _ hus
        (follows_comma q (vs ++ ⟨.closeParen, p⟩ :: rest))
      obtain ⟨ss, hmore, hchecks⟩ := ih (n := n) (p := p) (by simp) hrest
        (fun t ht => harg t (List.mem_cons_of_mem _ ht)) (by simpa using hn)
      refine ⟨s :: ss, ?_, ?_⟩
      · simp only [List.append_assoc, List.cons_append, moreArgs, hread, Option.bind_eq_bind,
          Option.bind_some, hmore]
        rfl
      · simp only [Expr.checkArgs, hcheck, hchecks]
        rfl

theorem startsOperand_not_sign {t : Token} (h : t.lexeme.startsOperand = true) {operand : Rule Expr}
    {ts : List Token} : unaryExpr operand n (t :: ts) = operand (t :: ts) := by
  obtain ⟨l, p⟩ := t
  cases n with
  | zero => rfl
  | succ n =>
    cases l with
    | bang => cases h
    | operator op => cases h
    | _ => rfl

theorem args_eq_moreArgs {t : Token} (h : t.lexeme.startsExpr = true) {arg : Rule Expr}
    {ts : List Token} : args n arg (t :: ts) = moreArgs arg n (t :: ts) := by
  obtain ⟨l, p⟩ := t
  cases l with
  | closeParen => cases h
  | _ => rfl

theorem length_le_commas {args : List (List Lexeme × Script.Expr)} (h : ∀ a ∈ args, a.1 ≠ []) :
    args.length ≤ (commas (args.map Prod.fst)).length ∧
      ∀ a ∈ args, a.1.length ≤ (commas (args.map Prod.fst)).length := by
  induction args with
  | nil => simp
  | cons a args ih =>
    obtain ⟨hlen, hall⟩ := ih fun b hb => h b (List.mem_cons_of_mem _ hb)
    have ha : 1 ≤ a.1.length := List.length_pos_iff.2 (h a List.mem_cons_self)
    cases args with
    | nil => simpa [commas] using ha
    | cons b args =>
      simp only [List.map_cons, commas, List.length_append, List.length_cons] at hlen hall ⊢
      refine ⟨by omega, fun c hc => ?_⟩
      rcases List.mem_cons.1 hc with rfl | hc
      · omega
      · have := hall c hc
        omega

theorem length_le_flatMap {α β : Type} {f : α → List β} {l : List α} (h : ∀ a ∈ l, f a ≠ []) :
    l.length ≤ (l.flatMap f).length ∧ ∀ a ∈ l, (f a).length ≤ (l.flatMap f).length := by
  induction l with
  | nil => simp
  | cons a l ih =>
    obtain ⟨hlen, hall⟩ := ih fun b hb => h b (List.mem_cons_of_mem _ hb)
    have ha : 1 ≤ (f a).length := List.length_pos_iff.2 (h a List.mem_cons_self)
    simp only [List.flatMap_cons, List.length_append, List.length_cons]
    refine ⟨by omega, fun c hc => ?_⟩
    rcases List.mem_cons.1 hc with rfl | hc
    · omega
    · have := hall c hc
      omega

theorem eq_singleton {ts : List Token} {l : Lexeme} (h : ts.map Token.lexeme = [l]) :
    ∃ p, ts = [⟨l, p⟩] := by
  obtain ⟨⟨_, p⟩, _, rfl, rfl, hnil⟩ := List.map_eq_cons_iff.1 h
  exact ⟨p, by rw [List.map_eq_nil_iff.1 hnil]⟩

/-- Whatever the place of its tokens and the budget, an expression is read by the rule of its rank. -/
def ReadBack (source : List Char) (k : Nat) (ls : List Lexeme) (e : Script.Expr) : Prop :=
  ∀ {n : Nat} {ts rest : List Token}, ts.map Token.lexeme = ls → ls.length ≤ n + 1 →
    Follows k rest → Reads source (reading (n + 1) (expr n) k) ts rest e

theorem expr_reads {ls : List Lexeme} {e : Script.Expr} (h : ReadBack source 8 ls e)
    (written : e.Written 8 ls) {ts : List Token} (hts : ts.map Token.lexeme = ls)
    (hn : ls.length ≤ n) (hrest : Follows 8 rest) : Reads source (expr n) ts rest e := by
  obtain ⟨l, r, rfl, -⟩ := written.starts
  obtain ⟨n, rfl⟩ : ∃ m, n = m + 1 := ⟨n - 1, by simp at hn; omega⟩
  have hread := h hts hn hrest
  rw [← levels_eq_reading] at hread
  exact hread

variable (rest) in
theorem args_reads {m : Nat} {args : List (List Lexeme × Script.Expr)} {us : List Token}
    {p : List Char} (written : ∀ a ∈ args, a.2.Written 8 a.1) (h : ∀ a ∈ args, ReadBack source 8 a.1 a.2)
    (hus : us.map Token.lexeme = commas (args.map Prod.fst)) (hn : us.length ≤ n)
    (hm : n ≤ m) :
    ∃ ss, Grammar.args m (expr n) (us ++ ⟨.closeParen, p⟩ :: rest) = some (ss, rest) ∧
      Expr.checkArgs source ss = .ok (args.map Prod.snd) := by
  have hne : ∀ a ∈ args, a.1 ≠ [] := fun a ha hnil => by
    obtain ⟨l, r, hl, -⟩ := (written a ha).starts
    rw [hl] at hnil
    cases hnil
  obtain ⟨hlen, hall⟩ := length_le_commas hne
  have hus' := congrArg List.length hus
  rw [List.length_map] at hus'
  cases args with
  | nil =>
    obtain rfl : us = [] := by simpa [commas] using hus
    exact ⟨[], rfl, rfl⟩
  | cons a args =>
    obtain ⟨ss, hmore, hcheck⟩ := moreArgs_reads source rest (expr n) (n := m) (p := p) (a :: args)
      (by simp) hus
      (fun b hb us' rest' hus' hrest' => expr_reads (h b hb) (written b hb) hus'
        (by have := hall b hb; omega) hrest')
      (by omega)
    obtain ⟨l, r, hl, hstart, -⟩ := (written a List.mem_cons_self).starts
    obtain ⟨m, hm⟩ : ∃ m, commas ((a :: args).map Prod.fst) = l :: m := by
      cases args <;> simp [commas, hl]
    rw [hm] at hus
    obtain ⟨t, us, rfl, rfl, -⟩ := List.map_eq_cons_iff.1 hus
    refine ⟨ss, ?_, hcheck⟩
    rw [List.cons_append, args_eq_moreArgs hstart]
    exact hmore

/-! ### Each form of expression -/

variable {ls : List Lexeme} {e : Script.Expr}

theorem literal_readBack {l : Lexeme} {v : Value}
    (h : ∀ (p : List Char) (rest : List Token) (n : Nat),
      primary (n + 1) (expr n) (⟨l, p⟩ :: rest) = some (.literal v, rest)) :
    ReadBack source 0 [l] (.literal v) := by
  intro n ts rest hts _ _
  obtain ⟨p, rfl⟩ := eq_singleton hts
  exact ⟨.literal v, h p rest n, rfl⟩

/-- A name is read as a call where a parenthesis opens after it. -/
theorem var_readBack {x : String} (free : Primitive.ofName? x = none) :
    ReadBack source 0 [.name x] (.var x) := by
  intro n ts rest hts _ hrest
  obtain ⟨p, rfl⟩ := eq_singleton hts
  refine ⟨.name ⟨x, p⟩, ?_, ?_⟩
  · cases rest with
    | nil => rfl
    | cons t rest =>
      obtain ⟨l, q⟩ := t
      have hopen := (hrest ⟨l, q⟩ rfl).1
      cases l <;> first | rfl | exact absurd rfl hopen
  · unfold Surface.Expr.check Located.variable
    dsimp only
    rw [free]
    rfl

theorem call_readBack (p : Primitive) {args : List (List Lexeme × Script.Expr)}
    (written : ∀ a ∈ args, a.2.Written 8 a.1) (h : ∀ a ∈ args, ReadBack source 8 a.1 a.2) :
    ReadBack source 0 (.name p.name :: .openParen :: (commas (args.map Prod.fst) ++ [.closeParen]))
      (.call p (args.map Prod.snd)) := by
  intro n ts rest hts hn _
  obtain ⟨⟨_, q⟩, ts, rfl, rfl, hcall⟩ := List.map_eq_cons_iff.1 hts
  obtain ⟨⟨_, q'⟩, ts, rfl, rfl, hargs⟩ := List.map_eq_cons_iff.1 hcall
  obtain ⟨us, vs, rfl, hus, hvs⟩ := List.map_eq_append_iff.1 hargs
  obtain ⟨q'', rfl⟩ := eq_singleton hvs
  have hlen := congrArg List.length hts
  simp only [List.length_map, List.length_cons, List.length_append] at hlen hn
  obtain ⟨ss, hread, hcheck⟩ :=
    args_reads rest (n := n) (m := n + 1) (p := q'') written h hus (by omega) (by omega)
  refine ⟨.call ⟨p.name, q⟩ ss, ?_, ?_⟩
  · show primary (n + 1) (expr n) (⟨.name p.name, q⟩ :: ⟨.openParen, q'⟩ ::
        (us ++ [⟨.closeParen, q''⟩] ++ rest)) = _
    rw [List.append_assoc, List.singleton_append]
    simp only [primary, hread, Option.bind_eq_bind, Option.bind_some]
    rfl
  · unfold Surface.Expr.check Located.primitive
    dsimp only
    rw [Primitive.ofName?_name]
    show (do return Script.Expr.call p (← Expr.checkArgs source ss)) = _
    rw [hcheck]
    rfl

theorem parens_readBack (written : e.Written 8 ls) (h : ReadBack source 8 ls e) :
    ReadBack source 0 (.openParen :: (ls ++ [.closeParen])) e := by
  intro n ts rest hts hn _
  obtain ⟨⟨_, q⟩, ts, rfl, rfl, hinner⟩ := List.map_eq_cons_iff.1 hts
  obtain ⟨us, vs, rfl, hus, hvs⟩ := List.map_eq_append_iff.1 hinner
  obtain ⟨q', rfl⟩ := eq_singleton hvs
  simp only [List.length_cons, List.length_append] at hn
  obtain ⟨s, hread, hcheck⟩ := expr_reads h written hus (n := n) (by omega)
    (follows_closeParen q' rest)
  refine ⟨s, ?_, hcheck⟩
  show primary (n + 1) (expr n) (⟨.openParen, q⟩ :: (us ++ [⟨.closeParen, q'⟩] ++ rest)) = _
  rw [List.append_assoc, List.singleton_append]
  simp only [primary, hread, Option.bind_eq_bind, Option.bind_some]
  rfl

theorem fields_readBack (h : ReadBack source 0 ls e) (fs : List String) :
    ReadBack source 1 (ls ++ fs.flatMap fun f => [.dot, .name f]) (fs.foldl .member e) := by
  intro n ts rest hts hn hrest
  obtain ⟨us, vs, rfl, hus, hvs⟩ := List.map_eq_append_iff.1 hts
  rw [List.length_append] at hn
  have hfs := (length_le_flatMap (f := fun f => [Lexeme.dot, .name f]) (l := fs) (by simp)).1
  have hfollows : Follows 0 (vs ++ rest) := by
    cases fs with
    | nil =>
      obtain rfl : vs = [] := by simpa using hvs
      exact hrest.tighten (by decide)
    | cons f fs =>
      obtain ⟨⟨_, p⟩, vs, rfl, rfl, -⟩ := List.map_eq_cons_iff.1 hvs
      exact follows_dot
  obtain ⟨s, hread, hcheck⟩ := h hus (n := n) (by omega) hfollows
  obtain ⟨s', hfields, hcheck'⟩ := fieldsFrom_reads (n := n + 1) hrest fs hcheck hvs (by omega)
  refine ⟨s', ?_, hcheck'⟩
  rw [List.append_assoc]
  show (primary (n + 1) (expr n) (us ++ (vs ++ rest))).bind _ = _
  rw [show primary (n + 1) (expr n) (us ++ (vs ++ rest)) = some (s, vs ++ rest) from hread]
  exact hfields

theorem signs_readBack (ops : List UnaryOp) (written : e.Written 1 ls) (h : ReadBack source 1 ls e) :
    ReadBack source 2 (ops.map UnaryOp.lexeme ++ ls) (ops.foldr .unary e) := by
  intro n ts rest hts hn hrest
  obtain ⟨us, vs, rfl, hus, hvs⟩ := List.map_eq_append_iff.1 hts
  simp only [List.length_append, List.length_map] at hn
  refine unaryExpr_reads ops hus (fun m => ?_) (by omega)
  obtain ⟨l, r, rfl, -, hstart⟩ := written.starts
  obtain ⟨s, hread, hcheck⟩ := h hvs (n := n) (by omega) (hrest.tighten (by decide))
  obtain ⟨t, vs, rfl, rfl, -⟩ := List.map_eq_cons_iff.1 hvs
  refine ⟨s, ?_, hcheck⟩
  rw [List.cons_append, startsOperand_not_sign (hstart (by decide))]
  exact hread

theorem chain_readBack (h : ReadBack source (k + 2) ls e)
    {tail : List (BinaryOp × List Lexeme × Script.Expr)} (rank : ∀ t ∈ tail, t.1.rank = k + 3)
    (operands : ∀ t ∈ tail, ReadBack source (k + 2) t.2.1 t.2.2) :
    ReadBack source (k + 3) (ls ++ tail.flatMap fun t => .operator t.1 :: t.2.1)
      (tail.foldl (fun e t => .binary t.1 e t.2.2) e) := by
  intro n ts rest hts hn hrest
  obtain ⟨us, vs, rfl, hus, hvs⟩ := List.map_eq_append_iff.1 hts
  rw [List.length_append] at hn
  obtain ⟨hlen, hall⟩ := length_le_flatMap (l := tail)
    (f := fun t : BinaryOp × List Lexeme × Script.Expr => Lexeme.operator t.1 :: t.2.1) (by simp)
  have hfollows : Follows (k + 2) (vs ++ rest) := by
    cases tail with
    | nil =>
      obtain rfl : vs = [] := by simpa using hvs
      exact hrest.tighten (by omega)
    | cons t tail =>
      rw [List.flatMap_cons, List.cons_append] at hvs
      obtain ⟨⟨_, p⟩, vs, rfl, rfl, -⟩ := List.map_eq_cons_iff.1 hvs
      exact follows_operator (by rw [rank t List.mem_cons_self]; omega)
  obtain ⟨s, hread, hcheck⟩ := h hus (n := n) (by omega) hfollows
  obtain ⟨s', hchain, hcheck'⟩ := chainFrom_reads (n := n + 1) hrest tail hcheck hvs rank
    (fun t ht us' rest' hus' hrest' => operands t ht hus' (n := n)
      (by have := hall t ht; simp only [List.length_cons] at this; omega) hrest')
    (by omega)
  refine ⟨s', ?_, hcheck'⟩
  rw [List.append_assoc]
  show (reading (n + 1) (expr n) (k + 2) (us ++ (vs ++ rest))).bind _ = _
  rw [hread]
  exact hchain

theorem written_readBack (h : e.Written k ls) : ReadBack source k ls e := by
  induction h with
  | number x => exact literal_readBack fun _ _ _ => rfl
  | text s => exact literal_readBack fun _ _ _ => rfl
  | truth b => exact literal_readBack fun _ _ _ => by cases b <;> rfl
  | null => exact literal_readBack fun _ _ _ => rfl
  | var free => exact var_readBack free
  | call p _ written ih => exact call_readBack p written ih
  | parens written ih => exact parens_readBack written ih
  | fields _ fs ih => exact fields_readBack ih fs
  | signs ops written ih => exact signs_readBack ops written ih
  | chain _ _ rank _ ih ihs => exact chain_readBack ih rank ihs

variable (source) in
theorem expr_readBack (h : e.Written 8 ls) {ts : List Token}
    (hts : ts.map Token.lexeme = ls) (hn : ls.length ≤ n) (hrest : Follows 8 rest) :
    Reads source (expr n) ts rest e := expr_reads (written_readBack h) h hts hn hrest

end Script.Surface.Grammar

end ScopeBlocks
