import ScopeBlocks.Proofs.Script.Reading

/-! The grammar reads written statements back, and a text that consists of them parses to them unless a
jump stands outside of every loop. -/
namespace ScopeBlocks.Script.Surface.Grammar

variable {source : List Char} {n : Nat} {rest : List Token}

/-! Clauses of statements. -/

theorem name_binding {x : String} (free : Primitive.ofName? x = none) (p : List Char) :
    (⟨x, p⟩ : Located).variable source = .ok x := by
  unfold Located.variable
  dsimp only
  rw [free]

theorem declaration_none (x : String) (p : List Char) (h : ∀ t ∈ rest.head?, t.lexeme ≠ .assign .set) :
    declaration n (⟨.name x, p⟩ :: rest) = some (.declare ⟨x, p⟩ none, rest) := by
  cases rest with
  | nil => rfl
  | cons t r =>
    obtain ⟨l, q⟩ := t
    have hl := h ⟨l, q⟩ rfl
    cases l with
    | assign op => cases op <;> first | rfl | exact absurd rfl hl
    | _ => rfl

/-- What `forInit` and a statement take, after the word `var` or from a name on. -/
def takeBinding (n : Nat) : Rule Binding
  | ⟨.keyword .var, _⟩ :: rest => declaration n rest
  | ts => do
    let (a, rest) ← assignment n ts
    return (.assign a, rest)

variable (source) in
theorem assignment_readBack {ls : List Lexeme} {a : Script.Assignment} (h : a.Written ls)
    {ts : List Token} (hts : ts.map Token.lexeme = ls) (hn : ls.length ≤ n)
    (hrest : Follows 8 rest) :
    ∃ s, assignment n (ts ++ rest) = some (s, rest) ∧ s.check source = .ok a := by
  obtain @⟨x, free, op, ls, e, value⟩ := h
  obtain ⟨⟨_, p⟩, ts, rfl, rfl, hop⟩ := List.map_eq_cons_iff.1 hts
  obtain ⟨⟨_, q⟩, ts, rfl, rfl, hval⟩ := List.map_eq_cons_iff.1 hop
  obtain ⟨s, hread, hcheck⟩ := expr_readBack source value hval (n := n)
    (by simp only [List.length_cons] at hn; omega) hrest
  refine ⟨⟨⟨x, p⟩, op, s⟩, ?_, ?_⟩
  · simp only [List.cons_append, assignment, hread, Option.bind_eq_bind, Option.bind_some]
    rfl
  · unfold Assignment.check
    dsimp only
    rw [name_binding free, hcheck]
    rfl

variable (source) in
theorem binding_readBack {ls : List Lexeme} {b : Script.Binding} (h : b.Written ls)
    {ts : List Token} (hts : ts.map Token.lexeme = ls) (hn : ls.length ≤ n)
    (hrest : Follows 8 rest) (hset : ∀ t ∈ rest.head?, t.lexeme ≠ .assign .set) :
    ∃ s, takeBinding n (ts ++ rest) = some (s, rest) ∧ s.check source = .ok b := by
  cases h with
  | @declare x free =>
    obtain ⟨⟨_, p⟩, ts, rfl, rfl, hx⟩ := List.map_eq_cons_iff.1 hts
    obtain ⟨q, rfl⟩ := eq_singleton hx
    refine ⟨.declare ⟨x, q⟩ none, declaration_none x q hset, ?_⟩
    unfold Binding.check
    dsimp only
    rw [name_binding free]
    rfl
  | @init x free ls e value =>
    obtain ⟨⟨_, p⟩, ts, rfl, rfl, hx⟩ := List.map_eq_cons_iff.1 hts
    obtain ⟨⟨_, q⟩, ts, rfl, rfl, hop⟩ := List.map_eq_cons_iff.1 hx
    obtain ⟨⟨_, q'⟩, ts, rfl, rfl, hval⟩ := List.map_eq_cons_iff.1 hop
    obtain ⟨s, hread, hcheck⟩ := expr_readBack source value hval (n := n)
      (by simp only [List.length_cons] at hn; omega) hrest
    refine ⟨.declare ⟨x, q⟩ (some s), ?_, ?_⟩
    · simp only [List.cons_append, takeBinding, declaration, name, initialValue, hread,
        Option.bind_eq_bind, Option.bind_some]
      rfl
    · unfold Binding.check
      dsimp only
      rw [name_binding free]
      unfold Expr.check?
      dsimp only
      rw [hcheck]
      rfl
  | @assign ls a written =>
    obtain ⟨s, hread, hcheck⟩ := assignment_readBack source written hts hn hrest
    refine ⟨.assign s, ?_, ?_⟩
    · have htake : takeBinding n (ts ++ rest) =
          (assignment n (ts ++ rest)).bind fun r => some (.assign r.1, r.2) := by
        obtain ⟨free, op, value⟩ := written
        obtain ⟨⟨_, p⟩, ts, rfl, rfl, -⟩ := List.map_eq_cons_iff.1 hts
        rfl
      rw [htake, hread]
      rfl
    · unfold Binding.check
      dsimp only
      rw [hcheck]
      rfl

theorem forInit_binding {ls : List Lexeme} {b : Script.Binding} (h : b.Written ls) {ts : List Token}
    (hts : ts.map Token.lexeme = ls) :
    forInit n (ts ++ rest) = (takeBinding n (ts ++ rest)).bind fun r => some (some r.1, r.2) := by
  cases h with
  | declare _ | init _ _ =>
    obtain ⟨⟨_, q⟩, ts, rfl, rfl, -⟩ := List.map_eq_cons_iff.1 hts
    rfl
  | assign written =>
    obtain @⟨x, free, op, ls, e, value⟩ := written
    obtain ⟨⟨_, q⟩, ts, rfl, rfl, -⟩ := List.map_eq_cons_iff.1 hts
    show (assignment n _).bind _ = ((assignment n _).bind _).bind _
    rw [Option.bind_assoc]
    rfl

variable (source rest) in
theorem forInit_readBack {ls : List Lexeme} {b : Option Script.Binding}
    (h : WrittenOption Script.Binding.Written ls b) {ts : List Token} {p : List Char}
    (hts : ts.map Token.lexeme = ls) (hn : ls.length ≤ n) :
    ∃ s, forInit n (ts ++ ⟨.semicolon, p⟩ :: rest) = some (s, ⟨.semicolon, p⟩ :: rest) ∧
      Binding.check? source s = .ok b := by
  cases h with
  | none =>
    obtain rfl := List.map_eq_nil_iff.1 hts
    exact ⟨none, rfl, rfl⟩
  | @some ls b h =>
    obtain ⟨s, hread, hcheck⟩ := binding_readBack source h hts hn
      (follows_semicolon p rest) (by simp)
    refine ⟨some s, ?_, ?_⟩
    · rw [forInit_binding h hts, hread]
      rfl
    · unfold Binding.check?
      dsimp only
      rw [hcheck]
      rfl

variable (source rest) in
theorem forCond_readBack {ls : List Lexeme} {e : Option Script.Expr}
    (h : WrittenOption (Script.Expr.Written 8) ls e) {ts : List Token} {p : List Char}
    (hts : ts.map Token.lexeme = ls) (hn : ls.length ≤ n) :
    ∃ s, forCond n (ts ++ ⟨.semicolon, p⟩ :: rest) = some (s, ⟨.semicolon, p⟩ :: rest) ∧
      Expr.check? source s = .ok e := by
  cases h with
  | none =>
    obtain rfl := List.map_eq_nil_iff.1 hts
    exact ⟨none, rfl, rfl⟩
  | @some ls e h =>
    obtain ⟨s, hread, hcheck⟩ := expr_readBack source h hts hn
      (follows_semicolon p rest)
    refine ⟨some s, ?_, ?_⟩
    · obtain ⟨l, r, rfl, hstart, -⟩ := h.starts
      obtain ⟨⟨l, q⟩, ts, rfl, rfl, -⟩ := List.map_eq_cons_iff.1 hts
      have htake : forCond n (⟨l, q⟩ :: ts ++ ⟨.semicolon, p⟩ :: rest) =
          (expr n (⟨l, q⟩ :: ts ++ ⟨.semicolon, p⟩ :: rest)).bind fun r =>
            some (some r.1, r.2) := by
        cases l <;> first | rfl | cases hstart
      rw [htake, hread]
      rfl
    · unfold Expr.check?
      dsimp only
      rw [hcheck]
      rfl

variable (source rest) in
theorem forUpdate_readBack {ls : List Lexeme} {a : Option Script.Assignment}
    (h : WrittenOption Script.Assignment.Written ls a) {ts : List Token} {p : List Char}
    (hts : ts.map Token.lexeme = ls) (hn : ls.length ≤ n) :
    ∃ s, forUpdate n (ts ++ ⟨.closeParen, p⟩ :: rest) = some (s, ⟨.closeParen, p⟩ :: rest) ∧
      Assignment.check? source s = .ok a := by
  cases h with
  | none =>
    obtain rfl := List.map_eq_nil_iff.1 hts
    exact ⟨none, rfl, rfl⟩
  | @some ls a h =>
    obtain ⟨s, hread, hcheck⟩ := assignment_readBack source h hts hn
      (follows_closeParen p rest)
    refine ⟨some s, ?_, ?_⟩
    · have htake : forUpdate n (ts ++ ⟨.closeParen, p⟩ :: rest) =
          (assignment n (ts ++ ⟨.closeParen, p⟩ :: rest)).bind fun r =>
            some (some r.1, r.2) := by
        obtain @⟨x, free, op, ls, e, value⟩ := h
        obtain ⟨⟨_, q⟩, ts, rfl, rfl, -⟩ := List.map_eq_cons_iff.1 hts
        rfl
      rw [htake, hread]
      rfl
    · unfold Assignment.check?
      dsimp only
      rw [hcheck]
      rfl

/-! Blocks. -/

theorem toOption_bind {ε α β : Type} (x : Except ε α) (f : α → Except ε β) :
    (x >>= f).toOption = x.toOption.bind fun a => (f a).toOption := by
  cases x <;> rfl

/-- What a check yields, if only misplaced jumps can stop it. -/
def Checks {ε α : Type} (check : Bool → Except ε α) (placed : Bool → Bool) (a : α) : Prop :=
  ∀ inLoop, (check inLoop).toOption = if placed inLoop then some a else none

theorem checks_of_ok {ε α : Type} {check : Except ε α} {a : α} (h : check = .ok a) :
    Checks (fun _ => check) (fun _ => true) a := by
  intro inLoop
  rw [h]
  rfl

theorem Checks.bind {ε α β γ : Type} {c : Bool → Except ε α} {d : Bool → Except ε β}
    {p q : Bool → Bool} {a : α} {b : β} (hc : Checks c p a) (hd : Checks d q b) (f : α → β → γ) :
    Checks (fun l => do let x ← c l; return f x (← d l)) (fun l => p l && q l) (f a b) := by
  intro l
  rw [toOption_bind, hc l]
  cases hp : p l with
  | false => simp [hp]
  | true =>
    rw [if_pos rfl, Option.bind_some, toOption_bind, hd l]
    cases hq : q l <;> simp [hp, hq, pure, Except.pure, Except.toOption]

theorem Checks.map {ε α β : Type} {c : Bool → Except ε α} {p : Bool → Bool} {a : α}
    (hc : Checks c p a) (f : α → β) : Checks (fun l => do return f (← c l)) p (f a) := by
  intro l
  rw [toOption_bind, hc l]
  cases hp : p l <;> simp [pure, Except.pure, Except.toOption]

/-- No further branch begins with these tokens. -/
def EndsBranch (rest : List Token) : Prop := ∀ t ∈ rest.head?, t.lexeme ≠ .keyword .elseWord

def ReadsStatement (source : List Char) (ls : List Lexeme) (t : Script.Statement) : Prop :=
  ∀ {n : Nat} {ts rest : List Token}, ts.map Token.lexeme = ls → ls.length ≤ n + 1 →
    EndsBranch rest → ∃ s, statement (n + 1) (inBraces (statements n)) (ts ++ rest) = some (s, rest) ∧
      Checks (fun inLoop => s.check source inLoop) (fun inLoop => t.placed inLoop) t

theorem starts_of_written {ls : List Lexeme} {t : Script.Statement} (h : t.Written ls) :
    ∃ l r, ls = l :: r ∧ l ≠ .closeBrace ∧ l ≠ .keyword .elseWord := by
  cases h with
  | bind h =>
    cases h with
    | assign h => cases h; exact ⟨_, _, rfl, nofun, nofun⟩
    | _ => exact ⟨_, _, rfl, nofun, nofun⟩
  | eval h =>
    obtain ⟨l, r, rfl, hl, -⟩ := h.starts
    refine ⟨l, _, rfl, ?_, ?_⟩ <;> rintro rfl <;> cases hl
  | _ => exact ⟨_, _, rfl, nofun, nofun⟩

/-- No more of a choice comes before statements that are written, or before what ends them. -/
theorem endsBranch_lexemes {b : Listing Script.Statement} (written : ∀ p ∈ b, p.2.Written p.1)
    {vs rest : List Token} (hvs : vs.map Token.lexeme = b.lexemes)
    (hrest : ∀ t ∈ rest.head?, t.lexeme = .closeBrace) : EndsBranch (vs ++ rest) := by
  cases b with
  | nil =>
    obtain rfl := List.map_eq_nil_iff.1 hvs
    intro t ht he
    rw [hrest t ht] at he
    cases he
  | cons p b =>
    obtain ⟨l, r, hl, -, helse⟩ := starts_of_written (written p List.mem_cons_self)
    have hhead : Listing.lexemes (p :: b) = l :: (r ++ Listing.lexemes b) := by
      simp [Listing.lexemes, hl]
    obtain ⟨t, vs, rfl, rfl, -⟩ := List.map_eq_cons_iff.1 (hvs.trans hhead)
    intro t' ht'
    cases ht'
    exact helse

theorem statements_cons {t : Token} (ht : t.lexeme ≠ .closeBrace) (ts : List Token) :
    statements (n + 1) (t :: ts) = (statement (n + 1) (inBraces (statements n)) (t :: ts)).bind
      fun r => (statements n r.2).bind fun more => some (r.1 :: more.1, more.2) := by
  obtain ⟨l, p⟩ := t
  cases l <;> first | rfl | exact absurd rfl ht

theorem statements_readBack {b : Listing Script.Statement} (written : ∀ p ∈ b, p.2.Written p.1)
    (h : ∀ p ∈ b, ReadsStatement source p.1 p.2) :
    ∀ {n : Nat} {ts : List Token} (rest : List Token), ts.map Token.lexeme = b.lexemes →
      ts.length < n → (∀ t ∈ rest.head?, t.lexeme = .closeBrace) →
      ∃ ss, statements n (ts ++ rest) = some (ss, rest) ∧
        Checks (fun inLoop => Statement.checkAll source inLoop ss)
          (fun inLoop => placedAll inLoop b.parts) b.parts := by
  induction b with
  | nil =>
    intro n ts rest hts hn hrest
    obtain rfl : ts = [] := by simpa [Listing.lexemes] using hts
    obtain ⟨n, rfl⟩ : ∃ m, n = m + 1 := ⟨n - 1, by omega⟩
    refine ⟨[], ?_, checks_of_ok rfl⟩
    cases rest with
    | nil => rfl
    | cons t rest =>
      obtain ⟨l, p⟩ := t
      obtain rfl : l = .closeBrace := hrest ⟨l, p⟩ rfl
      rfl
  | cons p b ih =>
    intro n ts rest hts hn hrest
    obtain ⟨n, rfl⟩ : ∃ m, n = m + 1 := ⟨n - 1, by omega⟩
    obtain ⟨us, vs, rfl, hus, hvs⟩ := List.map_eq_append_iff.1 hts
    obtain ⟨l, r, hl, hbrace, -⟩ := starts_of_written (written p List.mem_cons_self)
    have hlen := congrArg List.length hus
    rw [List.length_map] at hlen
    rw [List.length_append] at hn
    have hpos : 0 < p.1.length := by rw [hl]; simp
    have hwritten : ∀ q ∈ b, q.2.Written q.1 := fun q hq => written q (List.mem_cons_of_mem _ hq)
    obtain ⟨s, hread, hcheck⟩ := h p List.mem_cons_self hus (n := n) (by omega)
      (endsBranch_lexemes hwritten hvs hrest)
    obtain ⟨ss, hreads, hchecks⟩ := ih hwritten
      (fun q hq => h q (List.mem_cons_of_mem _ hq)) rest hvs (n := n) (by omega) hrest
    refine ⟨s :: ss, ?_, hcheck.bind hchecks List.cons⟩
    rw [hl] at hus
    obtain ⟨t, us, rfl, rfl, -⟩ := List.map_eq_cons_iff.1 hus
    rw [List.append_assoc, List.cons_append, statements_cons hbrace, ← List.cons_append]
    simp only [hread, Option.bind_some, hreads]

variable (rest) in
theorem braces_readBack {b : Listing Script.Statement} (written : ∀ p ∈ b, p.2.Written p.1)
    (h : ∀ p ∈ b, ReadsStatement source p.1 p.2) {ts : List Token}
    (hts : ts.map Token.lexeme = braced b.lexemes) (hn : ts.length ≤ n + 1) :
    ∃ ss, inBraces (statements n) (ts ++ rest) = some (ss, rest) ∧
      Checks (fun inLoop => Statement.checkAll source inLoop ss)
        (fun inLoop => placedAll inLoop b.parts) b.parts := by
  obtain ⟨⟨_, p⟩, ts, rfl, rfl, hinner⟩ := List.map_eq_cons_iff.1 hts
  obtain ⟨us, vs, rfl, hus, hvs⟩ := List.map_eq_append_iff.1 hinner
  obtain ⟨q, rfl⟩ := eq_singleton hvs
  simp only [List.length_cons, List.length_append, List.length_nil] at hn
  obtain ⟨ss, hread, hcheck⟩ := statements_readBack written h (n := n) (⟨.closeBrace, q⟩ :: rest)
    hus (by omega) (by simp)
  refine ⟨ss, ?_, hcheck⟩
  rw [List.cons_append, List.append_assoc, List.singleton_append]
  unfold inBraces expect
  simp only [if_pos, Option.bind_eq_bind, Option.bind_some, hread]
  rfl

variable (rest) in
theorem guarded_readBack {g : Guarded} (cond : g.cond.Written 8 g.lexemes)
    (written : ∀ p ∈ g.body, p.2.Written p.1) (h : ∀ p ∈ g.body, ReadsStatement source p.1 p.2)
    {ts : List Token} (hts : ts.map Token.lexeme = g.all) (hn : ts.length ≤ n + 1) :
    ∃ c ss, guarded (n + 1) (inBraces (statements n)) (ts ++ rest) = some ((c, ss), rest) ∧
      c.check source = .ok g.cond ∧ Checks (fun inLoop => Statement.checkAll source inLoop ss)
        (fun inLoop => placedAll inLoop g.body.parts) g.body.parts := by
  obtain ⟨⟨_, p⟩, ts, rfl, rfl, hinner⟩ := List.map_eq_cons_iff.1 hts
  obtain ⟨us, vs, rfl, hus, hvs⟩ := List.map_eq_append_iff.1 hinner
  obtain ⟨⟨_, q⟩, vs, rfl, rfl, hbody⟩ := List.map_eq_cons_iff.1 hvs
  simp only [List.length_cons, List.length_append] at hn
  have hlen := congrArg List.length hus
  rw [List.length_map] at hlen
  obtain ⟨c, hread, hcheck⟩ := expr_readBack source cond hus (n := n + 1) (by omega)
    (follows_closeParen q (vs ++ rest))
  obtain ⟨ss, hreads, hchecks⟩ := braces_readBack rest written h hbody (n := n) (by omega)
  refine ⟨c, ss, ?_, hcheck, hchecks⟩
  rw [List.cons_append, List.append_assoc, List.cons_append]
  unfold guarded expect
  simp only [if_pos, Option.bind_eq_bind, Option.bind_some, hread, hreads]
  rfl

theorem otherwise_readBack (hrest : EndsBranch rest) {otherwise : Option (Listing Script.Statement)}
    (last : ∀ body ∈ otherwise, ∀ p ∈ body, p.2.Written p.1)
    (hlast : ∀ body ∈ otherwise, ∀ p ∈ body, ReadsStatement source p.1 p.2) {ts : List Token}
    (hts : ts.map Token.lexeme = otherwiseLexemes otherwise) (hn : ts.length ≤ n + 1) (m : Nat) :
    ∃ o, otherBranches (n + 1) (inBraces (statements n)) m (ts ++ rest) = some (([], o), rest) ∧
      Checks (fun inLoop => Statement.checkOtherwise source inLoop o)
        (fun inLoop => placedOtherwise inLoop (otherwise.map Listing.parts))
        (otherwise.map Listing.parts) := by
  cases otherwise with
  | none =>
    obtain rfl := List.map_eq_nil_iff.1 hts
    refine ⟨none, ?_, checks_of_ok rfl⟩
    cases rest with
    | nil => cases m <;> rfl
    | cons t rest =>
      obtain ⟨l, p⟩ := t
      have hl := hrest ⟨l, p⟩ rfl
      cases l with
      | keyword w => cases w <;> first | (cases m <;> rfl) | exact absurd rfl hl
      | _ => cases m <;> rfl
  | some body =>
    obtain ⟨⟨_, p⟩, ts, rfl, rfl, hbody⟩ := List.map_eq_cons_iff.1 hts
    rw [List.length_cons] at hn
    obtain ⟨ss, hread, hcheck⟩ := braces_readBack rest (last body rfl) (hlast body rfl)
      hbody (n := n) (by omega)
    refine ⟨some ss, ?_, hcheck.map some⟩
    obtain ⟨⟨_, q⟩, ts, rfl, rfl, -⟩ := List.map_eq_cons_iff.1 hbody
    have hstep : otherBranches (n + 1) (inBraces (statements n)) m
        (⟨.keyword .elseWord, p⟩ :: ⟨.openBrace, q⟩ :: ts ++ rest) =
          (inBraces (statements n) (⟨.openBrace, q⟩ :: ts ++ rest)).bind fun r =>
            some (([], some r.1), r.2) := by
      cases m <;> rfl
    rw [hstep, hread]
    rfl

theorem checks_branches {g : Guarded} {others : List Guarded} {c : Expr} {ss : List Statement}
    {bs : List (Expr × List Statement)} (hcond : c.check source = .ok g.cond)
    (hbody : Checks (fun inLoop => Statement.checkAll source inLoop ss)
      (fun inLoop => placedAll inLoop g.body.parts) g.body.parts)
    (hothers : Checks (fun inLoop => Statement.checkBranches source inLoop bs)
      (fun inLoop => placedBranches inLoop (others.map Guarded.branch)) (others.map Guarded.branch)) :
    Checks (fun inLoop => Statement.checkBranches source inLoop ((c, ss) :: bs))
      (fun inLoop => placedBranches inLoop ((g :: others).map Guarded.branch))
      ((g :: others).map Guarded.branch) := by
  intro inLoop
  unfold Statement.checkBranches
  rw [hcond]
  exact hbody.bind hothers (fun b bs => (g.cond, b) :: bs) inLoop

theorem otherBranches_further {budget m : Nat} {block : Rule (List Surface.Statement)} (p q : List Char)
    (ts : List Token) : otherBranches budget block (m + 1)
      (⟨.keyword .elseWord, p⟩ :: ⟨.keyword .ifWord, q⟩ :: ts) =
        (guarded budget block ts).bind fun r => (otherBranches budget block m r.2).bind
          fun more => some ((r.1 :: more.1.1, more.1.2), more.2) := rfl

theorem otherBranches_readBack (hrest : EndsBranch rest) (others : List Guarded)
    {otherwise : Option (Listing Script.Statement)}
    (conds : ∀ g ∈ others, g.cond.Written 8 g.lexemes)
    (bodies : ∀ g ∈ others, ∀ p ∈ g.body, p.2.Written p.1)
    (last : ∀ body ∈ otherwise, ∀ p ∈ body, p.2.Written p.1)
    (hbodies : ∀ g ∈ others, ∀ p ∈ g.body, ReadsStatement source p.1 p.2)
    (hlast : ∀ body ∈ otherwise, ∀ p ∈ body, ReadsStatement source p.1 p.2) :
    ∀ {m : Nat} {ts : List Token},
      ts.map Token.lexeme =
        (others.flatMap fun g => .keyword .elseWord :: .keyword .ifWord :: g.all) ++
          otherwiseLexemes otherwise → ts.length ≤ n + 1 → others.length ≤ m →
      ∃ bs o, otherBranches (n + 1) (inBraces (statements n)) m (ts ++ rest) =
          some ((bs, o), rest) ∧
        Checks (fun inLoop => Statement.checkBranches source inLoop bs)
          (fun inLoop => placedBranches inLoop (others.map Guarded.branch))
          (others.map Guarded.branch) ∧
        Checks (fun inLoop => Statement.checkOtherwise source inLoop o)
          (fun inLoop => placedOtherwise inLoop (otherwise.map Listing.parts))
          (otherwise.map Listing.parts) := by
  induction others with
  | nil =>
    intro m ts hts hn _
    obtain ⟨o, hread, hcheck⟩ := otherwise_readBack hrest last hlast hts hn m
    exact ⟨[], o, hread, checks_of_ok rfl, hcheck⟩
  | cons g others ih =>
    intro m ts hts hn hm
    obtain ⟨m, rfl⟩ : ∃ k, m = k + 1 := ⟨m - 1, by simp only [List.length_cons] at hm; omega⟩
    rw [List.flatMap_cons, List.append_assoc] at hts
    obtain ⟨⟨_, p⟩, ts, rfl, rfl, hif⟩ := List.map_eq_cons_iff.1 hts
    obtain ⟨⟨_, q⟩, ts, rfl, rfl, hall⟩ := List.map_eq_cons_iff.1 hif
    obtain ⟨us, vs, rfl, hus, hvs⟩ := List.map_eq_append_iff.1 hall
    simp only [List.length_cons, List.length_append] at hn hm
    obtain ⟨c, ss, hread, hcheck, hchecks⟩ := guarded_readBack (vs ++ rest) (n := n)
      (conds g List.mem_cons_self) (bodies g List.mem_cons_self) (hbodies g List.mem_cons_self)
      hus (by omega)
    obtain ⟨bs, o, hreads, hbranches, hotherwise⟩ := ih
      (fun g' hg => conds g' (List.mem_cons_of_mem _ hg))
      (fun g' hg => bodies g' (List.mem_cons_of_mem _ hg))
      (fun g' hg => hbodies g' (List.mem_cons_of_mem _ hg)) hvs (by omega) (m := m) (by omega)
    refine ⟨(c, ss) :: bs, o, ?_, checks_branches hcheck hchecks hbranches, hotherwise⟩
    rw [List.cons_append, List.cons_append, List.append_assoc, otherBranches_further]
    simp only [hread, Option.bind_some, hreads]

/-! Statements, one kind after another. -/

theorem statement_binding {ls : List Lexeme} {b : Script.Binding} (h : b.Written ls)
    {block : Rule (List Statement)} {ts : List Token} (hts : ts.map Token.lexeme = ls) :
    statement n block (ts ++ rest) = (takeBinding n (ts ++ rest)).bind fun r =>
      (expect .semicolon r.2).bind fun rest => some (.bind r.1, rest) := by
  cases h with
  | declare _ | init _ _ =>
    obtain ⟨⟨_, q⟩, ts, rfl, rfl, -⟩ := List.map_eq_cons_iff.1 hts
    rfl
  | assign written =>
    obtain @⟨x, free, op, ls, e, value⟩ := written
    obtain ⟨⟨_, q⟩, ts, rfl, rfl, hop⟩ := List.map_eq_cons_iff.1 hts
    obtain ⟨⟨_, q'⟩, ts, rfl, rfl, -⟩ := List.map_eq_cons_iff.1 hop
    show (assignment n _).bind _ = ((assignment n _).bind _).bind _
    rw [Option.bind_assoc]
    rfl

/-- An expression that is written begins no statement of another kind: no assignment stands in it. -/
theorem statement_expr {ls : List Lexeme} {e : Script.Expr} (h : e.Written 8 ls)
    {block : Rule (List Statement)} {ts : List Token} (hts : ts.map Token.lexeme = ls)
    {p : List Char} :
    statement n block (ts ++ ⟨.semicolon, p⟩ :: rest) =
      (expr n (ts ++ ⟨.semicolon, p⟩ :: rest)).bind fun r =>
        (expect .semicolon r.2).bind fun rest => some (.eval r.1, rest) := by
  have hassign := h.assign_not_mem
  obtain ⟨l, r, rfl, hstart, -⟩ := h.starts
  obtain ⟨⟨l, q⟩, ts, rfl, rfl, htail⟩ := List.map_eq_cons_iff.1 hts
  cases l with
  | keyword w => cases w <;> first | rfl | cases hstart
  | name x =>
    cases ts with
    | nil => rfl
    | cons t ts =>
      obtain ⟨l', q'⟩ := t
      have hne : ∀ op, l' ≠ .assign op := by
        rintro op rfl
        exact hassign op (List.mem_cons_of_mem _ (by rw [← htail]; exact List.mem_cons_self))
      cases l' with
      | assign op => exact absurd rfl (hne op)
      | _ => rfl
  | _ => rfl

section Kinds

variable (source)

theorem bind_readBack {ls : List Lexeme} {b : Script.Binding} (written : b.Written ls) :
    ReadsStatement source (ls ++ [.semicolon]) (.bind b) := by
  intro n ts rest hts hn hrest
  obtain ⟨us, vs, rfl, hus, hvs⟩ := List.map_eq_append_iff.1 hts
  obtain ⟨p, rfl⟩ := eq_singleton hvs
  rw [List.length_append] at hn
  obtain ⟨s, hread, hcheck⟩ := binding_readBack source written hus (n := n + 1)
    (by omega) (follows_semicolon p rest) (by simp)
  refine ⟨.bind s, ?_, ?_⟩
  · rw [List.append_assoc, List.singleton_append, statement_binding written hus, hread]
    rfl
  · intro inLoop
    unfold Statement.check
    rw [hcheck]
    rfl

theorem eval_readBack {ls : List Lexeme} {e : Script.Expr} (written : e.Written 8 ls) :
    ReadsStatement source (ls ++ [.semicolon]) (.eval e) := by
  intro n ts rest hts hn hrest
  obtain ⟨us, vs, rfl, hus, hvs⟩ := List.map_eq_append_iff.1 hts
  obtain ⟨p, rfl⟩ := eq_singleton hvs
  rw [List.length_append] at hn
  obtain ⟨s, hread, hcheck⟩ := expr_readBack source written hus (n := n + 1)
    (by omega) (follows_semicolon p rest)
  refine ⟨.eval s, ?_, ?_⟩
  · rw [List.append_assoc, List.singleton_append, statement_expr written hus, hread]
    rfl
  · intro inLoop
    unfold Statement.check
    rw [hcheck]
    rfl

theorem branch_readBack (first : Guarded) (others : List Guarded)
    (otherwise : Option (Listing Script.Statement))
    (conds : ∀ g ∈ first :: others, g.cond.Written 8 g.lexemes)
    (bodies : ∀ g ∈ first :: others, ∀ p ∈ g.body, p.2.Written p.1)
    (last : ∀ body ∈ otherwise, ∀ p ∈ body, p.2.Written p.1)
    (hbodies : ∀ g ∈ first :: others, ∀ p ∈ g.body, ReadsStatement source p.1 p.2)
    (hlast : ∀ body ∈ otherwise, ∀ p ∈ body, ReadsStatement source p.1 p.2) :
    ReadsStatement source (.keyword .ifWord :: (first.all ++
        (others.flatMap fun g => .keyword .elseWord :: .keyword .ifWord :: g.all) ++
          otherwiseLexemes otherwise))
      (.branch ((first :: others).map Guarded.branch) (otherwise.map Listing.parts)) := by
  intro n ts rest hts hn hrest
  have hlen := congrArg List.length hts
  rw [List.length_map] at hlen
  obtain ⟨⟨_, p⟩, ts, rfl, rfl, hall⟩ := List.map_eq_cons_iff.1 hts
  rw [List.append_assoc] at hall
  obtain ⟨us, vs, rfl, hus, hvs⟩ := List.map_eq_append_iff.1 hall
  have hothers := (length_le_flatMap (l := others)
    (f := fun g : Guarded => .keyword .elseWord :: .keyword .ifWord :: g.all) (by simp)).1
  have hlenvs := congrArg List.length hvs
  rw [List.length_map, List.length_append] at hlenvs
  simp only [List.length_cons, List.length_append] at hn hlen
  obtain ⟨c, ss, hread, hcheck, hchecks⟩ := guarded_readBack (vs ++ rest) (n := n)
    (conds first List.mem_cons_self) (bodies first List.mem_cons_self)
    (hbodies first List.mem_cons_self) hus (by omega)
  obtain ⟨bs, o, hreads, hbranches, hotherwise⟩ := otherBranches_readBack (n := n) hrest others
    (fun g hg => conds g (List.mem_cons_of_mem _ hg))
    (fun g hg => bodies g (List.mem_cons_of_mem _ hg)) last
    (fun g hg => hbodies g (List.mem_cons_of_mem _ hg)) hlast (m := n + 1) hvs (by omega) (by omega)
  refine ⟨.branch ((c, ss) :: bs) o, ?_, (checks_branches hcheck hchecks hbranches).bind hotherwise
    Script.Statement.branch⟩
  have hstep : statement (n + 1) (inBraces (statements n)) (⟨.keyword .ifWord, p⟩ :: (us ++ vs) ++ rest) =
      (guarded (n + 1) (inBraces (statements n)) (us ++ (vs ++ rest))).bind fun r =>
        (otherBranches (n + 1) (inBraces (statements n)) (n + 1) r.2).bind
          fun more => some (.branch (r.1 :: more.1.1) more.1.2, more.2) := by
    rw [List.cons_append, List.append_assoc]
    rfl
  simp only [hstep, hread, Option.bind_some, hreads]

theorem whileLoop_readBack {g : Guarded} (cond : g.cond.Written 8 g.lexemes)
    (body : ∀ p ∈ g.body, p.2.Written p.1) (hbody : ∀ p ∈ g.body, ReadsStatement source p.1 p.2) :
    ReadsStatement source (.keyword .whileWord :: g.all) (.whileLoop g.cond g.body.parts) := by
  intro n ts rest hts hn hrest
  have hlen := congrArg List.length hts
  rw [List.length_map] at hlen
  obtain ⟨⟨_, p⟩, ts, rfl, rfl, hall⟩ := List.map_eq_cons_iff.1 hts
  simp only [List.length_cons] at hn hlen
  obtain ⟨c, ss, hread, hcheck, hchecks⟩ := guarded_readBack rest (n := n) cond body hbody
    hall (by omega)
  refine ⟨.whileLoop c ss, ?_, ?_⟩
  · have hstep : statement (n + 1) (inBraces (statements n)) (⟨.keyword .whileWord, p⟩ :: ts ++ rest) =
        (guarded (n + 1) (inBraces (statements n)) (ts ++ rest)).bind fun r =>
          some (.whileLoop r.1.1 r.1.2, r.2) := rfl
    rw [hstep, hread]
    rfl
  · intro inLoop
    unfold Statement.check
    rw [hcheck]
    exact hchecks.map (Script.Statement.whileLoop g.cond) true

theorem forLoop_readBack {ils cls uls : List Lexeme} {init : Option Script.Binding}
    {cond : Option Script.Expr} {update : Option Script.Assignment}
    (hi : WrittenOption Script.Binding.Written ils init)
    (hc : WrittenOption (Script.Expr.Written 8) cls cond)
    (hu : WrittenOption Script.Assignment.Written uls update) {body : Listing Script.Statement}
    (hb : ∀ p ∈ body, p.2.Written p.1) (hbody : ∀ p ∈ body, ReadsStatement source p.1 p.2) :
    ReadsStatement source (.keyword .forWord :: .openParen :: (ils ++ .semicolon :: (cls ++
        .semicolon :: (uls ++ .closeParen :: braced body.lexemes))))
      (.forLoop init cond update body.parts) := by
  intro n ts rest hts hn hrest
  have hlen := congrArg List.length hts
  rw [List.length_map] at hlen
  obtain ⟨⟨_, p⟩, ts, rfl, rfl, hopen⟩ := List.map_eq_cons_iff.1 hts
  obtain ⟨⟨_, p₁⟩, ts, rfl, rfl, hinit⟩ := List.map_eq_cons_iff.1 hopen
  obtain ⟨is, ts, rfl, his, hsemi⟩ := List.map_eq_append_iff.1 hinit
  obtain ⟨⟨_, p₂⟩, ts, rfl, rfl, hcond⟩ := List.map_eq_cons_iff.1 hsemi
  obtain ⟨cs, ts, rfl, hcs, hsemi'⟩ := List.map_eq_append_iff.1 hcond
  obtain ⟨⟨_, p₃⟩, ts, rfl, rfl, hupdate⟩ := List.map_eq_cons_iff.1 hsemi'
  obtain ⟨us, ts, rfl, hus, hclose⟩ := List.map_eq_append_iff.1 hupdate
  obtain ⟨⟨_, p₄⟩, ts, rfl, rfl, hbraced⟩ := List.map_eq_cons_iff.1 hclose
  simp only [List.length_cons, List.length_append] at hn hlen
  obtain ⟨i, hreadi, hchecki⟩ := forInit_readBack source
    (cs ++ ⟨.semicolon, p₃⟩ :: (us ++ ⟨.closeParen, p₄⟩ :: (ts ++ rest))) (n := n + 1) (p := p₂)
    hi his (by omega)
  obtain ⟨c, hreadc, hcheckc⟩ := forCond_readBack source
    (us ++ ⟨.closeParen, p₄⟩ :: (ts ++ rest)) (n := n + 1) (p := p₃) hc hcs (by omega)
  obtain ⟨u, hreadu, hchecku⟩ := forUpdate_readBack source (ts ++ rest) (n := n + 1) (p := p₄)
    hu hus (by omega)
  obtain ⟨ss, hreads, hchecks⟩ := braces_readBack rest hb hbody hbraced (n := n) (by omega)
  refine ⟨.forLoop i c u ss, ?_, ?_⟩
  · simp only [List.cons_append, List.append_assoc, statement, expect, if_pos,
      Option.bind_eq_bind, Option.bind_some, hreadi, hreadc, hreadu, hreads]
    rfl
  · intro inLoop
    unfold Statement.check
    rw [hchecki, hcheckc, hchecku]
    exact hchecks.map (Script.Statement.forLoop init cond update) true

theorem statement_readBack {ls : List Lexeme} {t : Script.Statement} (h : t.Written ls) :
    ReadsStatement source ls t := by
  induction h with
  | bind written => exact bind_readBack source written
  | eval written => exact eval_readBack source written
  | branch first others otherwise conds bodies last ihs ihlast =>
    exact branch_readBack source first others otherwise conds bodies last ihs ihlast
  | whileLoop g cond body ih => exact whileLoop_readBack source cond body ih
  | forLoop hi hc hu body hb ih => exact forLoop_readBack source hi hc hu hb ih
  | exitLoop | nextRound =>
    intro n ts rest hts hn hrest
    obtain ⟨⟨_, p⟩, ts, rfl, rfl, hsemi⟩ := List.map_eq_cons_iff.1 hts
    obtain ⟨q, rfl⟩ := eq_singleton hsemi
    refine ⟨.jump _ p, rfl, fun inLoop => ?_⟩
    cases inLoop <;> rfl

end Kinds

end ScopeBlocks.Script.Surface.Grammar

namespace ScopeBlocks.Script

/-- A text of written statements parses to them, unless one of their jumps is misplaced. -/
theorem parse_of_written {text : String} {ls : List Lexeme} {program : Program}
    (hls : (Token.scan? text.toList).map (·.map Token.lexeme) = some ls)
    (written : AllWritten ls program) :
    (parse text).toOption = if placedAll false program then some program else none := by
  obtain ⟨tokens, hscan, htokens⟩ := Option.map_eq_some_iff.1 hls
  obtain ⟨b, hb, rfl, rfl⟩ := written
  obtain ⟨ss, hread, hcheck⟩ := Surface.Grammar.statements_readBack hb
    (fun p hp => Surface.Grammar.statement_readBack text.toList (hb p hp))
    (n := tokens.length + 1) [] htokens (by omega) (by simp)
  rw [List.append_nil] at hread
  unfold parse Surface.Grammar.read?
  simp only [hscan, Option.bind_eq_bind, Option.bind_some, hread]
  exact hcheck false

end ScopeBlocks.Script
