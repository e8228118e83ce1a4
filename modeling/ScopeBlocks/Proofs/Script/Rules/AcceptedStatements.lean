import ScopeBlocks.Proofs.Script.Rules.AcceptedExpressions
import ScopeBlocks.Proofs.Script.Rules.Statements

/-! What is read as a statement fits the rule of that statement, and a whole text that is read is one of the
grammar. -/
namespace ScopeBlocks.Script.Rules

open Surface.Grammar (initialValue declaration assignment guarded otherBranches inBraces statements)

variable {n m : Nat} {ts rest : List Token} {block : Surface.Grammar.Rule (List Surface.Statement)}

/-! Declarations and assignments. -/

theorem initialValue_fitted {e : Option Surface.Expr} (h : initialValue n ts = some (e, rest))
    (hn : ts.length < n) : ∃ ps, Fits (.maybe (.seq (.literal (.assign .set)) .expr)) ts (some (ps, rest)) := by
  unfold initialValue at h
  split at h
  next set us =>
    obtain ⟨⟨e', mid⟩, hread, h⟩ := Option.bind_eq_some_iff.1 h
    cases h
    simp only [List.length_cons] at hn
    obtain ⟨ps, hps⟩ := expr_fitted n hread (by omega)
    exact ⟨_, .present (.seq (.literal (t := ⟨.assign .set, set⟩)) hps)⟩
  next hset =>
    cases h
    refine ⟨[], .absent (.noFirst (.noLiteral fun t ht heq => ?_))⟩
    obtain ⟨l, place⟩ := t
    obtain ⟨us, rfl⟩ := List.head?_eq_some_iff.1 ht
    obtain rfl : l = .assign .set := heq
    exact hset place us rfl

theorem declaration_fitted {b : Surface.Binding} (h : declaration n ts = some (b, rest)) (hn : ts.length < n)
    (place : List Char) : ∃ ps, Fits (.rule .varBinding) (⟨.keyword .var, place⟩ :: ts) (some (ps, rest)) := by
  obtain ⟨⟨x, us⟩, hname, h⟩ := Option.bind_eq_some_iff.1 h
  obtain ⟨⟨e, mid⟩, hread, h⟩ := Option.bind_eq_some_iff.1 h
  cases h
  obtain rfl := name_eq_some hname
  simp only [List.length_cons] at hn
  obtain ⟨ps, hps⟩ := initialValue_fitted hread (by omega)
  exact ⟨_, .rule (.seq (.token rfl) (.seq (.token rfl) hps))⟩

theorem assignment_fitted : Fitted (assignment n) (.rule .assign) n := by
  intro ts rest a h hn
  unfold assignment at h
  split at h
  next x place op set us =>
    obtain ⟨⟨e, mid⟩, hread, h⟩ := Option.bind_eq_some_iff.1 h
    cases h
    simp only [List.length_cons] at hn
    obtain ⟨ps, hps⟩ := expr_fitted n hread (by omega)
    exact ⟨_, .rule (.seq (.token rfl) (.seq (.token rfl) hps))⟩
  next => cases h

/-! Blocks with a condition, and choices. -/

theorem guarded_fitted (hblock : Fitted block (.rule .block) n) : Fitted (guarded n block)
    (.inOrder (.literal .openParen) [.expr, .literal .closeParen, .rule .block]) n := by
  intro ts rest b h hn
  obtain ⟨us, hopen, h⟩ := Option.bind_eq_some_iff.1 h
  obtain ⟨⟨cond, mid⟩, hcond, h⟩ := Option.bind_eq_some_iff.1 h
  obtain ⟨vs, hclose, h⟩ := Option.bind_eq_some_iff.1 h
  obtain ⟨⟨body, last⟩, hbody, h⟩ := Option.bind_eq_some_iff.1 h
  cases h
  obtain ⟨opening, rfl⟩ := expect_eq_some hopen
  obtain ⟨closing, rfl⟩ := expect_eq_some hclose
  simp only [List.length_cons] at hn
  obtain ⟨ps, hps⟩ := expr_fitted n hcond (by omega)
  have hlength := (hps.suffix _ _ rfl).length_le
  simp only [List.length_cons] at hlength
  obtain ⟨qs, hqs⟩ := hblock hbody (by omega)
  exact ⟨_, .seq (.literal (t := ⟨.openParen, opening⟩)) (.seq hps
    (.seq (.literal (t := ⟨.closeParen, closing⟩)) hqs))⟩

/-- That tokens go on a choice up to the rest: with further branches, and with what is done otherwise. -/
def GoesOn (ts rest : List Token) : Prop :=
  ∃ ps mid qs, Fits (.many (.inOrder (.word .elseWord) [.word .ifWord, .rule .condBlock])) ts
    (some (ps, mid)) ∧ Fits (.maybe (.rule .elseClause)) mid (some (qs, rest))

namespace GoesOn

variable {us : List Token} {place word : List Char}

theorem stop (h : ∀ t ∈ ts.head?, (Symbol.keyword .elseWord).accepts t.lexeme = false) : GoesOn ts ts :=
  ⟨[], ts, [], .stop (.noFirst (.noToken h)), .absent (.noRule (.noFirst (.noToken h)))⟩

theorem last {ps : List Pair} (hword : ∀ t ∈ us.head?, (Symbol.keyword .ifWord).accepts t.lexeme = false)
    (h : Fits (.rule .block) us (some (ps, rest))) : GoesOn (⟨.keyword .elseWord, place⟩ :: us) rest :=
  ⟨[], _, _, .stop (.noSecond (.token rfl) (.noFirst (.noToken hword))),
    .present (.rule (.seq (.token rfl) h))⟩

theorem further {ps : List Pair} {mid : List Token} (h : Fits Symbol.condBlock.form us (some (ps, mid)))
    (hmid : GoesOn mid rest) :
    GoesOn (⟨.keyword .elseWord, place⟩ :: ⟨.keyword .ifWord, word⟩ :: us) rest := by
  obtain ⟨qs, after, rs, hqs, hrs⟩ := hmid
  exact ⟨_, after, rs, .more (.seq (.token rfl) (.seq (.token rfl) (.rule h))) hqs, hrs⟩

end GoesOn

section

variable {branches : List (Surface.Expr × List Surface.Statement) × Option (List Surface.Statement)}

theorem otherBranches_stop {t : Token} {us : List Token}
    (h : otherBranches n block m (t :: us) = some (branches, rest))
    (helse : t.lexeme ≠ .keyword .elseWord) : GoesOn (t :: us) rest := by
  obtain ⟨l, place⟩ := t
  have hword : (Symbol.keyword .elseWord).accepts l = false := by
    cases l with
    | keyword w => cases w <;> first | rfl | exact absurd rfl helse
    | _ => rfl
  have hnone : otherBranches n block m (⟨l, place⟩ :: us) = some (([], none), ⟨l, place⟩ :: us) := by
    cases m <;> cases l with
    | keyword w => cases w <;> first | rfl | exact absurd rfl helse
    | _ => rfl
  rw [hnone] at h
  cases h
  exact .stop (by rintro _ ⟨⟩; exact hword)

theorem otherBranches_last (hblock : Fitted block (.rule .block) n) {us : List Token} {place : List Char}
    (h : ((block us).bind fun r => some (([], some r.1), r.2)) = some (branches, rest))
    (hword : ∀ t ∈ us.head?, (Symbol.keyword .ifWord).accepts t.lexeme = false) (hn : us.length < n) :
    GoesOn (⟨.keyword .elseWord, place⟩ :: us) rest := by
  obtain ⟨⟨body, mid⟩, hbody, h⟩ := Option.bind_eq_some_iff.1 h
  cases h
  obtain ⟨qs, hqs⟩ := hblock hbody hn
  exact .last hword hqs

/-- A choice goes on only after the word for it. -/
theorem otherBranches_fitted (hblock : Fitted block (.rule .block) n)
    (h : otherBranches n block m ts = some (branches, rest)) (hm : ts.length ≤ m) (hn : ts.length < n) :
    GoesOn ts rest := by
  induction m generalizing ts branches with
  | zero =>
    obtain rfl := List.length_eq_zero_iff.1 (Nat.le_zero.1 hm)
    cases h
    exact .stop (by simp)
  | succ m ih =>
    cases ts with
    | nil =>
      cases h
      exact .stop (by simp)
    | cons t us =>
      by_cases helse : t.lexeme = .keyword .elseWord
      · obtain ⟨_, place⟩ := t
        obtain rfl := helse
        have hus := Nat.lt_of_succ_lt hn
        cases us with
        | nil => exact otherBranches_last hblock h (by simp) hus
        | cons t vs =>
          obtain ⟨l, word⟩ := t
          cases l with
          | keyword w =>
            cases w with
            | ifWord =>
              obtain ⟨⟨guard, mid⟩, hguard, h⟩ := Option.bind_eq_some_iff.1 h
              obtain ⟨⟨⟨others, otherwise⟩, final⟩, hothers, h⟩ := Option.bind_eq_some_iff.1 h
              cases h
              simp only [List.length_cons] at hm hn
              obtain ⟨ps, hps⟩ := guarded_fitted hblock hguard (by omega)
              have hlength := (hps.suffix _ _ rfl).length_le
              exact .further hps (ih hothers (by omega) (by omega))
            | _ => exact otherBranches_last hblock h (by rintro _ ⟨⟩; rfl) hus
          | _ => exact otherBranches_last hblock h (by rintro _ ⟨⟩; rfl) hus
      · exact otherBranches_stop h helse

end

/-! Counting loops. -/

theorem noWord {w : Keyword} {f : Form} (h : ∀ place us, ts = ⟨.keyword w, place⟩ :: us → False) :
    Fits (.seq (.word w) f) ts none := by
  refine .noFirst (.noToken fun t ht => ?_)
  obtain ⟨l, place⟩ := t
  obtain ⟨us, rfl⟩ := List.head?_eq_some_iff.1 ht
  cases l with
  | keyword v =>
    refine beq_eq_false_iff_ne.2 ?_
    rintro rfl
    exact h place us rfl
  | _ => rfl

theorem noAssign (h : ∀ x place op set us, ts = ⟨.name x, place⟩ :: ⟨.assign op, set⟩ :: us → False) :
    Fits (.rule .assign) ts none := by
  refine .noRule ?_
  cases ts with
  | nil => exact .noFirst (.noToken (by simp))
  | cons t us =>
    obtain ⟨l, place⟩ := t
    cases l with
    | name x =>
      refine .noSecond (.token rfl) (.noFirst (.noToken fun t ht => ?_))
      obtain ⟨l, set⟩ := t
      obtain ⟨vs, rfl⟩ := List.head?_eq_some_iff.1 ht
      cases l with
      | assign op => exact (h x place op set vs rfl).elim
      | _ => rfl
    | _ => exact .noFirst (noToken_cons rfl)

theorem forInit_fitted : Fitted (Surface.Grammar.forInit n) (.rule .forInit) n := by
  intro ts rest init h hn
  unfold Surface.Grammar.forInit at h
  split at h
  next place us =>
    cases h
    exact ⟨_, .rule (.absent (.right (.noRule (.noFirst (noToken_cons rfl)))
      (.noRule (.noFirst (noToken_cons rfl)))))⟩
  next word us =>
    obtain ⟨⟨b, mid⟩, hread, h⟩ := Option.bind_eq_some_iff.1 h
    cases h
    simp only [List.length_cons] at hn
    obtain ⟨ps, hps⟩ := declaration_fitted hread (by omega) word
    exact ⟨_, .rule (.present (.left hps))⟩
  next hvar =>
    obtain ⟨⟨a, mid⟩, hread, h⟩ := Option.bind_eq_some_iff.1 h
    cases h
    obtain ⟨ps, hps⟩ := assignment_fitted hread hn
    exact ⟨_, .rule (.present (.right (.noRule (noWord hvar)) hps))⟩

theorem forCond_fitted : Fitted (Surface.Grammar.forCond n) (.rule .forCond) n := by
  intro ts rest cond h hn
  unfold Surface.Grammar.forCond at h
  split at h
  next place us =>
    cases h
    exact ⟨_, .rule (.absent (Barren.noExpr (by rintro _ ⟨⟩; rfl)))⟩
  next =>
    obtain ⟨⟨e, mid⟩, hread, h⟩ := Option.bind_eq_some_iff.1 h
    cases h
    obtain ⟨ps, hps⟩ := expr_fitted n hread hn
    exact ⟨_, .rule (.present hps)⟩

theorem forUpdate_fitted : Fitted (Surface.Grammar.forUpdate n) (.rule .forUpdate) n := by
  intro ts rest update h hn
  unfold Surface.Grammar.forUpdate at h
  split at h
  next place us =>
    cases h
    exact ⟨_, .rule (.absent (.noRule (.noFirst (noToken_cons rfl))))⟩
  next =>
    obtain ⟨⟨a, mid⟩, hread, h⟩ := Option.bind_eq_some_iff.1 h
    cases h
    obtain ⟨ps, hps⟩ := assignment_fitted hread hn
    exact ⟨_, .rule (.present hps)⟩

theorem forParts_fitted (hblock : Fitted block (.rule .block) n) {us vs ws xs ys zs rest : List Token}
    {init : Option Surface.Binding} {cond : Option Surface.Expr} {update : Option Surface.Assignment}
    {body : List Surface.Statement} (hopen : Surface.Grammar.expect .openParen ts = some us)
    (hinit : Surface.Grammar.forInit n us = some (init, vs))
    (hfirst : Surface.Grammar.expect .semicolon vs = some ws)
    (hcond : Surface.Grammar.forCond n ws = some (cond, xs))
    (hsecond : Surface.Grammar.expect .semicolon xs = some ys)
    (hupdate : Surface.Grammar.forUpdate n ys = some (update, zs)) {last : List Token}
    (hclose : Surface.Grammar.expect .closeParen zs = some last) (hbody : block last = some (body, rest))
    (hn : ts.length < n) : ∃ ps, Fits (.inOrder (.literal .openParen) [.rule .forInit, .literal .semicolon,
      .rule .forCond, .literal .semicolon, .rule .forUpdate, .literal .closeParen, .rule .block]) ts
      (some (ps, rest)) := by
  obtain ⟨opening, rfl⟩ := expect_eq_some hopen
  obtain ⟨first, rfl⟩ := expect_eq_some hfirst
  obtain ⟨second, rfl⟩ := expect_eq_some hsecond
  obtain ⟨closing, rfl⟩ := expect_eq_some hclose
  simp only [List.length_cons] at hn
  obtain ⟨ps, hps⟩ := forInit_fitted hinit (by omega)
  have hws := (hps.suffix _ _ rfl).length_le
  simp only [List.length_cons] at hws
  obtain ⟨qs, hqs⟩ := forCond_fitted hcond (by omega)
  have hys := (hqs.suffix _ _ rfl).length_le
  simp only [List.length_cons] at hys
  obtain ⟨rs, hrs⟩ := forUpdate_fitted hupdate (by omega)
  have hlast := (hrs.suffix _ _ rfl).length_le
  simp only [List.length_cons] at hlast
  obtain ⟨bs, hbs⟩ := hblock hbody (by omega)
  exact ⟨_, .seq (.literal (t := ⟨.openParen, opening⟩)) (.seq hps (.seq
    (.literal (t := ⟨.semicolon, first⟩)) (.seq hqs (.seq (.literal (t := ⟨.semicolon, second⟩)) (.seq hrs
    (.seq (.literal (t := ⟨.closeParen, closing⟩)) hbs))))))⟩

/-! Statements. -/

theorem statement_later {r : Option (List Pair × List Token)}
    (hword : ∀ w ∈ [.var, .ifWord, .whileWord, .forWord, .breakWord, .continueWord], ∀ place us,
      ts = ⟨.keyword w, place⟩ :: us → False)
    (h : Fits (.either (.seq (.rule .assign) (.literal .semicolon)) (.rule .exprStmt)) ts r) :
    Fits .statement ts r :=
  .right (.noFirst (.noRule (noWord (hword _ (by simp))))) <| .right (.noRule (noWord (hword _ (by simp)))) <|
    .right (.noRule (noWord (hword _ (by simp)))) <| .right (.noRule (noWord (hword _ (by simp)))) <|
    .right (.noRule (noWord (hword _ (by simp)))) <| .right (.noRule (noWord (hword _ (by simp)))) h

section

variable {us : List Token} {s : Surface.Statement} {word : List Char}

/-- The rules of the statements that begin with a word of their own, in the order that they are tried in. -/
def wordRules : List (Keyword × Symbol) :=
  [(.ifWord, .ifStmt), (.whileWord, .whileStmt), (.forWord, .forStmt), (.breakWord, .breakStmt),
    (.continueWord, .continueStmt)]

theorem statement_word {w : Keyword} (rule : Symbol) {ps : List Pair} (hw : (w, rule) ∈ wordRules)
    (h : Fits (.rule rule) (⟨.keyword w, word⟩ :: us) (some (ps, rest))) :
    Fits .statement (⟨.keyword w, word⟩ :: us) (some (ps, rest)) := by
  have other {v : Keyword} {f : Form} (hv : v ≠ w) :
      Fits (.seq (.word v) f) (⟨.keyword w, word⟩ :: us) none :=
    .noFirst (noToken_cons (beq_eq_false_iff_ne.2 hv))
  simp only [wordRules, List.mem_cons, List.not_mem_nil, or_false, Prod.mk.injEq] at hw
  rcases hw with ⟨rfl, rfl⟩ | ⟨rfl, rfl⟩ | ⟨rfl, rfl⟩ | ⟨rfl, rfl⟩ | ⟨rfl, rfl⟩ <;>
    refine .right (.noFirst (.noRule (other (by decide)))) ?_
  · exact .left h
  · exact .right (.noRule (other (by decide))) (.left h)
  · exact .right (.noRule (other (by decide))) (.right (.noRule (other (by decide))) (.left h))
  · exact .right (.noRule (other (by decide))) (.right (.noRule (other (by decide)))
      (.right (.noRule (other (by decide))) (.left h)))
  · exact .right (.noRule (other (by decide))) (.right (.noRule (other (by decide)))
      (.right (.noRule (other (by decide))) (.right (.noRule (other (by decide))) (.left h))))

theorem choice_fitted (hblock : Fitted block (.rule .block) n) (hn : us.length < n)
    (h : Surface.Grammar.statement n block (⟨.keyword .ifWord, word⟩ :: us) = some (s, rest)) :
    ∃ ps, Fits .statement (⟨.keyword .ifWord, word⟩ :: us) (some (ps, rest)) := by
  obtain ⟨⟨b, mid⟩, hread, h⟩ := Option.bind_eq_some_iff.1 h
  obtain ⟨⟨⟨bs, otherwise⟩, last⟩, hothers, h⟩ := Option.bind_eq_some_iff.1 h
  cases h
  obtain ⟨ps, hps⟩ := guarded_fitted hblock hread hn
  have hlength := (hps.suffix _ _ rfl).length_le
  obtain ⟨qs, after, rs, hqs, hrs⟩ := otherBranches_fitted hblock hothers (by omega) (by omega)
  exact ⟨_, statement_word .ifStmt (by simp [wordRules])
    (.rule (.seq (.token rfl) (.seq (.rule hps) (.seq hqs hrs))))⟩

theorem while_fitted (hblock : Fitted block (.rule .block) n) (hn : us.length < n)
    (h : Surface.Grammar.statement n block (⟨.keyword .whileWord, word⟩ :: us) = some (s, rest)) :
    ∃ ps, Fits .statement (⟨.keyword .whileWord, word⟩ :: us) (some (ps, rest)) := by
  obtain ⟨⟨b, mid⟩, hread, h⟩ := Option.bind_eq_some_iff.1 h
  cases h
  obtain ⟨ps, hps⟩ := guarded_fitted hblock hread hn
  exact ⟨_, statement_word .whileStmt (by simp [wordRules]) (.rule (.seq (.token rfl) hps))⟩

theorem for_fitted (hblock : Fitted block (.rule .block) n) (hn : us.length < n)
    (h : Surface.Grammar.statement n block (⟨.keyword .forWord, word⟩ :: us) = some (s, rest)) :
    ∃ ps, Fits .statement (⟨.keyword .forWord, word⟩ :: us) (some (ps, rest)) := by
  obtain ⟨vs, hopen, h⟩ := Option.bind_eq_some_iff.1 h
  obtain ⟨⟨init, ws⟩, hinit, h⟩ := Option.bind_eq_some_iff.1 h
  obtain ⟨xs, hfirst, h⟩ := Option.bind_eq_some_iff.1 h
  obtain ⟨⟨cond, ys⟩, hcond, h⟩ := Option.bind_eq_some_iff.1 h
  obtain ⟨zs, hsecond, h⟩ := Option.bind_eq_some_iff.1 h
  obtain ⟨⟨update, as⟩, hupdate, h⟩ := Option.bind_eq_some_iff.1 h
  obtain ⟨bs, hclose, h⟩ := Option.bind_eq_some_iff.1 h
  obtain ⟨⟨body, last⟩, hbody, h⟩ := Option.bind_eq_some_iff.1 h
  cases h
  obtain ⟨ps, hps⟩ := forParts_fitted hblock hopen hinit hfirst hcond hsecond hupdate hclose hbody hn
  exact ⟨_, statement_word .forStmt (by simp [wordRules]) (.rule (.seq (.token rfl) hps))⟩

theorem jump_fitted (j : Surface.Jump)
    (h : Surface.Grammar.statement n block (⟨.keyword j.word, word⟩ :: us) = some (s, rest)) :
    ∃ ps, Fits .statement (⟨.keyword j.word, word⟩ :: us) (some (ps, rest)) := by
  have hend : Surface.Grammar.expect .semicolon us = some rest := by
    cases j <;>
    · obtain ⟨last, hend, h⟩ := Option.bind_eq_some_iff.1 h
      cases h
      exact hend
  obtain ⟨semicolon, rfl⟩ := expect_eq_some hend
  have hw : (j.word, jumpSymbol j) ∈ wordRules := by
    cases j <;> simp [wordRules, jumpSymbol, Surface.Jump.word]
  have hj : ∃ ps, Fits (jumpSymbol j).form (⟨.keyword j.word, word⟩ :: ⟨.semicolon, semicolon⟩ :: rest)
      (some (ps, rest)) := by
    cases j <;> exact ⟨_, .seq (.token rfl) (.literal (t := ⟨.semicolon, semicolon⟩))⟩
  obtain ⟨ps, hps⟩ := hj
  exact ⟨_, statement_word (jumpSymbol j) hw (.rule hps)⟩

end

theorem statement_fitted (hblock : Fitted block (.rule .block) n) :
    Fitted (Surface.Grammar.statement n block) .statement n := by
  intro ts rest s h hn
  have hall := h
  unfold Surface.Grammar.statement at h
  split at h
  next word us =>
    obtain ⟨⟨b, mid⟩, hread, h⟩ := Option.bind_eq_some_iff.1 h
    obtain ⟨last, hend, h⟩ := Option.bind_eq_some_iff.1 h
    cases h
    obtain ⟨semicolon, rfl⟩ := expect_eq_some hend
    obtain ⟨ps, hps⟩ := declaration_fitted hread (Nat.lt_of_succ_lt hn) word
    exact ⟨_, .left (.seq hps (.literal (t := ⟨.semicolon, semicolon⟩)))⟩
  next => exact choice_fitted hblock (Nat.lt_of_succ_lt hn) hall
  next => exact while_fitted hblock (Nat.lt_of_succ_lt hn) hall
  next => exact for_fitted hblock (Nat.lt_of_succ_lt hn) hall
  next => exact jump_fitted .exitLoop hall
  next => exact jump_fitted .nextRound hall
  next x spot op set us =>
    obtain ⟨⟨a, mid⟩, hread, h⟩ := Option.bind_eq_some_iff.1 h
    obtain ⟨last, hend, h⟩ := Option.bind_eq_some_iff.1 h
    cases h
    obtain ⟨semicolon, rfl⟩ := expect_eq_some hend
    obtain ⟨ps, hps⟩ := assignment_fitted hread hn
    exact ⟨_, statement_later (by simp) (.left (.seq hps (.literal (t := ⟨.semicolon, semicolon⟩))))⟩
  next hvar hif hwhile hfor hbreak hcontinue hassign =>
    obtain ⟨⟨e, mid⟩, hread, h⟩ := Option.bind_eq_some_iff.1 h
    obtain ⟨last, hend, h⟩ := Option.bind_eq_some_iff.1 h
    cases h
    obtain ⟨semicolon, rfl⟩ := expect_eq_some hend
    obtain ⟨ps, hps⟩ := expr_fitted n hread hn
    refine ⟨_, statement_later ?_ (.right (.noFirst (noAssign hassign))
      (.rule (.seq hps (.literal (t := ⟨.semicolon, semicolon⟩)))))⟩
    simp only [List.mem_cons, List.not_mem_nil, or_false]
    rintro w (rfl | rfl | rfl | rfl | rfl | rfl) <;> assumption

theorem noStatement (h : Closed ts) : Fits .statement ts none := by
  have hword (w : Keyword) (place : List Char) (us : List Token) (hts : ts = ⟨.keyword w, place⟩ :: us) :
      False := by
    rcases h with rfl | ⟨_, _, rfl⟩ <;> cases hts
  refine statement_later (fun w _ => hword w) (.right (.noFirst (noAssign ?_)) (.noRule (.noFirst ?_)))
  · intro x place op set us hts
    rcases h with rfl | ⟨_, _, rfl⟩ <;> cases hts
  · refine Barren.noExpr fun t ht => ?_
    rcases h with rfl | ⟨_, _, rfl⟩
    · cases ht
    · cases ht
      rfl

theorem block_fitted (h : Fitted (statements n) (.many .statement) n) :
    Fitted (inBraces (statements n)) (.rule .block) (n + 1) := by
  intro ts rest ss hread hn
  obtain ⟨us, hopen, hread⟩ := Option.bind_eq_some_iff.1 hread
  obtain ⟨⟨body, mid⟩, hbody, hread⟩ := Option.bind_eq_some_iff.1 hread
  obtain ⟨last, hclose, hread⟩ := Option.bind_eq_some_iff.1 hread
  cases hread
  obtain ⟨opening, rfl⟩ := expect_eq_some hopen
  obtain ⟨closing, rfl⟩ := expect_eq_some hclose
  obtain ⟨ps, hps⟩ := h hbody (Nat.lt_of_succ_lt_succ hn)
  exact ⟨_, .rule (.seq (.literal (t := ⟨.openBrace, opening⟩)) (.seq hps
    (.literal (t := ⟨.closeBrace, closing⟩))))⟩

theorem statements_fitted (n : Nat) : Fitted (statements n) (.many .statement) n := by
  induction n with
  | zero => exact fun _ _ _ _ hn => absurd hn (Nat.not_lt_zero _)
  | succ n ih =>
    intro ts rest ss h hn
    unfold statements at h
    split at h
    next =>
      cases h
      exact ⟨[], .stop (noStatement (.inl rfl))⟩
    next place us =>
      cases h
      exact ⟨[], .stop (noStatement (.inr ⟨place, us, rfl⟩))⟩
    next =>
      obtain ⟨⟨s, mid⟩, hread, h⟩ := Option.bind_eq_some_iff.1 h
      obtain ⟨⟨more, last⟩, hmore, h⟩ := Option.bind_eq_some_iff.1 h
      cases h
      obtain ⟨ps, hps⟩ := statement_fitted (block_fitted ih) hread hn
      have hlength := shorter_of_statement hps
      obtain ⟨qs, hqs⟩ := ih hmore (by omega)
      exact ⟨_, .more hps hqs⟩

/-- A text that is read is one of the grammar. -/
theorem grammatical_of_read {text : List Char} {ss : List Surface.Statement}
    (h : Surface.Grammar.read? text = some ss) : ∃ pairs, Grammatical text pairs := by
  obtain ⟨tokens, hscan, h⟩ := Option.bind_eq_some_iff.1 h
  obtain ⟨⟨body, rest⟩, hread, h⟩ := Option.bind_eq_some_iff.1 h
  obtain ⟨ps, hps⟩ := statements_fitted _ hread (Nat.lt_succ_self _)
  cases rest with
  | nil => exact ⟨_, tokens, hscan, .rule (.seq hps .ending)⟩
  | cons t rest => cases h

end ScopeBlocks.Script.Rules
