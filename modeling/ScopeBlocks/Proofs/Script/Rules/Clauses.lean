import ScopeBlocks.Proofs.Script.ReadingStatements
import ScopeBlocks.Proofs.Script.Rules.Expressions

/-! The parts of statements by their rules: declarations and assignments, conditions with the blocks that they
guard, the branches of a choice and the clauses of a counting loop. What fits the rule of such a part is read
as that part, and what is built from its pairs is what is checked of it. -/
namespace ScopeBlocks.Script.Rules

open Surface.Grammar (Follows EndsBranch follows_semicolon follows_closeParen guarded otherBranches)

variable {source : List Char} {n m : Nat} {ts rest : List Token} {ps : List Pair} {place : List Char}

theorem Pair.part_inner (p : Pair) : (p.part source).inner = partsOf source p.inner := by
  rw [part_eq]

theorem significant_word {w : Keyword} (hw : (Symbol.keyword w).isStructural = true) (t : Token)
    (parts : List Part) :
    significant ((Pair.ofToken (.keyword w) t).part source :: parts) = significant parts := by
  rw [significant, List.filter_cons_of_neg]
  · rfl
  · simp [Pair.ofToken, hw]

theorem significant_cons {p : Pair} (hp : p.symbol.isStructural = false) (parts : List Part) :
    significant (p.part source :: parts) = p.part source :: significant parts := by
  rw [significant, List.filter_cons_of_pos]
  · rfl
  · simp [hp]

theorem word_uses (w : Keyword) (place : List Char) (loops : Nat) :
    (Pair.ofToken (.keyword w) ⟨.keyword w, place⟩).uses loops = [] :=
  ofToken_uses (t := ⟨.keyword w, place⟩) (by exact beq_self_eq_true w) (by rintro ⟨⟩) loops

theorem expr_reads (source : List Char) (h : Fits .expr ts (some (ps, rest))) (hg : Genuine ts)
    (hn : ts.length < n) (hf : Follows 8 rest) :
    ∃ p e, ps = [p] ∧ p.symbol = .chain .or ∧ Surface.Grammar.expr n ts = some (e, rest) ∧
      p.Means source e := by
  obtain ⟨p, e, rfl, hread, hmeans⟩ := expr_readAs source n h hg hn hf
  obtain ⟨_, -, hp⟩ := fits_rule.1 h
  exact ⟨p, e, rfl, by rw [(List.cons.inj hp).1], hread, hmeans⟩

/-- What at most one pair stands for. -/
inductive Optionally {α : Type} (means : Pair → α → Prop) : List Pair → Option α → Prop
  | absent : Optionally means [] none
  | present {p : Pair} {x : α} (h : means p x) : Optionally means [p] (some x)

theorem Optionally.usesIn_eq {α : Type} {means : Pair → α → Prop} {ps : List Pair} {x : Option α}
    {uses : α → List Use} {loops : Nat} (h : Optionally means ps x)
    (huses : ∀ p a, means p a → p.uses loops = uses a) :
    usesIn loops ps = Surface.usesOf uses x := by
  cases h with
  | absent => exact usesIn_nil loops
  | present h => rw [usesIn_cons, huses _ _ h, usesIn_nil, List.append_nil]; rfl

/-! Declarations and assignments. -/

/-- What a pair stands for as a binding. -/
structure Pair.Binds (source : List Char) (p : Pair) (b : Surface.Binding) : Prop where
  built : bindingOf source (p.part source) = lift (b.check source)
  uses : ∀ loops, p.uses loops = b.uses

/-- What a pair stands for as an assignment. -/
structure Pair.Assigns (source : List Char) (p : Pair) (a : Surface.Assignment) : Prop where
  built : p.assignmentOf source (partsOf source p.inner) = lift (a.check source)
  uses : ∀ loops, p.uses loops = a.uses
  symbol : p.symbol = .assign

theorem Pair.Assigns.binds {p : Pair} {a : Surface.Assignment} (h : p.Assigns source a) :
    p.Binds source (.assign a) where
  built := by
    rw [bindingOf, Pair.part_pair, Pair.part_inner, h.symbol, if_neg (by rintro ⟨⟩), h.built,
      Surface.Binding.check, lift_map]
  uses := h.uses

theorem initialValue_reads (source : List Char)
    (h : Fits (.maybe (.seq (.literal (.assign .set)) .expr)) ts (some (ps, ⟨.semicolon, place⟩ :: rest)))
    (hg : Genuine ts) (hn : ts.length < n) :
    ∃ e, Surface.Grammar.initialValue n ts = some (e, ⟨.semicolon, place⟩ :: rest) ∧
      Optionally (fun p e => p.symbol = .chain .or ∧ p.Means source e) ps e := by
  rcases fits_maybe.1 h with h | ⟨-, rfl, rfl⟩
  · obtain ⟨_, us, _, hset, hexpr, rfl⟩ := fits_seq.1 h
    obtain ⟨set, rfl, rfl⟩ := fits_literal.1 hset
    simp only [List.length_cons] at hn
    obtain ⟨p, e, rfl, hp, hread, hmeans⟩ := expr_reads source hexpr hg.tail (n := n) (by omega)
      (follows_semicolon place rest)
    refine ⟨some e, ?_, .present ⟨hp, hmeans⟩⟩
    simp only [Surface.Grammar.initialValue, hread]
    rfl
  · exact ⟨none, rfl, .absent⟩

theorem declaration_reads (source : List Char)
    (h : Fits (.rule .varBinding) ts (some (ps, ⟨.semicolon, place⟩ :: rest)))
    (hg : Genuine ts) (hn : ts.length < n) : ∃ p b word us, ps = [p] ∧ p.symbol = .varBinding ∧
      ts = ⟨.keyword .var, word⟩ :: us ∧
      Surface.Grammar.declaration n us = some (b, ⟨.semicolon, place⟩ :: rest) ∧ p.Binds source b := by
  obtain ⟨_, hfits, rfl⟩ := fits_rule.1 h
  simp only [Symbol.form, Form.inOrder, fits_seq, fits_word, fits_ident] at hfits
  obtain ⟨_, _, _, ⟨word, rfl, rfl⟩, ⟨_, us, init, ⟨x, spot, rfl, rfl⟩, hinit, rfl⟩, rfl⟩ := hfits
  obtain ⟨c, hc⟩ := hg.tail _ List.mem_cons_self
  simp only [List.length_cons] at hn
  obtain ⟨e, hread, hmeans⟩ := initialValue_reads source hinit hg.tail.tail (n := n) (by omega)
  refine ⟨_, .declare ⟨x, spot⟩ e, word, _, rfl, rfl, rfl, ?_, ?_, fun loops => ?_⟩
  · simp only [Surface.Grammar.declaration, Surface.Grammar.name, hread, Option.bind_eq_bind,
      Option.bind_some]
    rfl
  · rw [bindingOf, Pair.part_pair, Pair.part_inner, if_pos rfl]
    simp only [List.cons_append, List.nil_append, partsOf_cons, Pair.declarationOf]
    rw [significant_word rfl, significant_cons rfl]
    simp only [Pair.part_pair, bindingName_ofToken hc, Surface.Binding.check, lift_bind]
    cases hmeans with
    | absent =>
      rw [partsOf_nil]
      rfl
    | @present p e hvalue =>
      have hplain : p.symbol.isStructural = false := by
        rw [hvalue.1]
        rfl
      rw [partsOf_cons, significant_cons hplain]
      simp only [hvalue.2.built, Surface.Expr.check?, lift_bind, bind_assoc]
      rfl
  · rw [uses_plain (by simp)]
    simp only [usesIn_append, usesIn_cons, usesIn_nil, word_uses, ident_uses hc,
      hmeans.usesIn_eq fun p e h => h.2.uses loops]
    rfl

theorem assignment_reads (source : List Char) (h : Fits (.rule .assign) ts (some (ps, rest))) (hg : Genuine ts)
    (hn : ts.length < n) (hf : Follows 8 rest) : ∃ p a x spot op set us, ps = [p] ∧
      ts = ⟨.name x, spot⟩ :: ⟨.assign op, set⟩ :: us ∧
      Surface.Grammar.assignment n ts = some (a, rest) ∧ p.Assigns source a := by
  obtain ⟨_, hfits, rfl⟩ := fits_rule.1 h
  simp only [Symbol.form, Form.inOrder, fits_seq, fits_ident] at hfits
  obtain ⟨_, _, _, ⟨x, spot, rfl, rfl⟩, ⟨_, us, _, hop, hexpr, rfl⟩, rfl⟩ := hfits
  obtain ⟨op, set, rfl, rfl⟩ : ∃ op set, _ = ⟨.assign op, set⟩ :: us ∧
      _ = [Pair.ofToken .assignOp ⟨.assign op, set⟩] := by
    obtain ⟨⟨l, set⟩, hl, hts, hqs⟩ := fits_token.1 hop
    cases l with
    | assign op => exact ⟨op, set, hts, hqs⟩
    | _ => cases hl
  obtain ⟨c, hc⟩ := hg _ List.mem_cons_self
  obtain ⟨d, hd⟩ := hg.tail _ List.mem_cons_self
  simp only [List.length_cons] at hn
  obtain ⟨p, e, rfl, -, hread, hmeans⟩ := expr_reads source hexpr hg.tail.tail (n := n) (by omega) hf
  have hsign : AssignOp.ofText (Pair.ofToken .assignOp ⟨.assign op, set⟩).string = op := by
    rw [Pair.string, Pair.ofToken, show String.ofList _ = _ from chars_mark hd rfl]
    cases op <;> rfl
  refine ⟨_, ⟨⟨x, spot⟩, op, e⟩, x, spot, op, set, us, rfl, rfl, ?_, ?_, fun loops => ?_, rfl⟩
  · simp only [Surface.Grammar.assignment, hread]
    rfl
  · simp only [List.cons_append, List.nil_append, partsOf_cons, partsOf_nil, Pair.assignmentOf,
      Pair.part_pair, bindingName_ofToken hc, hmeans.built, hsign, Surface.Assignment.check, lift_bind]
    rfl
  · rw [uses_plain (by simp)]
    simp only [usesIn_append, usesIn_cons, usesIn_nil, ident_uses hc, hmeans.uses,
      ofToken_uses (t := ⟨.assign op, set⟩) (s := .assignOp) rfl (by rintro ⟨⟩), List.append_nil,
      List.nil_append]
    rfl

/-! Blocks with a condition. -/

/-- What a pair stands for as a block, in so many loops. -/
structure Pair.Encloses (source : List Char) (p : Pair) (ss : List Surface.Statement) : Prop where
  built : ∀ loops, (p.part source).block loops = lift (Surface.Statement.checkAll source (loops != 0) ss)
  uses : ∀ loops, p.uses loops = Surface.Statement.usesAll loops ss
  symbol : p.symbol = .block

def BlockReads (source : List Char) (r : Surface.Grammar.Rule (List Surface.Statement)) (n : Nat) : Prop :=
  ∀ ⦃ts rest : List Token⦄ ⦃ps : List Pair⦄, Fits (.rule .block) ts (some (ps, rest)) → Genuine ts →
    ts.length < n → ∃ p ss, ps = [p] ∧ r ts = some (ss, rest) ∧ p.Encloses source ss

variable {block : Surface.Grammar.Rule (List Surface.Statement)}

/-- A condition in parentheses and the block that it guards. -/
structure Guards (source : List Char) (ps : List Pair) (cond : Surface.Expr)
    (body : List Surface.Statement) : Prop where
  built : ∀ loops (p : Pair), p.guardOf source loops (significant (partsOf source ps)) =
    lift (cond.check source) >>= fun c =>
      lift (Surface.Statement.checkAll source (loops != 0) body) >>= fun b => pure (c, b)
  uses : ∀ loops, usesIn loops ps = cond.uses ++ Surface.Statement.usesAll loops body
  plain : significant (partsOf source ps) = partsOf source ps

theorem guard_reads (hblock : BlockReads source block n)
    (h : Fits (.inOrder (.literal .openParen) [.expr, .literal .closeParen, .rule .block]) ts
      (some (ps, rest))) (hg : Genuine ts) (hn : ts.length < n) :
    ∃ cond body, guarded n block ts = some ((cond, body), rest) ∧ Guards source ps cond body := by
  simp only [Form.inOrder, fits_seq, fits_literal] at h
  obtain ⟨_, _, _, ⟨_, rfl, rfl⟩, ⟨_, us, _, hcond, ⟨_, vs, _, ⟨close, rfl, rfl⟩, hbody, rfl⟩, rfl⟩, rfl⟩ := h
  simp only [List.length_cons] at hn
  have hsuffix := hcond.suffix _ _ rfl
  have hlength := hsuffix.length_le
  simp only [List.length_cons] at hlength
  obtain ⟨p, cond, rfl, hp, hread, hmeans⟩ := expr_reads source hcond hg.tail (n := n) (by omega)
    (follows_closeParen close vs)
  obtain ⟨q, body, rfl, hreads, hencloses⟩ := hblock hbody (hg.tail.of_suffix hsuffix).tail (by omega)
  have hplain : significant (partsOf source [p, q]) = partsOf source [p, q] := by
    simp only [partsOf_cons, partsOf_nil]
    rw [significant_cons (by rw [hp]; rfl), significant_cons (by rw [hencloses.symbol]; rfl)]
    rfl
  refine ⟨cond, body, ?_, fun loops p => ?_, fun loops => ?_, hplain⟩
  · simp only [guarded, Surface.Grammar.expect, if_true, Option.bind_eq_bind, Option.bind_some, hread, hreads]
    rfl
  · show Pair.guardOf source p loops (significant (partsOf source [_, q])) = _
    rw [hplain]
    simp only [partsOf_cons, Pair.guardOf, hmeans.built, hencloses.built]
  · show usesIn loops [p, q] = _
    rw [usesIn_cons, usesIn_cons, usesIn_nil, hmeans.uses, hencloses.uses, List.append_nil]

/-! Choices. -/

/-- What the pairs of the further branches of a choice stand for. -/
structure Branches (source : List Char) (ps : List Pair)
    (branches : List (Surface.Expr × List Surface.Statement))
    (otherwise : Option (List Surface.Statement)) : Prop where
  built : ∀ loops, branchesOf source loops (significant (partsOf source ps)) =
    lift (Surface.Statement.checkBranches source (loops != 0) branches) >>= fun bs =>
      lift (Surface.Statement.checkOtherwise source (loops != 0) otherwise) >>= fun o => pure (bs, o)
  uses : ∀ loops, usesIn loops ps = Surface.Statement.branchUses loops branches ++
    Surface.Statement.otherwiseUses loops otherwise

theorem Branches.cons {p : Pair} {branches : List (Surface.Expr × List Surface.Statement)}
    {otherwise : Option (List Surface.Statement)} {cond : Surface.Expr} {body : List Surface.Statement}
    (hp : p.symbol = .condBlock) (hfirst : Guards source p.inner cond body)
    (h : Branches source ps branches otherwise) :
    Branches source (p :: ps) ((cond, body) :: branches) otherwise where
  built loops := by
    have hguard := hfirst.built loops p
    rw [hfirst.plain] at hguard
    rw [partsOf_cons, significant_cons (by rw [hp]; rfl), branchesOf]
    simp only [Pair.part_pair, Pair.part_inner, hp, hguard, h.built, Surface.Statement.checkBranches,
      lift_bind, bind_assoc]
    rfl
  uses loops := by
    rw [usesIn_cons, uses_plain (by simp [hp]), hfirst.uses, h.uses, Surface.Statement.branchUses]
    simp only [List.append_assoc]

theorem Branches.word {w : Keyword} (hw : (Symbol.keyword w).isStructural = true) (place : List Char)
    {branches : List (Surface.Expr × List Surface.Statement)} {otherwise : Option (List Surface.Statement)}
    (h : Branches source ps branches otherwise) :
    Branches source (.ofToken (.keyword w) ⟨.keyword w, place⟩ :: ps) branches otherwise where
  built loops := by rw [partsOf_cons, significant_word hw, h.built]
  uses loops := by rw [usesIn_cons, word_uses, h.uses, List.nil_append]

theorem otherwise_reads (hblock : BlockReads source block n)
    (h : Fits (.maybe (.rule .elseClause)) ts (some (ps, rest))) (hg : Genuine ts) (hn : ts.length < n)
    (hrest : EndsBranch rest) :
    ∃ last, (∀ m, otherBranches n block m ts = some (([], last), rest)) ∧ Branches source ps [] last := by
  rcases fits_maybe.1 h with h | ⟨-, rfl, rfl⟩
  · obtain ⟨_, hfits, rfl⟩ := fits_rule.1 h
    simp only [Symbol.form, fits_seq, fits_word] at hfits
    obtain ⟨_, us, _, ⟨word, rfl, rfl⟩, hbody, rfl⟩ := hfits
    simp only [List.length_cons] at hn
    obtain ⟨p, body, rfl, hread, hencloses⟩ := hblock hbody hg.tail (by omega)
    obtain ⟨brace, vs, rfl⟩ : ∃ brace vs, us = ⟨.openBrace, brace⟩ :: vs := by
      obtain ⟨_, hfits, -⟩ := fits_rule.1 hbody
      simp only [Symbol.form, Form.inOrder, fits_seq, fits_literal] at hfits
      obtain ⟨_, _, _, ⟨brace, rfl, -⟩, -⟩ := hfits
      exact ⟨brace, _, rfl⟩
    refine ⟨some body, fun m => ?_, fun loops => ?_, fun loops => ?_⟩
    · cases m <;> simp only [otherBranches, hread] <;> rfl
    · rw [partsOf_cons, partsOf_nil, significant_cons rfl, branchesOf]
      simp only [Pair.part_pair, Pair.part_inner, List.cons_append, List.nil_append, partsOf_cons, partsOf_nil]
      rw [significant_word rfl, significant_cons (by rw [hencloses.symbol]; rfl)]
      simp only [hencloses.built, Surface.Statement.checkBranches, Surface.Statement.checkOtherwise, lift_bind]
      cases Surface.Statement.checkAll source (loops != 0) body <;> rfl
    · rw [usesIn_cons, uses_plain (by simp)]
      simp only [List.cons_append, List.nil_append, usesIn_cons, usesIn_nil, word_uses, hencloses.uses,
        List.append_nil]
      rfl
  · refine ⟨none, fun m => ?_, fun loops => ?_, fun loops => ?_⟩
    · cases rest with
      | nil => cases m <;> rfl
      | cons t rest =>
        obtain ⟨l, p⟩ := t
        have helse := hrest ⟨l, p⟩ rfl
        cases l with
        | keyword w =>
          cases w with
          | elseWord => exact absurd rfl helse
          | _ => cases m <;> rfl
        | _ => cases m <;> rfl
    · rw [partsOf_nil]
      rfl
    · rw [usesIn_nil]
      rfl

theorem branches_read (hblock : BlockReads source block n) {mid : List Token} {qs : List Pair}
    (h : Repeats (.inOrder (.word .elseWord) [.word .ifWord, .rule .condBlock]) ts ps mid)
    (hlast : Fits (.maybe (.rule .elseClause)) mid (some (qs, rest))) (hg : Genuine ts)
    (hn : ts.length < n) (hm : ts.length ≤ m) (hrest : EndsBranch rest) :
    ∃ branches last, otherBranches n block m ts = some ((branches, last), rest) ∧
      Branches source (ps ++ qs) branches last := by
  induction h generalizing m with
  | none ts =>
    obtain ⟨last, hread, hbranches⟩ := otherwise_reads hblock hlast hg hn hrest
    exact ⟨[], last, hread m, hbranches⟩
  | more h again ih =>
    simp only [Form.inOrder, fits_seq, fits_word] at h
    obtain ⟨_, _, _, ⟨other, rfl, rfl⟩, ⟨_, us, _, ⟨word, rfl, rfl⟩, hguard, rfl⟩, rfl⟩ := h
    obtain ⟨inner, hinner, rfl⟩ := fits_rule.1 hguard
    have hsuffix := hinner.suffix _ _ rfl
    have hlength := hsuffix.length_le
    simp only [List.length_cons] at hn hm
    obtain ⟨m, rfl⟩ : ∃ i, m = i + 1 := ⟨m - 1, by omega⟩
    obtain ⟨cond, body, hread, hguards⟩ := guard_reads hblock hinner hg.tail.tail (by omega)
    obtain ⟨branches, last, hreads, hbranches⟩ := ih hlast (hg.tail.tail.of_suffix hsuffix) (m := m)
      (by omega) (by omega)
    refine ⟨(cond, body) :: branches, last, ?_, ((hbranches.cons rfl hguards).word rfl word).word rfl other⟩
    simp only [otherBranches, hread, hreads, Option.bind_eq_bind, Option.bind_some]
    rfl

/-! Counting loops. -/

theorem forInit_reads (source : List Char)
    (h : Fits (.rule .forInit) ts (some (ps, ⟨.semicolon, place⟩ :: rest)))
    (hg : Genuine ts) (hn : ts.length < n) :
    ∃ p init, ps = [p] ∧ p.symbol = .forInit ∧
      Surface.Grammar.forInit n ts = some (init, ⟨.semicolon, place⟩ :: rest) ∧
      Optionally (fun p b => p.Binds source b) p.inner init := by
  obtain ⟨inner, hfits, rfl⟩ := fits_rule.1 h
  rcases fits_maybe.1 hfits with hfits | ⟨-, rfl, rfl⟩
  · rcases fits_either.1 hfits with hfits | ⟨-, hfits⟩
    · obtain ⟨p, b, word, us, rfl, -, rfl, hread, hbinds⟩ := declaration_reads source hfits hg hn
      refine ⟨_, some b, rfl, rfl, ?_, .present hbinds⟩
      simp only [Surface.Grammar.forInit, hread]
      rfl
    · obtain ⟨p, a, x, spot, op, set, us, rfl, rfl, hread, hassigns⟩ := assignment_reads source
        hfits hg hn (follows_semicolon place rest)
      refine ⟨_, some (.assign a), rfl, rfl, ?_, .present hassigns.binds⟩
      simp only [Surface.Grammar.forInit, hread]
      rfl
  · exact ⟨_, none, rfl, rfl, rfl, .absent⟩

theorem forCond_reads (source : List Char)
    (h : Fits (.rule .forCond) ts (some (ps, ⟨.semicolon, place⟩ :: rest)))
    (hg : Genuine ts) (hn : ts.length < n) :
    ∃ p cond, ps = [p] ∧ p.symbol = .forCond ∧
      Surface.Grammar.forCond n ts = some (cond, ⟨.semicolon, place⟩ :: rest) ∧
      Optionally (fun p e => p.Means source e) p.inner cond := by
  obtain ⟨inner, hfits, rfl⟩ := fits_rule.1 h
  rcases fits_maybe.1 hfits with hfits | ⟨-, rfl, rfl⟩
  · obtain ⟨p, e, rfl, -, hread, hmeans⟩ := expr_reads source hfits hg hn (follows_semicolon place rest)
    refine ⟨_, some e, rfl, rfl, ?_, .present hmeans⟩
    obtain ⟨⟨l, spot⟩, us, rfl, hstarts⟩ := starts_of_read hread
    cases l with
    | semicolon => cases hstarts
    | _ =>
      simp only [Surface.Grammar.forCond, hread]
      rfl
  · exact ⟨_, none, rfl, rfl, rfl, .absent⟩

theorem forUpdate_reads (source : List Char)
    (h : Fits (.rule .forUpdate) ts (some (ps, ⟨.closeParen, place⟩ :: rest)))
    (hg : Genuine ts) (hn : ts.length < n) :
    ∃ p update, ps = [p] ∧ p.symbol = .forUpdate ∧
      Surface.Grammar.forUpdate n ts = some (update, ⟨.closeParen, place⟩ :: rest) ∧
      Optionally (fun p a => p.Assigns source a) p.inner update := by
  obtain ⟨inner, hfits, rfl⟩ := fits_rule.1 h
  rcases fits_maybe.1 hfits with hfits | ⟨-, rfl, rfl⟩
  · obtain ⟨p, a, x, spot, op, set, us, rfl, rfl, hread, hassigns⟩ := assignment_reads source
      hfits hg hn (follows_closeParen place rest)
    refine ⟨_, some a, rfl, rfl, ?_, .present hassigns⟩
    simp only [Surface.Grammar.forUpdate, hread]
    rfl
  · exact ⟨_, none, rfl, rfl, rfl, .absent⟩

theorem clauseOf_init {p : Pair} {init : Option Surface.Binding} (hp : p.symbol = .forInit)
    (h : Optionally (fun p b => p.Binds source b) p.inner init) (loops : Nat) (cond : Option Expr)
    (update : Option Assignment) (body : Option (List Statement)) :
    clauseOf source loops ⟨none, cond, update, body⟩ (p.part source) =
      lift (Surface.Binding.check? source init) >>= fun i => pure ⟨i, cond, update, body⟩ := by
  rw [clauseOf, Pair.part_pair, Pair.part_inner, hp]
  generalize p.inner = inner at h
  cases h with
  | absent =>
    rw [partsOf_nil]
    rfl
  | present h =>
    simp only [partsOf_cons, h.built, Surface.Binding.check?, lift_bind, bind_assoc]
    rfl

theorem clauseOf_cond {p : Pair} {cond : Option Surface.Expr} (hp : p.symbol = .forCond)
    (h : Optionally (fun p e => p.Means source e) p.inner cond) (loops : Nat) (init : Option Binding)
    (update : Option Assignment) (body : Option (List Statement)) :
    clauseOf source loops ⟨init, none, update, body⟩ (p.part source) =
      lift (Surface.Expr.check? source cond) >>= fun c => pure ⟨init, c, update, body⟩ := by
  rw [clauseOf, Pair.part_pair, Pair.part_inner, hp]
  generalize p.inner = inner at h
  cases h with
  | absent =>
    rw [partsOf_nil]
    rfl
  | present h =>
    simp only [partsOf_cons, h.built, Surface.Expr.check?, lift_bind, bind_assoc]
    rfl

theorem clauseOf_update {p : Pair} {update : Option Surface.Assignment} (hp : p.symbol = .forUpdate)
    (h : Optionally (fun p a => p.Assigns source a) p.inner update) (loops : Nat) (init : Option Binding)
    (cond : Option Expr) (body : Option (List Statement)) :
    clauseOf source loops ⟨init, cond, none, body⟩ (p.part source) =
      lift (Surface.Assignment.check? source update) >>= fun u => pure ⟨init, cond, u, body⟩ := by
  rw [clauseOf, Pair.part_pair, Pair.part_inner, hp]
  generalize p.inner = inner at h
  cases h with
  | absent =>
    rw [partsOf_nil]
    rfl
  | present h =>
    simp only [partsOf_cons, Pair.part_pair, Pair.part_inner, h.built, Surface.Assignment.check?, lift_bind,
      bind_assoc]
    rfl

theorem clauseOf_body {p : Pair} {body : List Surface.Statement} (h : p.Encloses source body) (loops : Nat)
    (init : Option Binding) (cond : Option Expr) (update : Option Assignment) :
    clauseOf source loops ⟨init, cond, update, none⟩ (p.part source) =
      lift (Surface.Statement.checkAll source true body) >>= fun b =>
        pure ⟨init, cond, update, some b⟩ := by
  rw [clauseOf, Pair.part_pair, h.symbol, h.built]
  rfl

end ScopeBlocks.Script.Rules
