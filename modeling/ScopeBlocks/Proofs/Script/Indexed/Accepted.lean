import ScopeBlocks.Proofs.Script.Indexed.Filling
import ScopeBlocks.Proofs.Script.Placed

/-! The tables of whole scripts. Those of a text that is accepted are sound, the script stands in them, and
every jump stands in the body of a loop. -/
namespace ScopeBlocks.Script.Indexed

theorem Tables.sound_empty : Tables.empty.Sound := by
  refine ⟨Nat.zero_lt_one, @fun k ids h => ?_, nofun, nofun⟩
  cases k with
  | zero =>
    cases h
    nofun
  | succ k => cases h

theorem built_program (source : List Char) (body : List Surface.Statement) :
    match Surface.Statement.checkAll source false body with
      | .error e => (Build.fill source false 0 body .empty).map (·.2) = .error e
      | .ok program => ∃ t, (Build.fill source false 0 body .empty).map (·.2) = .ok t ∧
          t.Sound ∧ BlockAt t program 0 := by
  have hbuilt := @built_fill source false body .empty 0 [] rfl
  unfold Built at hbuilt
  generalize Surface.Statement.checkAll source false body = r at hbuilt ⊢
  cases r with
  | error e =>
    dsimp only at hbuilt ⊢
    rw [hbuilt]
    rfl
  | ok program =>
    obtain ⟨_, t, ht, -, hsound, hblock⟩ := hbuilt
    exact ⟨t, by rw [ht]; rfl, hsound Tables.sound_empty, by simpa [BlockAt] using hblock⟩

theorem parse_error {text : String} {e : ParseError} (h : Script.parse text = .error e) :
    parse text = .error e := by
  simp only [Script.parse] at h
  simp only [parse]
  cases hread : Surface.Grammar.read? text.toList with
  | some body =>
    have hbuilt := built_program text.toList body
    simp only [hread] at h
    rw [h] at hbuilt
    exact hbuilt
  | none =>
    simp only [hread] at h
    cases h
    rfl

/-- The tables of a text that is accepted are sound, and the script stands in them. -/
theorem parse_ok {text : String} {program : Program} (h : Script.parse text = .ok program) :
    ∃ t, parse text = .ok t ∧ t.Sound ∧ BlockAt t program 0 := by
  simp only [Script.parse] at h
  simp only [parse]
  cases hread : Surface.Grammar.read? text.toList with
  | some body =>
    have hbuilt := built_program text.toList body
    simp only [hread] at h
    rw [h] at hbuilt
    exact hbuilt
  | none =>
    simp only [hread] at h
    cases h

section

variable {t : Tables}

theorem StatementsAt.mem {ss : List Script.Statement} {low : Nat} {ids : List Nat}
    (h : StatementsAt t low ss ids) {i : Nat} (hi : i ∈ ids) : ∃ s ∈ ss, StatementAt t low s i := by
  induction ss generalizing ids with
  | nil =>
    cases h
    cases hi
  | cons s rest ih =>
    obtain ⟨j, js, rfl, hs, hrest⟩ := h
    rcases List.mem_cons.1 hi with rfl | hi
    · exact ⟨s, List.mem_cons_self, hs⟩
    · obtain ⟨s', hs', hat⟩ := ih hrest hi
      exact ⟨s', List.mem_cons_of_mem _ hs', hat⟩

theorem placed_of_mem {inLoop : Bool} {ss : List Script.Statement} (h : placedAll inLoop ss = true)
    {s : Script.Statement} (hs : s ∈ ss) : s.placed inLoop = true := by
  induction ss with
  | nil => cases hs
  | cons s' rest ih =>
    rw [placedAll, Bool.and_eq_true] at h
    rcases List.mem_cons.1 hs with rfl | hs
    · exact h.1
    · exact ih h.2 hs

theorem BranchesAt.block {inLoop : Bool} {bs : List (Script.Expr × List Script.Statement)} {low : Nat}
    {ks : List (Nat × Nat)} (h : BranchesAt t low bs ks) (hp : placedBranches inLoop bs = true) {k : Nat}
    (hk : k ∈ ks.map Prod.snd) : ∃ ss, BlockAt t ss k ∧ placedAll inLoop ss = true := by
  induction bs generalizing ks with
  | nil =>
    cases h
    cases hk
  | cons b rest ih =>
    obtain ⟨cond, body⟩ := b
    obtain ⟨j, l, ids, cs, rfl, -, -, hids, hbody, hrest⟩ := h
    rw [placedBranches, Bool.and_eq_true] at hp
    rcases List.mem_cons.1 hk with rfl | hk
    · exact ⟨body, ⟨ids, hids, hbody⟩, hp.1⟩
    · exact ih hrest hp.2 hk

theorem LastAt.block {inLoop : Bool} {o : Option (List Script.Statement)} {low : Nat} {l : Option Nat}
    (h : LastAt t low o l) (hp : placedOtherwise inLoop o = true) {k : Nat} (hk : k ∈ l) :
    ∃ ss, BlockAt t ss k ∧ placedAll inLoop ss = true := by
  cases o with
  | none =>
    cases h
    cases hk
  | some body =>
    obtain ⟨l, ids, rfl, -, hids, hbody⟩ := h
    cases hk
    exact ⟨body, ⟨ids, hids, hbody⟩, hp⟩

/-- The row of a statement in the tables: that of a choice, or one without blocks outside of a loop, which
is that of a jump only for a jump. -/
theorem StatementAt.row {s : Script.Statement} {low i : Nat} {row : Statement}
    (h : StatementAt t low s i) (hi : t.statements[i]? = some row) :
    (∃ branches otherwise bs o, s = .branch branches otherwise ∧ row = .branch bs o ∧
      BranchesAt t low branches bs ∧ LastAt t low otherwise o) ∨
    row.choices = [] ∧ (row.isJump = true → s = .exitLoop ∨ s = .nextRound) := by
  cases s with
  | branch branches otherwise =>
    obtain ⟨bs, o, hs, hbs, ho⟩ := h
    exact .inl ⟨branches, otherwise, bs, o, rfl, Option.some.inj (hi.symm.trans hs), hbs, ho⟩
  | bind b =>
    cases b with
    | declare | assign =>
      obtain ⟨_, hs, -⟩ := h
      obtain rfl := Option.some.inj (hi.symm.trans hs)
      exact .inr ⟨rfl, nofun⟩
  | eval =>
    obtain ⟨_, hs, -⟩ := h
    obtain rfl := Option.some.inj (hi.symm.trans hs)
    exact .inr ⟨rfl, nofun⟩
  | whileLoop =>
    obtain ⟨_, _, _, hs, -⟩ := h
    obtain rfl := Option.some.inj (hi.symm.trans hs)
    exact .inr ⟨rfl, nofun⟩
  | forLoop =>
    obtain ⟨_, _, _, _, _, hs, -⟩ := h
    obtain rfl := Option.some.inj (hi.symm.trans hs)
    exact .inr ⟨rfl, nofun⟩
  | exitLoop =>
    obtain rfl := Option.some.inj (hi.symm.trans h)
    exact .inr ⟨rfl, fun _ => .inl rfl⟩
  | nextRound =>
    obtain rfl := Option.some.inj (hi.symm.trans h)
    exact .inr ⟨rfl, fun _ => .inr rfl⟩

theorem StatementAt.choice {inLoop : Bool} {s : Script.Statement} {low i k : Nat} {row : Statement}
    (h : StatementAt t low s i) (hp : s.placed inLoop = true) (hi : t.statements[i]? = some row)
    (hk : k ∈ row.choices) : ∃ ss, BlockAt t ss k ∧ placedAll inLoop ss = true := by
  rcases h.row hi with ⟨branches, otherwise, bs, o, rfl, rfl, hbs, ho⟩ | ⟨hnone, -⟩
  · rw [Script.Statement.placed, Bool.and_eq_true] at hp
    rcases List.mem_append.1 hk with hk | hk
    · exact hbs.block hp.1 hk
    · exact ho.block hp.2 (Option.mem_toList.1 hk)
  · rw [hnone] at hk
    cases hk

theorem StatementAt.not_jump {s : Script.Statement} {low i : Nat} {row : Statement}
    (h : StatementAt t low s i) (hp : s.placed false = true) (hi : t.statements[i]? = some row) :
    row.isJump = false := by
  rcases h.row hi with ⟨_, _, _, _, -, rfl, -⟩ | ⟨-, hjump⟩
  · rfl
  · cases hrow : row.isJump with
    | false => rfl
    | true => rcases hjump hrow with rfl | rfl <;> cases hp

theorem jumpsInLoops {program : Program} (h : BlockAt t program 0)
    (hp : placedAll false program = true) : t.JumpsInLoops := by
  have houtside : ∀ k, t.OutsideLoops k → ∃ ss, BlockAt t ss k ∧ placedAll false ss = true := by
    intro k hk
    induction hk with
    | root => exact ⟨program, h, hp⟩
    | choice _ hids hi hs hl ih =>
      obtain ⟨ss, ⟨ids, hids', hss⟩, hplaced⟩ := ih
      obtain rfl := Option.some.inj (hids.symm.trans hids')
      obtain ⟨s, hmem, hat⟩ := hss.mem hi
      exact hat.choice (placed_of_mem hplaced hmem) hs hl
  intro k hk ids hids i hi row hrow
  obtain ⟨ss, ⟨ids', hids', hss⟩, hplaced⟩ := houtside k hk
  obtain rfl := Option.some.inj (hids.symm.trans hids')
  obtain ⟨s, hmem, hat⟩ := hss.mem hi
  exact hat.not_jump (placed_of_mem hplaced hmem) hrow

end

end ScopeBlocks.Script.Indexed
