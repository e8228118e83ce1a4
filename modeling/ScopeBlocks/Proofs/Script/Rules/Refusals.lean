import ScopeBlocks.Proofs.Script.Rules.Occurrences

/-! What a text of the grammar is refused for: a variable with the name of a primitive, a call of anything else,
a jump outside of every loop. The first of these is reported where it stands, and what is built from the pairs
of the text is never one of the builder's own complaints about them. -/
namespace ScopeBlocks.Script.Rules

/-- The first of some uses that is at fault. -/
def FirstFault (uses : List Use) (u : Use) : Prop :=
  ∃ before after, uses = before ++ u :: after ∧ (∀ v ∈ before, ¬v.Faulty) ∧ u.Faulty

variable {text : String} {pairs : List Pair}

theorem fault?_eq_none {source : List Char} (u : Use) : u.fault? source = none ↔ ¬u.Faulty := by
  rw [← Use.isFaulty_iff, Use.fault?]
  split
  next h => simp [h]
  next h => simp [h]

theorem findSome?_fault?_iff {source : List Char} {uses : List Use} {e : ParseError} :
    uses.findSome? (Use.fault? source) = some e ↔ ∃ u, FirstFault uses u ∧ e = u.error source := by
  rw [List.findSome?_eq_some_iff]
  constructor
  · rintro ⟨before, u, after, huses, hu, hbefore⟩
    obtain ⟨hfault, rfl⟩ := (u.fault?_eq_some e).1 hu
    exact ⟨u, ⟨before, after, huses, fun v hv => (fault?_eq_none v).1 (hbefore v hv), hfault⟩, rfl⟩
  · rintro ⟨u, ⟨before, after, huses, hbefore, hfault⟩, rfl⟩
    exact ⟨before, u, after, huses, (u.fault?_eq_some _).2 ⟨hfault, rfl⟩,
      fun v hv => (fault?_eq_none v).2 (hbefore v hv)⟩

theorem findSome?_fault?_isSome {source : List Char} (uses : List Use) :
    (∃ e, uses.findSome? (Use.fault? source) = some e) ↔ ∃ u ∈ uses, u.Faulty := by
  rw [← Option.isSome_iff_exists, List.findSome?_isSome_iff]
  refine exists_congr fun u => and_congr_right fun _ => ?_
  rw [← Use.isFaulty_iff, Use.fault?]
  cases u.isFaulty <;> simp

theorem problem?_eq_some {α : Type} {x : Except ParseError α} {e : ParseError} :
    problem? x = some e ↔ x = .error e := by
  cases x <;> simp [problem?]

/-- A text of the grammar is parsed by checking the statements that stand for its pairs. -/
theorem parse_grammatical (h : Grammatical text.toList pairs) :
    problem? (parse text) = (usesIn 0 pairs).findSome? (Use.fault? text.toList) ∧
      build text.toList pairs = (parse text).mapError .refused := by
  obtain ⟨ss, hread, hbuilt, huses⟩ := program_reads h text.toList
  have hparse : parse text = Surface.Statement.checkAll text.toList false ss := by
    simp only [parse, hread]
  rw [hparse, huses]
  exact ⟨Surface.Statement.checkAll_finds 0 ss, hbuilt⟩

/-- A text of the grammar is refused just if one of its variables has the name of a primitive, it calls what is
no primitive or a jump stands outside of every loop, and then for the first of these, at its place. -/
theorem grammatical_refusals (h : Grammatical text.toList pairs) :
    ((∃ e, parse text = .error e) ↔ ∃ u ∈ usesIn 0 pairs, u.Faulty) ∧
    (∀ e, parse text = .error e ↔ ∃ u, FirstFault (usesIn 0 pairs) u ∧ e = u.error text.toList) ∧
    (∀ u ∈ usesIn 0 pairs, u.Stands text.toList) ∧
    build text.toList pairs = (parse text).mapError .refused ∧
    ∀ d position, build text.toList pairs ≠ .error (.defect d position) := by
  obtain ⟨hproblem, hbuilt⟩ := parse_grammatical h
  have herror (e : ParseError) : parse text = .error e ↔
      (usesIn 0 pairs).findSome? (Use.fault? text.toList) = some e := by
    rw [← hproblem, problem?_eq_some]
  refine ⟨?_, fun e => (herror e).trans findSome?_fault?_iff, uses_stand h, hbuilt, ?_⟩
  · rw [← findSome?_fault?_isSome]
    exact exists_congr herror
  · intro d position
    rw [hbuilt]
    cases parse text <;> rintro ⟨⟩

/-- A loop that is left, a call of no primitive, the name of a primitive as a variable and a stray jump. -/
def strayCall : String := "while(a)\x7bbreak;\x7dx=say(mark);break;"

theorem strayCall_refused : ∃ pairs, Grammatical strayCall.toList pairs ∧
    parse strayCall = .error (.unknownFunction "say" ⟨1, 19⟩) ∧
    ∃ u, FirstFault (usesIn 0 pairs) u ∧
      .unknownFunction "say" ⟨1, 19⟩ = u.error strayCall.toList := by
  have hread : (Surface.Grammar.read? strayCall.toList).isSome = true := by decide +kernel
  obtain ⟨ss, hss⟩ := Option.isSome_iff_exists.1 hread
  obtain ⟨pairs, hpairs⟩ := grammatical_of_read hss
  have hparse : parse strayCall = .error (.unknownFunction "say" ⟨1, 19⟩) :=
    problem?_eq_some.1 (by decide +kernel)
  exact ⟨pairs, hpairs, hparse, ((grammatical_refusals hpairs).2.1 _).1 hparse⟩

/-- The texts of the grammar are those that are not refused for their form. -/
theorem exists_grammatical_iff : (∃ pairs, Grammatical text.toList pairs) ↔ parse text ≠ .error .form := by
  constructor
  · rintro ⟨pairs, h⟩ hform
    obtain ⟨hproblem, -⟩ := parse_grammatical h
    rw [hform] at hproblem
    obtain ⟨u, -, hu⟩ := findSome?_fault?_iff.1 hproblem.symm
    cases u <;> cases hu
  · intro h
    cases hread : Surface.Grammar.read? text.toList with
    | some ss => exact grammatical_of_read hread
    | none => exact absurd (by simp only [parse, hread]) h

end ScopeBlocks.Script.Rules
