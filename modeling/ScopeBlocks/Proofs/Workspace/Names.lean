import ScopeBlocks.Proofs.Script.Lexing
import ScopeBlocks.Workspace.Names

/-! Every identifier that is given out is a name of scripts: it is one word and no reserved one. A
number at its end alone keeps it apart from the reserved words. -/
namespace ScopeBlocks

open Script Script.Token

/-- Whether a text can be the name of a variable. -/
structure IsIdent (x : String) : Prop where
  word : IsWord x.toList
  free : isReserved x = false

namespace IsIdent

variable {x : String}

theorem keyword (h : IsIdent x) : Keyword.ofText? x = none := by
  have := h.free
  unfold isReserved at this
  cases hk : Keyword.ofText? x with
  | none => rfl
  | some k => simp [hk] at this

theorem primitive (h : IsIdent x) : Primitive.ofName? x = none := by
  have := h.free
  unfold isReserved at this
  cases hp : Primitive.ofName? x with
  | none => rfl
  | some p => simp [hp] at this

theorem scans (h : IsIdent x) : Scans x.toList [.name x] := by
  have hw : Token.word x.toList = .name x := by
    unfold Token.word
    rw [String.ofList_toList, h.keyword]
  rw [← hw]
  exact scans_word h.word

end IsIdent

namespace Names

theorem isNameChar_underscore : isNameChar '_' = true := by decide

theorem isWord_sanitize (name : String) : IsWord (sanitize name).toList := by
  have hall : ∀ c ∈ name.toList.map fun c => if isIdentChar c then c else '_',
      isNameChar c = true := by
    intro c hc
    obtain ⟨d, -, rfl⟩ := List.mem_map.1 hc
    by_cases h : isIdentChar d
    · rw [if_pos h]
      exact h
    · rw [if_neg h]
      exact isNameChar_underscore
  unfold sanitize
  split
  next => exact ⟨⟨'u', _, rfl, rfl⟩, List.all_eq_true.1 rfl⟩
  next c rest hcs =>
    rw [hcs] at hall
    split
    next hd =>
      rw [String.toList_ofList]
      refine ⟨⟨'m', _, rfl, rfl⟩, fun d hd => ?_⟩
      have hmark : ∀ d ∈ "my_".toList, isNameChar d = true := List.all_eq_true.1 rfl
      exact (List.mem_append.1 hd).elim (hmark d) (hall d)
    next hd =>
      rw [String.toList_ofList]
      refine ⟨⟨c, rest, rfl, ?_⟩, hall⟩
      have hc := hall c List.mem_cons_self
      unfold isNameChar Char.isAlphanum at hc
      unfold isNameStart
      simp only [Bool.or_eq_true] at hc ⊢
      rcases hc with ((hc | hc) | hc) | hc
      · exact .inl (.inl hc)
      · exact absurd hc hd
      · exact .inl (.inr hc)
      · exact .inr hc

theorem not_reserved_of_digit {s : String} {c : Char} (h : c ∈ s.toList.getLast?)
    (hc : c.isDigit = true) : isReserved s = false := by
  have hkeywords : ∀ k ∈ Keyword.all, k.text.toList.getLast?.any Char.isDigit = false := by decide
  have hprimitives : ∀ p ∈ Primitive.all, p.name.toList.getLast?.any Char.isDigit = false := by decide
  have hs : s.toList.getLast?.any Char.isDigit = true := by
    rw [Option.mem_def.1 h]
    exact hc
  unfold isReserved
  rw [Bool.or_eq_false_iff]
  constructor
  · rw [Option.isSome_eq_false_iff, Option.isNone_iff_eq_none]
    refine List.find?_eq_none.2 fun k hk he => ?_
    obtain rfl := eq_of_beq he
    rw [hkeywords k hk] at hs
    cases hs
  · rw [Option.isSome_eq_false_iff, Option.isNone_iff_eq_none]
    refine List.find?_eq_none.2 fun p hp he => ?_
    obtain rfl := eq_of_beq he
    rw [hprimitives p hp] at hs
    cases hs

theorem toList_numbered (n : Nat) : (toString n).toList = Nat.toDigits 10 n := Nat.toList_repr

theorem isReserved_numbered (base : String) (n : Nat) : isReserved (base ++ toString n) = false := by
  have hdigit : ∀ c ∈ Nat.toDigits 10 n, c.isDigit = true := fun c hc =>
    Nat.isDigit_of_mem_toDigits (by decide) (by decide) hc
  have hne : Nat.toDigits 10 n ≠ [] := Nat.toDigits_ne_nil
  refine not_reserved_of_digit (c := (Nat.toDigits 10 n).getLast hne) ?_
    (hdigit _ (List.getLast_mem hne))
  rw [String.toList_append, toList_numbered, List.getLast?_append, List.getLast?_eq_some_getLast hne]
  rfl

theorem isIdent_numbered {base : String} (h : IsWord base.toList) (n : Nat) :
    IsIdent (base ++ toString n) := by
  have hdigit : ∀ c ∈ Nat.toDigits 10 n, c.isDigit = true := fun c hc =>
    Nat.isDigit_of_mem_toDigits (by decide) (by decide) hc
  obtain ⟨⟨c, r, hc, hstart⟩, hall⟩ := h
  refine ⟨?_, isReserved_numbered base n⟩
  rw [String.toList_append, toList_numbered]
  refine ⟨⟨c, r ++ Nat.toDigits 10 n, by rw [hc]; rfl, hstart⟩, fun d hd => ?_⟩
  exact (List.mem_append.1 hd).elim (hall d) fun hd => isNameChar_of_isDigit (hdigit d hd)

theorem isIdent_freeFrom (n : Names) {base : String} (h : IsWord base.toList) (tries suffix : Nat) :
    IsIdent (n.freeFrom base tries suffix) := by
  induction tries generalizing suffix with
  | zero => exact isIdent_numbered h suffix
  | succ tries ih =>
    unfold freeFrom
    dsimp only
    split
    next => exact isIdent_numbered h suffix
    next => exact ih (suffix + 1)

theorem isIdent_freshIdent (n : Names) {base : String} (h : IsWord base.toList) :
    IsIdent (n.freshIdent base) := by
  unfold freshIdent
  split
  next hfree =>
    unfold isFree at hfree
    simp only [Bool.and_eq_true, Bool.not_eq_true'] at hfree
    exact ⟨h, hfree.1⟩
  next => exact isIdent_freeFrom n h _ _

theorem isIdent_distinct (n : Names) (base : String) : IsIdent (n.distinct base).1 :=
  isIdent_freshIdent n (isWord_sanitize base)

/-- Whether only identifiers have been given out to variables. -/
def Valid (n : Names) : Prop := ∀ p ∈ n.assigned, IsIdent p.2

theorem valid_empty : Valid empty := by simp [Valid, empty]

theorem valid_distinct {n : Names} (h : Valid n) (base : String) : Valid (n.distinct base).2 := h

theorem isIdent_identOf {n : Names} (h : Valid n) (name : String) : IsIdent (n.identOf name) := by
  unfold identOf identify
  split
  next ident hl =>
    obtain ⟨l₁, l₂, he, -⟩ := List.lookup_eq_some_iff.1 hl
    exact h (name, ident) (by rw [he]; simp)
  next => exact isIdent_distinct n name

theorem valid_identify {n : Names} (h : Valid n) (name : String) : Valid (n.identify name).2 := by
  unfold identify
  split
  next => exact h
  next =>
    intro p hp
    rcases List.mem_append.1 hp with hp | hp
    · exact h p hp
    · obtain rfl := List.mem_singleton.1 hp
      exact isIdent_distinct n name

theorem valid_ofVariables (names : List String) : Valid (ofVariables names) := by
  unfold ofVariables
  generalize hn : empty = n
  have hvalid : Valid n := hn ▸ valid_empty
  clear hn
  induction names generalizing n with
  | nil => exact hvalid
  | cons name names ih => exact ih _ (valid_identify hvalid name)

theorem isIdent_of_mem_declared {n : Names} (h : Valid n) {ident : String} (hi : ident ∈ n.declared) :
    IsIdent ident := by
  obtain ⟨p, hp, rfl⟩ := List.mem_map.1 hi
  exact h p hp

/-! Variables that have been requested. -/

theorem mem_assigned_identify {n : Names} {name given : String}
    (h : name = given ∨ given ∈ n.assigned.map Prod.fst) :
    given ∈ (n.identify name).2.assigned.map Prod.fst := by
  unfold identify
  split
  next ident hl =>
    rcases h with rfl | h
    · obtain ⟨l₁, l₂, he, -⟩ := List.lookup_eq_some_iff.1 hl
      exact List.mem_map.2 ⟨(name, ident), by rw [he]; simp, rfl⟩
    · exact h
  next =>
    rcases h with rfl | h
    · exact List.mem_map.2 ⟨_, List.mem_append_right _ (List.mem_singleton.2 rfl), rfl⟩
    · obtain ⟨p, hp, rfl⟩ := List.mem_map.1 h
      exact List.mem_map.2 ⟨p, List.mem_append_left _ hp, rfl⟩

theorem mem_assigned_ofVariables {names : List String} {name : String} (h : name ∈ names) :
    name ∈ (ofVariables names).assigned.map Prod.fst := by
  unfold ofVariables
  suffices hall : ∀ n : Names, name ∈ names ∨ name ∈ n.assigned.map Prod.fst →
      name ∈ (names.foldl (fun n given => (n.identify given).2) n).assigned.map Prod.fst from
    hall empty (.inl h)
  clear h
  induction names with
  | nil => exact fun n h => h.resolve_left List.not_mem_nil
  | cons given names ih =>
    intro n h
    refine ih _ ?_
    rcases h with h | h
    · rcases List.mem_cons.1 h with rfl | h
      · exact .inr (mem_assigned_identify (.inl rfl))
      · exact .inl h
    · exact .inr (mem_assigned_identify (.inr h))

theorem identOf_mem_declared {n : Names} {name : String} (h : name ∈ n.assigned.map Prod.fst) :
    n.identOf name ∈ n.declared := by
  unfold identOf identify
  split
  next ident hl =>
    obtain ⟨l₁, l₂, he, -⟩ := List.lookup_eq_some_iff.1 hl
    exact List.mem_map.2 ⟨(name, ident), by rw [he]; simp, rfl⟩
  next hl =>
    obtain ⟨p, hp, rfl⟩ := List.mem_map.1 h
    have hne := List.lookup_eq_none_iff.1 hl p hp
    simp at hne

end Names

end ScopeBlocks
