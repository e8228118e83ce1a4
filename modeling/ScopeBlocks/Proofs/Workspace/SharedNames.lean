import ScopeBlocks.Proofs.Workspace.TwinNames

/-! The identifiers that the variables of two workspaces have in them. Those of the variables that both have
stand side by side, and a word for a number is the same identifier in both, unless it is a variable in one of
them alone. -/
namespace ScopeBlocks.Names

variable {n n' : Names}

/-- Whether the identifiers that have been given out are those of variables, each its own, and a word for a
number is only that of the variable called so. -/
structure Orderly (n : Names) : Prop where
  keys : (n.assigned.map Prod.fst).Nodup
  declared : n.declared.Nodup
  taken : ∀ x, x ∈ n.taken ↔ x ∈ n.declared
  words : ∀ p ∈ n.assigned, p.1 ∈ numberWords ∨ p.2 ∈ numberWords → p.2 = p.1

namespace Orderly

theorem empty : Orderly empty := by
  refine ⟨.nil, .nil, fun _ => .rfl, fun p hp => ?_⟩
  cases hp

theorem not_mem_of_lookup {x : String} (hx : n.assigned.lookup x = none) :
    x ∉ n.assigned.map Prod.fst := by
  intro hmem
  obtain ⟨p, hp, rfl⟩ := List.mem_map.1 hmem
  have hne := List.lookup_eq_none_iff.1 hx p hp
  simp at hne

theorem freshIdent_word (h : n.Orderly) {word : String} (hword : word ∈ numberWords)
    (hx : word ∉ n.assigned.map Prod.fst) : n.freshIdent (sanitize word) = word := by
  have hplain : ∀ word ∈ numberWords, sanitize word = word ∧ Script.isReserved word = false := by
    decide
  obtain ⟨hsanitize, hreserved⟩ := hplain word hword
  have hfree : word ∉ n.taken := by
    intro hmem
    obtain ⟨p, hp, rfl⟩ := List.mem_map.1 ((h.taken word).1 hmem)
    exact hx (h.words p hp (.inr hword) ▸ List.mem_map_of_mem hp)
  rw [hsanitize, freshIdent, if_pos (isFree_iff.2 ⟨hreserved, hfree⟩)]

theorem identify (h : n.Orderly) (x : String) : Orderly (n.identify x).2 := by
  unfold Names.identify
  split
  next => exact h
  next hx =>
    have hnew := not_mem_of_lookup hx
    have hfresh : n.freshIdent (sanitize x) ∉ n.declared := fun hmem =>
      n.freshIdent_not_mem _ ((h.taken _).2 hmem)
    have hdeclared : (n.assigned ++ [(x, n.freshIdent (sanitize x))]).map Prod.snd =
        n.declared ++ [n.freshIdent (sanitize x)] := List.map_append
    refine ⟨?_, ?_, fun y => ?_, fun p hp hword => ?_⟩
    · change ((n.assigned ++ [(x, _)]).map Prod.fst).Nodup
      rw [List.map_append]
      exact h.keys.append (List.nodup_singleton _) (by simpa using hnew)
    · change ((n.assigned ++ [(x, n.freshIdent (sanitize x))]).map Prod.snd).Nodup
      rw [hdeclared]
      exact h.declared.append (List.nodup_singleton _) (by simpa using hfresh)
    · change y ∈ n.freshIdent (sanitize x) :: n.taken ↔
        y ∈ (n.assigned ++ [(x, n.freshIdent (sanitize x))]).map Prod.snd
      rw [hdeclared, List.mem_cons, List.mem_append, List.mem_singleton, h.taken y, or_comm]
    · rcases List.mem_append.1 hp with hp | hp
      · exact h.words p hp hword
      · obtain rfl := List.mem_singleton.1 hp
        rcases hword with hword | hword
        · exact h.freshIdent_word hword hnew
        · exact freshIdent_mem_numberWords hword

theorem ofVariables (xs : List String) : Orderly (ofVariables xs) := by
  unfold Names.ofVariables
  suffices hall : ∀ n : Names, n.Orderly → Orderly (xs.foldl (fun n x => (n.identify x).2) n) from
    hall _ .empty
  induction xs with
  | nil => exact fun _ h => h
  | cons x xs ih => exact fun _ h => ih _ (h.identify x)

end Orderly

theorem mem_assigned_of_identify {n : Names} {x y : String}
    (h : y ∈ (n.identify x).2.assigned.map Prod.fst) : y = x ∨ y ∈ n.assigned.map Prod.fst := by
  unfold identify at h
  split at h
  next => exact .inr h
  next =>
    change y ∈ (n.assigned ++ [(x, _)]).map Prod.fst at h
    rw [List.map_append, List.mem_append] at h
    exact h.symm.imp_left List.mem_singleton.1

theorem mem_assigned_ofVariables_iff {xs : List String} {x : String} :
    x ∈ (ofVariables xs).assigned.map Prod.fst ↔ x ∈ xs := by
  refine ⟨fun h => ?_, mem_assigned_ofVariables⟩
  unfold ofVariables at h
  suffices hall : ∀ n : Names, x ∈ (xs.foldl (fun n y => (n.identify y).2) n).assigned.map Prod.fst →
      x ∈ xs ∨ x ∈ n.assigned.map Prod.fst from
    (hall empty h).resolve_right List.not_mem_nil
  clear h
  induction xs with
  | nil => exact fun _ h => .inr h
  | cons y xs ih =>
    intro n h
    rcases ih _ h with h | h
    · exact .inl (List.mem_cons_of_mem _ h)
    · rcases mem_assigned_of_identify h with rfl | h
      · exact .inl List.mem_cons_self
      · exact .inr h

theorem identOf_mem_assigned {n : Names} {x : String} (hx : x ∈ n.assigned.map Prod.fst) :
    (x, n.identOf x) ∈ n.assigned := by
  unfold identOf identify
  split
  next ident hl =>
    obtain ⟨l₁, l₂, he, -⟩ := List.lookup_eq_some_iff.1 hl
    rw [he]
    simp
  next hl => exact absurd hx (Orderly.not_mem_of_lookup hl)

/-- The variables that have identifiers on both sides. -/
def shared (n n' : Names) : List (String × String) :=
  n.assigned.filter fun p => (n'.assigned.map Prod.fst).contains p.1

/-- The identifiers of these variables, side by side, and words that are the same on both sides. -/
def sharedPairs (n n' : Names) (words : List String) : List (String × String) :=
  (n.shared n').map (fun p => (n.identOf p.1, n'.identOf p.1)) ++ words.map fun word => (word, word)

theorem mem_shared {n n' : Names} {x : String} : x ∈ (n.shared n').map Prod.fst ↔
    x ∈ n.assigned.map Prod.fst ∧ x ∈ n'.assigned.map Prod.fst := by
  simp only [shared, List.mem_map, List.mem_filter, List.contains_iff_mem]
  constructor
  · rintro ⟨p, ⟨hp, hp'⟩, rfl⟩
    exact ⟨⟨p, hp, rfl⟩, hp'⟩
  · rintro ⟨⟨p, hp, rfl⟩, hp'⟩
    exact ⟨p, ⟨hp, hp'⟩, rfl⟩

section

variable {words : List String}

/-- Whether words are called nothing else: they stand for numbers, and name no variable. -/
structure Unnamed (words : List String) (n : Names) : Prop where
  subset : words ⊆ numberWords
  unnamed : ∀ word ∈ words, word ∉ n.assigned.map Prod.fst

namespace Orderly

theorem identOf_eq_iff (h : n.Orderly) {x y : String} (hx : x ∈ n.assigned.map Prod.fst)
    (hy : y ∈ n.assigned.map Prod.fst) : n.identOf x = n.identOf y ↔ x = y := by
  refine ⟨fun heq => ?_, fun heq => heq ▸ rfl⟩
  have hsame := List.inj_on_of_nodup_map h.declared (identOf_mem_assigned hx) (identOf_mem_assigned hy) heq
  exact congrArg Prod.fst hsame

theorem identOf_word (h : n.Orderly) {x : String} (hx : x ∈ n.assigned.map Prod.fst)
    (hword : x ∈ numberWords ∨ n.identOf x ∈ numberWords) : n.identOf x = x :=
  h.words _ (identOf_mem_assigned hx) hword

theorem word_not_mem_declared (h : n.Orderly) (hwords : Unnamed words n) {word : String}
    (hword : word ∈ words) : word ∉ n.declared := by
  intro hmem
  obtain ⟨p, hp, rfl⟩ := List.mem_map.1 hmem
  refine hwords.unnamed _ hword ?_
  exact h.words p hp (.inr (hwords.subset hword)) ▸ List.mem_map_of_mem hp

theorem nodup_pairs (h : n.Orderly) (hwords : Unnamed words n) (hnodup : words.Nodup) {xs : List String}
    (hxs : xs.Nodup) (hknown : ∀ x ∈ xs, x ∈ n.assigned.map Prod.fst) :
    (xs.map n.identOf ++ words).Nodup := by
  refine (hxs.map_on fun x hx y hy => (h.identOf_eq_iff (hknown x hx) (hknown y hy)).1).append hnodup ?_
  intro ident hident hword
  obtain ⟨x, hx, rfl⟩ := List.mem_map.1 hident
  exact h.word_not_mem_declared hwords hword (identOf_mem_declared (hknown x hx))

theorem paired (h : n.Orderly) (h' : n'.Orderly) (hwords : Unnamed words n) (hwords' : Unnamed words n')
    (hnodup : words.Nodup) : Paired id (n.shared n') (n.sharedPairs n' words) n n' := by
  have hkeys : ((n.shared n').map Prod.fst).Nodup := h.keys.sublist (List.filter_sublist.map _)
  have hfst : (n.sharedPairs n' words).map Prod.fst = ((n.shared n').map Prod.fst).map n.identOf ++ words := by
    simp [sharedPairs, Function.comp_def]
  have hsnd : (n.sharedPairs n' words).map Prod.snd = ((n.shared n').map Prod.fst).map n'.identOf ++ words := by
    simp [sharedPairs, Function.comp_def]
  refine ⟨?_, ?_, fun p hp => ?_, fun p hp => ?_, fun x hx => ?_⟩
  · rw [hfst]
    exact h.nodup_pairs hwords hnodup hkeys fun x hx => (mem_shared.1 hx).1
  · rw [hsnd]
    exact h'.nodup_pairs hwords' hnodup hkeys fun x hx => (mem_shared.1 hx).2
  · rcases List.mem_append.1 hp with hp | hp
    · obtain ⟨q, hq, rfl⟩ := List.mem_map.1 hp
      have hknown := mem_shared.1 (List.mem_map_of_mem hq)
      exact .inl ((h.taken _).2 (identOf_mem_declared hknown.1))
    · obtain ⟨word, hword, rfl⟩ := List.mem_map.1 hp
      exact .inr (hwords.subset hword)
  · rcases List.mem_append.1 hp with hp | hp
    · obtain ⟨q, hq, rfl⟩ := List.mem_map.1 hp
      have hknown := mem_shared.1 (List.mem_map_of_mem hq)
      exact .inl ((h'.taken _).2 (identOf_mem_declared hknown.2))
    · obtain ⟨word, hword, rfl⟩ := List.mem_map.1 hp
      exact .inr (hwords.subset hword)
  · obtain ⟨q, hq, rfl⟩ := List.mem_map.1 hx
    have hknown := mem_shared.1 hx
    exact ⟨hknown.1, hknown.2, List.mem_append_left _ (List.mem_map.2 ⟨q, hq, rfl⟩)⟩

/-- A number word that is a variable on both sides or on neither is the same identifier there. -/
theorem word_mem_sharedPairs (h : n.Orderly) (h' : n'.Orderly) {word : String} (hword : word ∈ numberWords)
    (hsame : word ∈ n.assigned.map Prod.fst ↔ word ∈ n'.assigned.map Prod.fst)
    (hwords : word ∉ n.assigned.map Prod.fst → word ∈ words) : (word, word) ∈ n.sharedPairs n' words := by
  by_cases hx : word ∈ n.assigned.map Prod.fst
  · have hx' := hsame.1 hx
    obtain ⟨q, hq, hkey⟩ := List.mem_map.1 (mem_shared.2 ⟨hx, hx'⟩)
    refine List.mem_append_left _ (List.mem_map.2 ⟨q, hq, ?_⟩)
    rw [hkey, h.identOf_word hx (.inl hword), h'.identOf_word hx' (.inl hword)]
  · exact List.mem_append_right _ (List.mem_map.2 ⟨word, hwords hx, rfl⟩)

theorem declared_iff (h : n.Orderly) (h' : n'.Orderly) (hwords : Unnamed words n) (hwords' : Unnamed words n')
    {rs : List (String × String)} {m m' : Names} (hgrown : Grown (n.sharedPairs n' words) rs n n' m m') :
    ∀ p ∈ rs, p.1 ∈ n.declared ↔ p.2 ∈ n'.declared := by
  intro p hp
  rcases hgrown.fresh p hp with hp | ⟨hfst, hsnd⟩
  · rcases List.mem_append.1 hp with hp | hp
    · obtain ⟨q, hq, rfl⟩ := List.mem_map.1 hp
      have hknown := mem_shared.1 (List.mem_map_of_mem hq)
      exact iff_of_true (identOf_mem_declared hknown.1) (identOf_mem_declared hknown.2)
    · obtain ⟨word, hword, rfl⟩ := List.mem_map.1 hp
      exact iff_of_false (h.word_not_mem_declared hwords hword) (h'.word_not_mem_declared hwords' hword)
  · exact iff_of_false (fun hmem => hfst ((h.taken _).2 hmem)) fun hmem => hsnd ((h'.taken _).2 hmem)

end Orderly

end

end ScopeBlocks.Names
