import Mathlib.Data.List.Forall2
import Mathlib.Data.List.Nodup
import Mathlib.Logic.Equiv.Fintype
import ScopeBlocks.Proofs.Workspace.Names

/-! Identifiers given out twice over, to variables under one set of names and to the same variables under
another. No identifier is given out twice, so that a permutation of all texts takes those of the one side to
those of the other. -/
namespace ScopeBlocks.Names

/-! An identifier that is given out is a new one. -/

theorem numbered_injective (base : String) : Function.Injective fun n : Nat => base ++ toString n := by
  intro m n h
  have hdigits : Nat.toDigits 10 m = Nat.toDigits 10 n := by
    rw [← toList_numbered m, ← toList_numbered n, (String.append_right_inj base).1 h]
  rw [← Nat.ofDigitChars_ten_toDigits (n := m), hdigits, Nat.ofDigitChars_ten_toDigits]

theorem isFree_iff {n : Names} {x : String} :
    n.isFree x = true ↔ Script.isReserved x = false ∧ x ∉ n.taken := by
  simp [isFree]

/-- Only where all candidates are taken is the last one given out though it is. -/
theorem taken_of_mem_freeFrom (n : Names) (base : String) (tries suffix : Nat)
    (h : n.freeFrom base tries suffix ∈ n.taken) (i : Nat) (hi : i < tries) :
    base ++ toString (suffix + i) ∈ n.taken := by
  induction tries generalizing suffix i with
  | zero => exact absurd hi (Nat.not_lt_zero i)
  | succ tries ih =>
    unfold freeFrom at h
    dsimp only at h
    split at h
    next hfree => exact absurd h (isFree_iff.1 hfree).2
    next hused =>
      have htaken : base ++ toString suffix ∈ n.taken :=
        Decidable.not_not.1 fun hmem => hused (isFree_iff.2 ⟨isReserved_numbered base suffix, hmem⟩)
      cases i with
      | zero => exact htaken
      | succ i =>
        rw [Nat.add_succ, ← Nat.succ_add]
        exact ih (suffix + 1) h i (Nat.lt_of_succ_lt_succ hi)

theorem freshIdent_not_mem (n : Names) (base : String) : n.freshIdent base ∉ n.taken := by
  unfold freshIdent
  split
  next hfree => exact (isFree_iff.1 hfree).2
  next =>
    intro hmem
    have hall := n.taken_of_mem_freeFrom base n.tries 2 hmem
    have hnodup : ((List.range n.tries).map fun i => base ++ toString (2 + i)).Nodup :=
      List.nodup_range.map fun i j h => Nat.add_left_cancel (numbered_injective base h)
    have hsubset : ((List.range n.tries).map fun i => base ++ toString (2 + i)) ⊆ n.taken := by
      intro x hx
      obtain ⟨i, hi, rfl⟩ := List.mem_map.1 hx
      exact hall i (List.mem_range.1 hi)
    have hlength := (hnodup.subperm hsubset).length_le
    rw [List.length_map, List.length_range, tries] at hlength
    omega

/-! Words for numbers. A variable gets one of them as its identifier only if it is called so. -/

/-- What stands in scripts for the numbers that are not finite. These words are not reserved. -/
def numberWords : List String := ["Infinity", "NaN"]

theorem ends_numberWords : ∀ word ∈ numberWords, word.toList.getLast?.any Char.isDigit = false := by
  decide

theorem numbered_not_mem_numberWords (base : String) (k : Nat) :
    base ++ toString k ∉ numberWords := by
  intro hmem
  have hdigit : ∀ c ∈ Nat.toDigits 10 k, c.isDigit = true := fun c hc =>
    Nat.isDigit_of_mem_toDigits (by decide) (by decide) hc
  have hne : Nat.toDigits 10 k ≠ [] := Nat.toDigits_ne_nil
  have hends := ends_numberWords _ hmem
  rw [String.toList_append, toList_numbered, List.getLast?_append,
    List.getLast?_eq_some_getLast hne] at hends
  simp [hdigit _ (List.getLast_mem hne)] at hends

theorem append_not_mem_numberWords (x : String) {word : String} (hword : '_' ∈ word.toList) :
    x ++ word ∉ numberWords := by
  have hplain : ∀ y ∈ numberWords, '_' ∉ y.toList := by decide
  exact fun hy => hplain _ hy (String.toList_append ▸ List.mem_append_right _ hword)

theorem freeFrom_eq_numbered (n : Names) (base : String) (tries suffix : Nat) :
    ∃ k : Nat, n.freeFrom base tries suffix = base ++ toString k := by
  induction tries generalizing suffix with
  | zero => exact ⟨suffix, rfl⟩
  | succ tries ih =>
    unfold freeFrom
    dsimp only
    split
    · exact ⟨suffix, rfl⟩
    · exact ih (suffix + 1)

theorem map_identChars {cs : List Char} (h : '_' ∉ cs.map fun c => if isIdentChar c then c else '_') :
    (cs.map fun c => if isIdentChar c then c else '_') = cs := by
  induction cs with
  | nil => rfl
  | cons c cs ih =>
    rw [List.map_cons, List.mem_cons, not_or] at h
    rw [List.map_cons, ih h.2]
    split
    next => rfl
    next hc => exact absurd (if_neg hc).symm h.1

theorem eq_of_sanitize {name word : String} (hword : word ∈ numberWords) (h : sanitize name = word) :
    name = word := by
  have hchars : ∀ word ∈ numberWords, '_' ∉ word.toList ∧ word.toList.head? ≠ some 'm' ∧
      word ≠ "unnamed" := by decide
  obtain ⟨hchars, hhead, hunnamed⟩ := hchars word hword
  unfold sanitize at h
  split at h
  next => exact absurd h.symm hunnamed
  next c cs hcs =>
    split at h
    next =>
      rw [← h, String.toList_ofList] at hhead
      exact absurd rfl hhead
    next =>
      have hl : word.toList = c :: cs := by rw [← h, String.toList_ofList]
      rw [hl, ← hcs] at hchars
      rw [← String.toList_inj, hl, ← hcs, map_identChars hchars]

theorem freshIdent_mem_numberWords {n : Names} {base : String}
    (h : n.freshIdent (sanitize base) ∈ numberWords) : n.freshIdent (sanitize base) = base := by
  generalize hident : n.freshIdent (sanitize base) = ident at h
  unfold freshIdent at hident
  split at hident
  next => exact (eq_of_sanitize h hident).symm
  next =>
    obtain ⟨k, hk⟩ := n.freeFrom_eq_numbered (sanitize base) n.tries 2
    rw [← hident, hk] at h
    exact absurd h (numbered_not_mem_numberWords _ k)

/-! Two sides. -/

def pairs (n n' : Names) : List (String × String) := n.taken.zip n'.taken

/-- Whether a map takes the one side of pairs to the other. -/
def Fits (ρ : String → String) (ps : List (String × String)) : Prop := ∀ p ∈ ps, p.2 = ρ p.1

theorem Fits.mono {ρ : String → String} {ps qs : List (String × String)} (h : Fits ρ qs)
    (hs : ps ⊆ qs) : Fits ρ ps := fun p hp => h p (hs hp)

variable {g : String → String} {n n' : Names}

theorem identOf_distinct {n : Names} {x : String} (hx : x ∈ n.assigned.map Prod.fst) (base : String) :
    (n.distinct base).2.identOf x = n.identOf x := by
  have hassigned : (n.distinct base).2.assigned = n.assigned := rfl
  unfold identOf identify
  rw [hassigned]
  cases hident : n.assigned.lookup x with
  | some ident => rfl
  | none =>
    obtain ⟨p, hp, rfl⟩ := List.mem_map.1 hx
    have hne := List.lookup_eq_none_iff.1 hident p hp
    simp at hne

/-- Whether pairs hold identifiers of two sides, no two of them one on either side, and those of some
variables, which the second side calls otherwise, among them. -/
structure Paired (g : String → String) (assigned ps : List (String × String)) (n n' : Names) :
    Prop where
  nodup : (ps.map Prod.fst).Nodup
  nodup' : (ps.map Prod.snd).Nodup
  taken : ∀ p ∈ ps, p.1 ∈ n.taken ∨ p.1 ∈ numberWords
  taken' : ∀ p ∈ ps, p.2 ∈ n'.taken ∨ p.2 ∈ numberWords
  known : ∀ x ∈ assigned.map Prod.fst, x ∈ n.assigned.map Prod.fst ∧
    g x ∈ n'.assigned.map Prod.fst ∧ (n.identOf x, n'.identOf (g x)) ∈ ps

namespace Paired

variable {assigned ps : List (String × String)}

theorem distinct (h : Paired g assigned ps n n') {base base' : String} (hbase : base ∉ numberWords)
    (hbase' : base' ∉ numberWords) :
    Paired g assigned (((n.distinct base).1, (n'.distinct base').1) :: ps) (n.distinct base).2
      (n'.distinct base').2 := by
  have hnew {m : Names} {b : String} (hb : b ∉ numberWords) :
      ¬((m.distinct b).1 ∈ m.taken ∨ (m.distinct b).1 ∈ numberWords) := by
    rintro (hmem | hmem)
    · exact m.freshIdent_not_mem _ hmem
    · exact hb (freshIdent_mem_numberWords hmem ▸ hmem)
  refine ⟨List.nodup_cons.2 ⟨fun hmem => ?_, h.nodup⟩, List.nodup_cons.2 ⟨fun hmem => ?_, h.nodup'⟩,
    fun p hp => ?_, fun p hp => ?_, fun x hx => ?_⟩
  · obtain ⟨p, hp, hfst⟩ := List.mem_map.1 hmem
    exact hnew hbase (hfst ▸ h.taken p hp)
  · obtain ⟨p, hp, hsnd⟩ := List.mem_map.1 hmem
    exact hnew hbase' (hsnd ▸ h.taken' p hp)
  · rcases List.mem_cons.1 hp with rfl | hp
    · exact .inl List.mem_cons_self
    · exact (h.taken p hp).imp_left (List.mem_cons_of_mem _)
  · rcases List.mem_cons.1 hp with rfl | hp
    · exact .inl List.mem_cons_self
    · exact (h.taken' p hp).imp_left (List.mem_cons_of_mem _)
  · obtain ⟨hn, hn', hmem⟩ := h.known x hx
    refine ⟨hn, hn', ?_⟩
    rw [identOf_distinct hn, identOf_distinct hn']
    exact List.mem_cons_of_mem _ hmem

/-- A permutation that takes the one side's identifiers to those of the other. -/
theorem exists_perm (h : Paired g assigned ps n n') : ∃ ρ : Equiv.Perm String, Fits ρ ps := by
  have hinjective {f : String × String → String} (hf : (ps.map f).Nodup) :
      Function.Injective fun i : Fin ps.length => f ps[i] := by
    intro i j hij
    have hlt (k : Fin ps.length) : k.1 < (ps.map f).length := by simp
    have hi := hlt i
    have hj := hlt j
    have hsame : (ps.map f)[i.1] = (ps.map f)[j.1] := by simpa using hij
    exact Fin.ext (hf.getElem_inj_iff.1 hsame)
  obtain ⟨ρ, hρ⟩ := Equiv.Perm.exists_extending_pair (fun i : Fin ps.length => ps[i].1)
    (fun i : Fin ps.length => ps[i].2) (hinjective h.nodup) (hinjective h.nodup')
  refine ⟨ρ, fun p hp => ?_⟩
  obtain ⟨i, hi, rfl⟩ := List.mem_iff_getElem.1 hp
  exact (hρ ⟨i, hi⟩).symm

end Paired

/-- How two sides stand to what they were: what has been paired since is new on either side. -/
structure Grown (qs rs : List (String × String)) (n n' m m' : Names) : Prop where
  subset : qs ⊆ rs
  fresh : ∀ p ∈ rs, p ∈ qs ∨ p.1 ∉ n.taken ∧ p.2 ∉ n'.taken
  taken : n.taken ⊆ m.taken
  taken' : n'.taken ⊆ m'.taken

namespace Grown

variable {qs rs ts : List (String × String)} {m m' k k' : Names}

theorem refl : Grown qs qs n n' n n' :=
  ⟨fun _ hp => hp, fun _ hp => .inl hp, fun _ hx => hx, fun _ hx => hx⟩

theorem trans (h : Grown qs rs n n' m m') (h' : Grown rs ts m m' k k') : Grown qs ts n n' k k' where
  subset := List.Subset.trans h.subset h'.subset
  fresh p hp := by
    rcases h'.fresh p hp with hp | ⟨hfst, hsnd⟩
    · exact h.fresh p hp
    · exact .inr ⟨fun hx => hfst (h.taken hx), fun hx => hsnd (h.taken' hx)⟩
  taken := List.Subset.trans h.taken h'.taken
  taken' := List.Subset.trans h.taken' h'.taken'

theorem distinct (base base' : String) : Grown qs
    (((n.distinct base).1, (n'.distinct base').1) :: qs) n n' (n.distinct base).2 (n'.distinct base').2 where
  subset := List.subset_cons_self _ _
  fresh p hp := by
    rcases List.mem_cons.1 hp with rfl | hp
    · exact .inr ⟨n.freshIdent_not_mem _, n'.freshIdent_not_mem _⟩
    · exact .inl hp
  taken := List.subset_cons_self _ _
  taken' := List.subset_cons_self _ _

end Grown

/-- Whether two sides have given out as many identifiers, and to the same variables, which the second side
calls otherwise. -/
structure Twinned (g : String → String) (n n' : Names) : Prop where
  length : n.taken.length = n'.taken.length
  nodup : n.taken.Nodup
  nodup' : n'.taken.Nodup
  assigned : List.Forall₂ (fun p p' => p'.1 = g p.1 ∧ (p.2, p'.2) ∈ pairs n n')
    n.assigned n'.assigned

namespace Twinned

theorem empty : Twinned g empty empty := ⟨rfl, .nil, .nil, .nil⟩

theorem distinct (h : Twinned g n n') (base base' : String) :
    Twinned g (n.distinct base).2 (n'.distinct base').2 where
  length := congrArg (· + 1) h.length
  nodup := List.nodup_cons.2 ⟨n.freshIdent_not_mem _, h.nodup⟩
  nodup' := List.nodup_cons.2 ⟨n'.freshIdent_not_mem _, h.nodup'⟩
  assigned := h.assigned.imp fun _ _ hp => ⟨hp.1, List.mem_cons_of_mem _ hp.2⟩

section

variable (hg : Function.Injective g)

include hg

theorem lookup (h : Twinned g n n') (x : String) :
    match n.assigned.lookup x with
      | some ident => ∃ ident', n'.assigned.lookup (g x) = some ident' ∧ (ident, ident') ∈ pairs n n'
      | none => n'.assigned.lookup (g x) = none := by
  have hassigned := h.assigned
  generalize n.assigned = l at hassigned
  generalize n'.assigned = l' at hassigned
  induction hassigned with
  | nil => rfl
  | @cons p p' l l' hp _ ih =>
    obtain ⟨y, ident⟩ := p
    obtain ⟨y', ident'⟩ := p'
    obtain ⟨rfl, hmem⟩ := hp
    rw [List.lookup_cons, List.lookup_cons]
    by_cases hxy : x = y
    · subst hxy
      simpa using hmem
    · rw [beq_false_of_ne hxy, beq_false_of_ne (hg.ne hxy)]
      exact ih

theorem identify (h : Twinned g n n') (x : String) :
    Twinned g (n.identify x).2 (n'.identify (g x)).2 := by
  have hlookup := h.lookup hg x
  unfold Names.identify
  cases hx : n.assigned.lookup x with
  | some ident =>
    rw [hx] at hlookup
    obtain ⟨ident', hx', -⟩ := hlookup
    rw [hx']
    exact h
  | none =>
    rw [hx] at hlookup
    rw [hlookup]
    obtain ⟨hlength, hnodup, hnodup', hassigned⟩ := h.distinct x (g x)
    refine ⟨hlength, hnodup, hnodup', List.rel_append hassigned (.cons ⟨rfl, ?_⟩ .nil)⟩
    exact List.mem_cons_self

theorem ofVariables (xs : List String) : Twinned g (ofVariables xs) (ofVariables (xs.map g)) := by
  unfold Names.ofVariables
  suffices hall : ∀ n n' : Names, Twinned g n n' →
      Twinned g (xs.foldl (fun n x => (n.identify x).2) n)
        ((xs.map g).foldl (fun n x => (n.identify x).2) n') from hall _ _ .empty
  induction xs with
  | nil => exact fun _ _ h => h
  | cons x xs ih => exact fun _ _ h => ih _ _ (h.identify hg x)

theorem identOf (h : Twinned g n n') {x : String} (hx : x ∈ n.assigned.map Prod.fst) :
    (n.identOf x, n'.identOf (g x)) ∈ pairs n n' := by
  have hlookup := h.lookup hg x
  cases hident : n.assigned.lookup x with
  | none =>
    obtain ⟨p, hp, rfl⟩ := List.mem_map.1 hx
    have hne := List.lookup_eq_none_iff.1 hident p hp
    simp at hne
  | some ident =>
    rw [hident] at hlookup
    obtain ⟨ident', hident', hmem⟩ := hlookup
    unfold Names.identOf Names.identify
    rw [hident, hident']
    exact hmem

theorem paired (h : Twinned g n n') :
    Paired g n.assigned (pairs n n') n n' where
  nodup := by
    rw [pairs, List.map_fst_zip (Nat.le_of_eq h.length)]
    exact h.nodup
  nodup' := by
    rw [pairs, List.map_snd_zip (Nat.le_of_eq h.length.symm)]
    exact h.nodup'
  taken p hp := .inl (List.of_mem_zip hp).1
  taken' p hp := .inl (List.of_mem_zip hp).2
  known x hx := by
    have hmem := h.identOf hg hx
    refine ⟨hx, ?_, hmem⟩
    have hlookup := h.lookup hg x
    cases hident : n.assigned.lookup x with
    | none =>
      obtain ⟨p, hp, rfl⟩ := List.mem_map.1 hx
      have hne := List.lookup_eq_none_iff.1 hident p hp
      simp at hne
    | some ident =>
      rw [hident] at hlookup
      obtain ⟨ident', hident', -⟩ := hlookup
      obtain ⟨l₁, l₂, he, -⟩ := List.lookup_eq_some_iff.1 hident'
      exact List.mem_map.2 ⟨(g x, ident'), by rw [he]; simp, rfl⟩

end

theorem declared (h : Twinned g n n') {ρ : String → String} (hρ : Fits ρ (pairs n n')) :
    n'.declared = n.declared.map ρ := by
  unfold Names.declared
  have hassigned := h.assigned
  generalize n.assigned = l at hassigned ⊢
  generalize n'.assigned = l' at hassigned ⊢
  induction hassigned with
  | nil => rfl
  | @cons p p' l l' hp _ ih => rw [List.map_cons, List.map_cons, List.map_cons, hρ _ hp.2, ih]

end Twinned

end ScopeBlocks.Names
