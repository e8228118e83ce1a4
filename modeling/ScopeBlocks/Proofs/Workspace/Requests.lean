import Mathlib.Data.List.Pairwise
import ScopeBlocks.Proofs.Workspace.TwinNames

/-! Identifiers that are given out one after another. Variables and helpers draw them from one pool, in any
order: a variable that is asked for again has the identifier that it was given first, and every other request is
answered with a new one. -/
namespace ScopeBlocks.Names

open Script (Token)

/-- A variable is asked for by its name, a helper by the text that its identifier is made of. -/
inductive Request where
  | named (name : String)
  | helper (base : String)
  deriving DecidableEq, Repr

def Request.answer (n : Names) : Request → String × Names
  | .named name => n.identify name
  | .helper base => n.distinct base

/-- Requests with the identifiers that answer them, in order, and the names after them. -/
def serve (n : Names) : List Request → List (Request × String) × Names
  | [] => ([], n)
  | r :: rest =>
    let (ident, n) := r.answer n
    let (more, n) := n.serve rest
    ((r, ident) :: more, n)

/-- The identifier of a variable, where one was asked for. -/
def variableIdent? : Request × String → Option String
  | (.named _, ident) => some ident
  | (.helper _, _) => none

/-- Whether two requests ask for the same variable. -/
def SameVariable (p q : Request × String) : Prop := ∃ name, p.1 = .named name ∧ q.1 = .named name

/-! The search for a number. -/

def candidate (base : String) : Nat → String
  | 0 => base
  | k + 1 => base ++ toString (k + 2)

/-- A base comes to its first free candidate. -/
def FirstFree (n : Names) (base ident : String) (k : Nat) : Prop :=
  ident = candidate base k ∧ n.isFree ident = true ∧ ∀ j < k, n.isFree (candidate base j) = false

theorem isFree_candidate {n : Names} {base : String} {k : Nat} :
    n.isFree (candidate base (k + 1)) = true ↔ candidate base (k + 1) ∉ n.taken :=
  isFree_iff.trans (and_iff_right (isReserved_numbered base (k + 2)))

/-- From some number on, the search comes to the first free candidate or to one after all that it tries. -/
theorem freeFrom_first (n : Names) (base : String) (tries k : Nat) :
    ∃ j, n.freeFrom base tries (k + 2) = candidate base (j + k + 1) ∧
      ∀ i < j, n.isFree (candidate base (i + k + 1)) = false := by
  induction tries generalizing k with
  | zero => exact ⟨0, by rw [Nat.zero_add]; rfl, fun i hi => absurd hi (Nat.not_lt_zero i)⟩
  | succ tries ih =>
    rw [freeFrom]
    split
    next => exact ⟨0, by rw [Nat.zero_add]; rfl, fun i hi => absurd hi (Nat.not_lt_zero i)⟩
    next hused =>
      obtain ⟨j, hident, hbefore⟩ := ih (k + 1)
      have hnext (i : Nat) : i + (k + 1) = i + 1 + k := by omega
      simp only [hnext] at hident hbefore
      refine ⟨j + 1, hident, fun i hi => ?_⟩
      cases i with
      | zero =>
        rw [Nat.zero_add]
        exact Bool.eq_false_iff.2 hused
      | succ i => exact hbefore i (Nat.lt_of_succ_lt_succ hi)

/-- Candidates with a number are taken only as often as identifiers have been given out. -/
theorem length_of_used {n : Names} {base : String} {j : Nat}
    (h : ∀ i < j, n.isFree (candidate base (i + 1)) = false) : j ≤ n.taken.length := by
  have htaken : ∀ i < j, candidate base (i + 1) ∈ n.taken := fun i hi => by
    have hused := Bool.eq_false_iff.1 (h i hi)
    rwa [Ne, isFree_candidate, not_not] at hused
  have hnodup : ((List.range j).map fun i => candidate base (i + 1)).Nodup :=
    List.nodup_range.map fun i i' h => Nat.add_right_cancel (numbered_injective base h)
  have hsubset : ((List.range j).map fun i => candidate base (i + 1)) ⊆ n.taken := by
    intro x hx
    obtain ⟨i, hi, rfl⟩ := List.mem_map.1 hx
    exact htaken i (List.mem_range.1 hi)
  have hlength := (hnodup.subperm hsubset).length_le
  rwa [List.length_map, List.length_range] at hlength

/-- The search ends at the first free candidate, after no more rounds than identifiers have been given out and one
for the base. -/
theorem freshIdent_first (n : Names) (base : String) :
    ∃ k ≤ n.taken.length + 1, n.FirstFree base (n.freshIdent base) k := by
  have hnew := n.freshIdent_not_mem base
  by_cases hbase : n.isFree base = true
  · rw [freshIdent, if_pos hbase]
    exact ⟨0, Nat.zero_le _, rfl, hbase, fun j hj => absurd hj (Nat.not_lt_zero j)⟩
  · rw [freshIdent, if_neg hbase] at hnew ⊢
    obtain ⟨j, hident, hbefore⟩ := n.freeFrom_first base n.tries 0
    have hident : n.freeFrom base n.tries 2 = candidate base (j + 1) := hident
    have hbefore : ∀ i < j, n.isFree (candidate base (i + 1)) = false := hbefore
    rw [hident] at hnew ⊢
    refine ⟨j + 1, Nat.succ_le_succ (length_of_used hbefore), rfl, isFree_candidate.2 hnew, fun i hi => ?_⟩
    cases i with
    | zero => exact Bool.eq_false_iff.2 hbase
    | succ i => exact hbefore i (Nat.lt_of_succ_lt_succ hi)

/-! One request after another. -/

/-- How the names stand after some requests and their answers. -/
structure Served (n : Names) (log : List (Request × String)) : Prop where
  idents : ∀ p ∈ log, IsIdent p.2
  taken : ∀ p ∈ log, p.2 ∈ n.taken
  assigned : ∀ name ident, n.assigned.lookup name = some ident ↔ (.named name, ident) ∈ log
  apart : log.Pairwise fun p q => p.2 = q.2 ↔ SameVariable p q
  nodup : n.declared.Nodup
  declared : n.declared = (log.filterMap variableIdent?).eraseDups

namespace Served

variable {n : Names} {log : List (Request × String)}

theorem empty : Served empty [] where
  idents p hp := absurd hp List.not_mem_nil
  taken p hp := absurd hp List.not_mem_nil
  assigned name ident := by simp [Names.empty]
  apart := .nil
  nodup := .nil
  declared := rfl

theorem mem_log (h : Served n log) {ident : String} (hi : ident ∈ n.declared) : ∃ p ∈ log, p.2 = ident := by
  rw [h.declared, List.mem_eraseDups] at hi
  obtain ⟨⟨r, x⟩, hp, hx⟩ := List.mem_filterMap.1 hi
  cases r with
  | helper => cases hx
  | named name => exact ⟨_, hp, Option.some.inj hx⟩

theorem apart_new (h : Served n log) {q : Request × String} (hident : q.2 ∉ n.taken)
    (hnew : ∀ p ∈ log, ¬ SameVariable p q) :
    (log ++ [q]).Pairwise fun p q => p.2 = q.2 ↔ SameVariable p q := by
  refine List.pairwise_append.2 ⟨h.apart, List.pairwise_singleton _ _, fun p hp q' hq => ?_⟩
  obtain rfl := List.mem_singleton.1 hq
  exact ⟨fun he => absurd (he ▸ h.taken p hp) hident, fun hsame => absurd hsame (hnew p hp)⟩

theorem helper (h : Served n log) (base : String) :
    Served (n.distinct base).2 (log ++ [(.helper base, (n.distinct base).1)]) where
  idents p hp := (List.mem_append.1 hp).elim (h.idents p) fun hp =>
    List.mem_singleton.1 hp ▸ isIdent_distinct n base
  taken := by
    intro p hp
    obtain hp | hp := List.mem_append.1 hp
    · exact List.mem_cons_of_mem _ (h.taken p hp)
    · obtain rfl := List.mem_singleton.1 hp
      exact List.mem_cons_self
  assigned name ident := by
    rw [List.mem_append, List.mem_singleton, ← h.assigned]
    exact (or_iff_left fun he => by cases he).symm
  apart := by
    refine h.apart_new (n.freshIdent_not_mem _) fun p _ hsame => ?_
    obtain ⟨name, -, hname⟩ := hsame
    cases hname
  nodup := h.nodup
  declared := by
    rw [List.filterMap_append, show [(Request.helper base, _)].filterMap variableIdent? = [] from rfl,
      List.append_nil]
    exact h.declared

theorem known (h : Served n log) {name ident : String} (hknown : n.assigned.lookup name = some ident) :
    Served n (log ++ [(.named name, ident)]) := by
  have hmem := (h.assigned name ident).1 hknown
  have hdeclared : ident ∈ log.filterMap variableIdent? := List.mem_filterMap.2 ⟨_, hmem, rfl⟩
  refine ⟨fun p hp => ?_, fun p hp => ?_, fun x i => ?_, ?_, h.nodup, ?_⟩
  · exact (List.mem_append.1 hp).elim (h.idents p) fun hp => List.mem_singleton.1 hp ▸ h.idents _ hmem
  · exact (List.mem_append.1 hp).elim (h.taken p) fun hp => List.mem_singleton.1 hp ▸ h.taken _ hmem
  · rw [List.mem_append, List.mem_singleton, h.assigned]
    exact ⟨.inl, fun hp => hp.elim id fun hp => hp ▸ hmem⟩
  · refine List.pairwise_append.2 ⟨h.apart, List.pairwise_singleton _ _, fun p hp q hq => ?_⟩
    obtain rfl := List.mem_singleton.1 hq
    have hsymm : Std.Symm fun p q : Request × String => p.2 = q.2 ↔ SameVariable p q :=
      ⟨fun p q hpq => by rw [eq_comm, hpq]; exact exists_congr fun _ => and_comm⟩
    by_cases he : p = (.named name, ident)
    · rw [he]
      exact iff_of_true rfl ⟨name, rfl, rfl⟩
    · exact h.apart.forall hp hmem he
  · rw [List.filterMap_append, List.eraseDups_append, ← h.declared]
    simp [variableIdent?, List.removeAll, hdeclared]

theorem first (h : Served n log) {name : String} (hnew : n.assigned.lookup name = none) :
    Served { (n.distinct name).2 with assigned := n.assigned ++ [(name, (n.distinct name).1)] }
      (log ++ [(.named name, (n.distinct name).1)]) := by
  have hident : (n.distinct name).1 ∉ n.taken := n.freshIdent_not_mem _
  have hdeclared : (n.distinct name).1 ∉ n.declared := fun hmem => by
    obtain ⟨p, hp, he⟩ := h.mem_log hmem
    exact hident (he ▸ h.taken p hp)
  have happend : (n.assigned ++ [(name, (n.distinct name).1)]).map Prod.snd =
      n.declared ++ [(n.distinct name).1] := List.map_append
  refine ⟨fun p hp => ?_, fun p hp => ?_, fun x i => ?_, ?_, ?_, ?_⟩
  · exact (List.mem_append.1 hp).elim (h.idents p) fun hp =>
      List.mem_singleton.1 hp ▸ isIdent_distinct n name
  · obtain hp | hp := List.mem_append.1 hp
    · exact List.mem_cons_of_mem _ (h.taken p hp)
    · obtain rfl := List.mem_singleton.1 hp
      exact List.mem_cons_self
  · rw [List.mem_append, List.mem_singleton, ← h.assigned, List.lookup_append]
    by_cases hx : x = name
    · subst hx
      simp [hnew, eq_comm]
    · have hname : (x == name) = false := by simpa using hx
      simp [List.lookup_cons, hname, hx]
  · refine h.apart_new hident fun p hp hsame => ?_
    obtain ⟨x, hx, hname⟩ := hsame
    cases hname
    have hknown := (h.assigned name p.2).2 (by rw [← hx]; exact hp)
    rw [hnew] at hknown
    cases hknown
  · change ((n.assigned ++ [(name, (n.distinct name).1)]).map Prod.snd).Nodup
    rw [happend]
    exact h.nodup.append (List.nodup_singleton _) (by simpa using hdeclared)
  · change (n.assigned ++ [(name, (n.distinct name).1)]).map Prod.snd = _
    have hmem : (n.distinct name).1 ∉ log.filterMap variableIdent? := by
      rwa [h.declared, List.mem_eraseDups] at hdeclared
    rw [happend, List.filterMap_append, List.eraseDups_append, ← h.declared]
    simp [variableIdent?, List.removeAll, hmem, List.eraseDups_cons]

theorem answer (h : Served n log) (r : Request) : Served (r.answer n).2 (log ++ [(r, (r.answer n).1)]) := by
  cases r with
  | helper base => exact h.helper base
  | named name =>
    change Served (n.identify name).2 (log ++ [(.named name, (n.identify name).1)])
    unfold identify
    cases hlookup : n.assigned.lookup name with
    | some ident => exact h.known hlookup
    | none => exact h.first hlookup

theorem serve (h : Served n log) (requests : List Request) :
    Served (n.serve requests).2 (log ++ (n.serve requests).1) := by
  induction requests generalizing n log with
  | nil => simpa [Names.serve] using h
  | cons r rest ih => simpa [Names.serve] using ih (h.answer r)

end Served

theorem map_fst_serve (n : Names) (requests : List Request) : (n.serve requests).1.map Prod.fst = requests := by
  induction requests generalizing n with
  | nil => rfl
  | cons r rest ih => exact congrArg (r :: ·) (ih _)

/-- All requests are answered with names of scripts. Two answers are the same exactly where both are for one
variable, and the identifiers of the variables are declared once each, in the order of first request. The search
for an identifier always comes to the first candidate that is free. -/
theorem serve_apart (requests : List Request) :
    let (log, n) := empty.serve requests
    log.map Prod.fst = requests ∧
      (∀ p ∈ log, IsIdent p.2 ∧ Token.lexemes? p.2.toList = some [.name p.2]) ∧
      (log.Pairwise fun p q => p.2 = q.2 ↔ SameVariable p q) ∧
      n.declared = (log.filterMap variableIdent?).eraseDups ∧ n.declared.Nodup ∧
      ∀ base, ∃ k ≤ n.taken.length + 1, n.FirstFree (sanitize base) (n.distinct base).1 k := by
  have h := Served.empty.serve requests
  rw [List.nil_append] at h
  refine ⟨map_fst_serve _ _, fun p hp => ⟨h.idents p hp, ?_⟩, h.apart, h.declared, h.nodup, fun base => ?_⟩
  · have hscan := (h.idents p hp).scans [] Token.separated_nil
    rwa [List.append_nil, Token.lexemes?_nil] at hscan
  · exact freshIdent_first _ _

end ScopeBlocks.Names
