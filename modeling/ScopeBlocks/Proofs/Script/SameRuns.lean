import ScopeBlocks.Proofs.Script.FreeUses
import ScopeBlocks.Proofs.Script.RenamedWalk
import ScopeBlocks.Proofs.Script.Suspension
import ScopeBlocks.Proofs.Script.WalkUnits

/-! Programs that do the same, though one of them may take more units for it. Whatever a driver has seen of the
one, another driver can see of the other one: the same prints, prompts, marks and calls, with the same answers,
and the same end. That holds of programs whose walks come to the same after some units without effect. -/
namespace ScopeBlocks.Script

/-! Drivers and walks. -/

/-- What a driver hears of a walk. -/
def Completion.verdict : Completion → Verdict
  | .normal => .done
  | .failed e => .failed e
  | .starved call => .starved call
  | .cut | .broke | .continued => .running

variable {σ : Type} {host : Host σ} {program program' : Program} {s : σ}

namespace Reference

variable {r q p : Reference σ} {v : Verdict} {n : Nat}

theorem walk_of_ended (h : p.step host = (v, q)) (hv : v ≠ .running) (units : Nat) (done : List Piece) :
    (p.walk host (units + 1) done).1.verdict = v ∧ (p.walk host (units + 1) done).2.world = q.world ∧
      (p.walk host (units + 1) done).2.answers = q.answers := by
  cases v with
  | running => exact absurd rfl hv
  | done =>
    obtain ⟨rfl, hf⟩ := of_done h
    rw [walk_of_empty hf]
    exact ⟨rfl, rfl, rfl⟩
  | failed e | starved call =>
    have hf : settle p.frames ≠ [] := by
      intro hf
      rw [step_of_empty hf] at h
      cases h
    rw [walk_succ hf, h]
    exact ⟨rfl, rfl, rfl⟩

theorem ended_unique {u : Verdict} {m : Nat} (h : r.run host n = (v, q)) (hv : v ≠ .running)
    (h' : r.run host m = (u, p)) (hu : u ≠ .running) : (v, q) = (u, p) := by
  rw [← run_add_of_ended h hv m, ← run_add_of_ended h' hu n, Nat.add_comm]

theorem lt_of_ended {m : Nat} (h : r.run host n = (v, q)) (hv : v ≠ .running)
    (h' : r.run host m = (.running, p)) : m < n := by
  refine Nat.lt_of_not_le fun hle => hv ?_
  have hrun := run_add_of_ended h hv (m - n)
  rw [Nat.add_sub_cancel' hle, h'] at hrun
  exact (congrArg Prod.fst hrun).symm

end Reference

namespace Driver

variable {answers : List Value} {q : Reference σ} {v : Verdict} {n : Nat}

theorem driven_to_end (h : (Reference.start program s answers).run host n = (v, q)) (hv : v ≠ .running) :
    ∃ calls d, Driven host calls (.start program s) d ∧ d.AtRest ∧ d.verdict = v ∧ d.world = q.world ∧
      answers = d.delivered ++ q.answers := by
  obtain ⟨calls, d, rest, hd, rfl, hcaught⟩ := run_driven host program s answers n
  obtain ⟨k, hk, hanswers, hrunning⟩ :=
    (aligned_start.driven hd).agrees hcaught.atRest hcaught.rest_eq_nil
  refine ⟨calls, d, hd, hcaught.atRest, ?_⟩
  by_cases hgoes : d.verdict = .running
  · obtain rfl : k = n := (hrunning hgoes).trans (hcaught.units_of_running hgoes)
    rw [h] at hk
    exact absurd (hk.verdict.symm.trans hgoes) hv
  · rcases hr : (Reference.start program s (d.delivered ++ rest)).run host k with ⟨u, p⟩
    rw [hr] at hk hanswers
    have hu : u ≠ .running := fun hu => hgoes (hk.verdict.trans hu)
    cases Reference.ended_unique h hv hr hu
    exact ⟨hk.verdict, hk.world, hanswers ▸ rfl⟩

theorem driven_between (h : (Reference.start program s answers).run host n = (.running, q)) :
    ∃ calls d, Driven host calls (.start program s) d ∧ d.AtRest ∧ d.world = q.world ∧
      answers = d.delivered ++ q.answers := by
  obtain ⟨calls, d, rest, hd, rfl, hcaught⟩ := run_driven host program s answers n
  obtain ⟨k, hk, hanswers, hrunning⟩ :=
    (aligned_start.driven hd).agrees hcaught.atRest hcaught.rest_eq_nil
  refine ⟨calls, d, hd, hcaught.atRest, ?_⟩
  by_cases hgoes : d.verdict = .running
  · obtain rfl : k = n := (hrunning hgoes).trans (hcaught.units_of_running hgoes)
    rw [h] at hk hanswers
    exact ⟨hk.world, hanswers ▸ rfl⟩
  · -- the driver has ended in no unit before this one, so it is done just now
    rcases hr : (Reference.start program s (d.delivered ++ rest)).run host k with ⟨u, p⟩
    rw [hr] at hk hanswers
    have hu : u ≠ .running := fun hu => hgoes (hk.verdict.trans hu)
    obtain ⟨j, p', hj, hp⟩ := Reference.last_step hr hu
    have hunits : d.machine.units = j := by
      rw [hk.units, (Reference.step_of_ended hp hu).2, Reference.units_of_run hj]
      exact Nat.zero_add j
    have hlate : ¬j < n := by
      intro hlt
      have hended := Reference.run_succ_of_running hj
      rw [hp] at hended
      exact Nat.not_lt_of_le hlt (Reference.lt_of_ended hended hu h)
    have hdone : u = .done ∧ j = n := by
      cases hcaught with
      | between hend hs _ _ => simp [verdict, hend, hs] at hgoes
      | waiting _ _ _ _ within => exact absurd (hunits ▸ within) hlate
      | ended result hend _ within =>
        rcases within with hlt | ⟨rfl, hn⟩
        · exact absurd (hunits ▸ hlt) hlate
        · refine ⟨hk.verdict.symm.trans ?_, hunits.symm.trans hn⟩
          simp [verdict, hend, Verdict.ofEnd]
    obtain ⟨rfl, rfl⟩ := hdone
    obtain ⟨rfl, -⟩ := Reference.of_done hp
    cases h.symm.trans hj
    exact ⟨hk.world, hanswers ▸ rfl⟩

/-- A driver that rests has done what some walk does with the answers that it has had. -/
theorem walk_of_driven (hplaced : placedAll false program = true) {calls : List DriverCall} {d : Driver σ}
    (hd : Driven host calls (.start program s) d) (hrest : d.AtRest) : ∃ n,
      (program.walk host s d.delivered n).2.world = d.world ∧
        (program.walk host s d.delivered n).2.answers = [] ∧
          (d.verdict ≠ .running → (program.walk host s d.delivered n).1.verdict = d.verdict) := by
  obtain ⟨k, hk, hanswers, -⟩ := (aligned_start.driven hd).agrees hrest (fun _ => rfl)
  rw [List.append_nil] at hk hanswers
  rcases hr : (Reference.start program s d.delivered).run host k with ⟨v, q⟩
  rw [hr] at hk hanswers
  by_cases hv : v = .running
  · subst hv
    refine ⟨k + 0, ?_⟩
    rw [Program.walk_eq hplaced, Reference.walk_of_run hr, Reference.walk_stays]
    exact ⟨hk.world.symm, hanswers, fun hgoes => absurd hk.verdict hgoes⟩
  · obtain ⟨j, p, hj, hp⟩ := Reference.last_step hr hv
    obtain ⟨hverdict, hworld, hleft⟩ :=
      Reference.walk_of_ended hp hv 0 ([] ++ (Reference.start program s d.delivered).pieces host j)
    refine ⟨j + 1, ?_⟩
    rw [Program.walk_eq hplaced, Reference.walk_of_run hj]
    exact ⟨hworld.trans hk.world.symm, hleft.trans hanswers, fun _ => hverdict.trans hk.verdict.symm⟩

theorem driven_along_walk (hplaced : placedAll false program = true) (host : Host σ) (s : σ)
    (answers : List Value) (n : Nat) : ∃ calls d, Driven host calls (.start program s) d ∧ d.AtRest ∧
      d.world = (program.walk host s answers n).2.world ∧
        answers = d.delivered ++ (program.walk host s answers n).2.answers ∧
          ((program.walk host s answers n).1.verdict ≠ .running →
            d.verdict = (program.walk host s answers n).1.verdict) := by
  rw [Program.walk_eq hplaced]
  rcases hr : (Reference.start program s answers).run host n with ⟨v, q⟩
  by_cases hv : v = .running
  · subst hv
    have hwalk := Reference.walk_of_run hr 0 []
    rw [Nat.add_zero] at hwalk
    by_cases hf : settle q.frames = []
    · have hend := Reference.run_succ_of_running hr
      rw [Reference.step_of_empty hf] at hend
      obtain ⟨calls, d, hd, hrest, hverdict, hworld, hanswers⟩ := driven_to_end hend (by simp)
      rw [hwalk, Reference.walk_of_empty hf]
      exact ⟨calls, d, hd, hrest, hworld, hanswers, fun _ => hverdict⟩
    · obtain ⟨calls, d, hd, hrest, hworld, hanswers⟩ := driven_between hr
      rw [hwalk, Reference.walk_zero hf]
      exact ⟨calls, d, hd, hrest, hworld, hanswers, fun h => absurd rfl h⟩
  · obtain ⟨calls, d, hd, hrest, hverdict, hworld, hanswers⟩ := driven_to_end hr hv
    obtain ⟨j, p, hj, hp⟩ := Reference.last_step hr hv
    obtain ⟨units, rfl⟩ := Nat.exists_eq_add_of_lt (Reference.lt_of_ended hr hv hj)
    obtain ⟨hended, hthere, hleft⟩ :=
      Reference.walk_of_ended hp hv units ([] ++ (Reference.start program s answers).pieces host j)
    rw [Nat.add_assoc, Reference.walk_of_run hj]
    exact ⟨calls, d, hd, hrest, hworld.trans hthere.symm, hleft ▸ hanswers, fun _ => hverdict.trans hended.symm⟩

end Driver

/-! Programs. -/

/-- Whether a driver has done what another one has done, and has ended or waits like it if that one does. -/
structure Driver.Echoes (d d' : Driver σ) : Prop where
  world : d'.world = d.world
  delivered : d'.delivered = d.delivered
  verdict : d.verdict ≠ .running → d'.verdict = d.verdict

/-- Whether all that one program does, on any host and with any answers, the other one does as well. -/
def DoesAll (program program' : Program) : Prop :=
  ∀ {σ : Type} (host : Host σ) (s : σ) (calls : List DriverCall) (d : Driver σ),
    Driver.Driven host calls (.start program s) d → d.AtRest →
      ∃ calls' d', Driver.Driven host calls' (.start program' s) d' ∧ d'.AtRest ∧ d.Echoes d'

/-- Whether two programs do the same and end alike, in however many units. -/
def SameRuns (program program' : Program) : Prop := DoesAll program program' ∧ DoesAll program' program

/-- Whether a program has no effect in its first units. -/
def SilentFor (k : Nat) (program : Program) : Prop :=
  ∀ {σ : Type} (host : Host σ) (s : σ) (answers : List Value), ∀ n < k,
    (program.walk host s answers n).1 = .cut ∧ (program.walk host s answers n).2.world = ⟨s, []⟩ ∧
      (program.walk host s answers n).2.answers = answers

/-- Whether two walks have come to the same. -/
structure Walk.Meets (r r' : Completion × Walk σ) : Prop where
  verdict : r'.1.verdict = r.1.verdict
  world : r'.2.world = r.2.world
  answers : r'.2.answers = r.2.answers

theorem Walk.Meets.symm {r r' : Completion × Walk σ} (h : Walk.Meets r r') : Walk.Meets r' r :=
  ⟨h.verdict.symm, h.world.symm, h.answers.symm⟩

/-- Whatever one program does the other one does whose walks come to the same once each of the two has gone
through some units, in which the first one has no effect. -/
theorem doesAll_of_walks {k k' : Nat} (hplaced : placedAll false program = true)
    (hplaced' : placedAll false program' = true) (hsilent : SilentFor k program)
    (h : ∀ {σ : Type} (host : Host σ) (s : σ) (answers : List Value) (n : Nat),
      Walk.Meets (program.walk host s answers (k + n)) (program'.walk host s answers (k' + n))) :
    DoesAll program program' := by
  intro σ host s calls d hd hrest
  obtain ⟨n, hworld, hanswers, hverdict⟩ := Driver.walk_of_driven hplaced hd hrest
  by_cases hn : n < k
  · obtain ⟨hcut, hstart, hnone⟩ := hsilent host s d.delivered n hn
    refine ⟨[], .start program' s, .nil rfl, fun _ => rfl, hstart.symm.trans hworld, ?_, fun hv => ?_⟩
    · exact (hnone.symm.trans hanswers).symm
    · exact absurd ((hverdict hv).symm.trans (congrArg Completion.verdict hcut)) hv
  · obtain ⟨m, rfl⟩ := Nat.exists_eq_add_of_le (Nat.le_of_not_lt hn)
    have hmeets := h host s d.delivered m
    obtain ⟨calls', d', hd', hrest', hthere, hdelivered, hend⟩ :=
      Driver.driven_along_walk hplaced' host s d.delivered (k' + m)
    refine ⟨calls', d', hd', hrest', hthere.trans (hmeets.world.trans hworld), ?_, fun hv => ?_⟩
    · rw [hmeets.answers, hanswers, List.append_nil] at hdelivered
      exact hdelivered.symm
    · rw [hmeets.verdict, hverdict hv] at hend
      exact hend hv

/-! Programs with other variables. -/

section Renaming

variable {ρ : String → String}

def Verdict.rename (ρ : String → String) : Verdict → Verdict
  | .failed e => .failed (e.rename ρ)
  | verdict => verdict

theorem verdict_rename (c : Completion) : (c.rename ρ).verdict = c.verdict.rename ρ := by
  cases c <;> rfl

theorem Verdict.rename_ofEnd {result : Except Error Unit}
    (h : ∀ u : Use, result = .error (.fault u.fault) → ρ u.name = u.name) :
    (ofEnd result).rename ρ = ofEnd result := by
  rcases result with (cause | _) | _
  · cases cause with
    | unbound x => exact congrArg (failed <| .fault <| .unbound ·) (h (.read x) rfl)
    | undeclared x => exact congrArg (failed <| .fault <| .undeclared ·) (h (.change x) rfl)
    | _ => rfl
  · rfl
  · rfl

variable (hplaced : placedAll false program = true)
  (hfree : ∀ u ∈ freeAll program, ρ u.name = u.name)

include hplaced hfree

theorem rename_verdict_walk (host : Host σ) (s : σ) (answers : List Value) (n : Nat) :
    (program.walk host s answers n).1.verdict.rename ρ = (program.walk host s answers n).1.verdict := by
  by_cases hv : (program.walk host s answers n).1.verdict = .running
  · rw [hv]
    rfl
  · obtain ⟨calls, d, hd, -, -, -, hend⟩ := Driver.driven_along_walk hplaced host s answers n
    rw [← hend hv]
    unfold Driver.verdict
    split
    next result hended => exact Verdict.rename_ofEnd fun u hu => hfree u (free_of_missed hd (hu ▸ hended))
    next => rfl
    next => rfl

/-- Programs do the same whose walks come to the same, but for the names of variables, once each of the two
has gone through some units without effect. -/
theorem sameRuns_of_walks {k k' : Nat} (hplaced' : placedAll false program' = true)
    (hsilent : SilentFor k program) (hsilent' : SilentFor k' program')
    (h : ∀ {σ : Type} (host : Host σ) (s : σ) (answers : List Value) (n : Nat),
      let r := program.walk host s answers (k + n)
      let r' := program'.walk host s answers (k' + n)
      r'.1 = r.1.rename ρ ∧ r'.2.world = r.2.world ∧ r'.2.answers = r.2.answers) :
    SameRuns program program' := by
  have hmeets {σ : Type} (host : Host σ) (s : σ) (answers : List Value) (n : Nat) :
      Walk.Meets (program.walk host s answers (k + n)) (program'.walk host s answers (k' + n)) := by
    obtain ⟨hcompletion, hworld, hanswers⟩ := h host s answers n
    refine ⟨?_, hworld, hanswers⟩
    rw [hcompletion, verdict_rename, rename_verdict_walk hplaced hfree]
  exact ⟨doesAll_of_walks hplaced hplaced' hsilent hmeets,
    doesAll_of_walks hplaced' hplaced hsilent' fun host s answers n => (hmeets host s answers n).symm⟩

end Renaming

end ScopeBlocks.Script
