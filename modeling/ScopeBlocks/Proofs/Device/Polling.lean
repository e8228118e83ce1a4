import Mathlib.Data.Nat.Find
import ScopeBlocks.Device.Errand

/-! How an action is polled. Its answers are looked at one after another: one that is not unsettled decides the
result, and so does an unsettled one when there have been as many polls as there may be, or when it has no address.
Every other one leads to the next poll, one interval later, at the address that it gives. -/
namespace ScopeBlocks

abbrev Bridge.Answer := Except DeviceError Json

/-- A service that gives some answers one after another, and keeps the requests. -/
def Service.scripted (answers : Nat → Bridge.Answer) : Service (List Request) where
  ask r sent := (answers sent.length, sent ++ [r])

def Json.status? (reply : Json) : Option String := (reply.get? "status").bind Json.str?

def Json.href? (reply : Json) : Option String := (reply.get? "href").bind Json.str?

def Json.Unsettled (reply : Json) : Prop := reply.status? = some "pending" ∨ reply.status? = some "running"

def Bridge.Answer.href : Bridge.Answer → String
  | .ok reply => reply.href?.getD ""
  | .error _ => ""

namespace Bridge

/-- What an answer to an action decides after some polls. -/
inductive Decides (b : Bridge) (path : String) (polls : Nat) : Answer → Answer → Prop
  | failure (e : DeviceError) : Decides b path polls (.error e) (.error e)
  | broken {reply : Json} {status : String} (h : reply.status? = some status)
    (hbroken : status ∈ ["failed", "error", "cancelled"]) :
    Decides b path polls (.ok reply) (.error (.actionFailed path status))
  | settled {reply : Json} (h : ∀ status ∈ ["pending", "running", "failed", "error", "cancelled"],
      reply.status? ≠ some status) : Decides b path polls (.ok reply) (.ok reply)
  | timeout {reply : Json} (h : reply.Unsettled) (limit : b.maxPolls = some polls) :
    Decides b path polls (.ok reply) (.error (.timeout path polls))
  | noAddress {reply : Json} (h : reply.Unsettled) (limit : b.maxPolls ≠ some polls) (address : reply.href? = none) :
    Decides b path polls (.ok reply) (.error (.missingField path "href"))

/-- Whether an answer after some polls leads to another one. -/
def LeadsOn (b : Bridge) (polls : Nat) (answer : Answer) : Prop :=
  ∃ reply, answer = .ok reply ∧ reply.Unsettled ∧ b.maxPolls ≠ some polls ∧ reply.href?.isSome = true

/-- Whether an answer is the first one to decide the result of an action. -/
structure Ends (b : Bridge) (path : String) (answers : Nat → Answer) (k : Nat) (result : Answer) : Prop where
  before : ∀ i < k, b.LeadsOn i (answers i)
  decides : b.Decides path k (answers k) result

/-- The first requests of an action: it is created, and then polled at the address in each answer. -/
def requests (b : Bridge) (request : ActionRequest) (answers : Nat → Answer) : Nat → List Request
  | 0 => []
  | n + 1 => ⟨request.method, b.actionUrl request.path, request.body⟩ ::
    (List.range n).map fun i => ⟨.get, b.absolute (answers i).href, none⟩

variable {b : Bridge} {path : String} {polls : Nat} {answer result : Answer}

theorem decides_or_leadsOn (b : Bridge) (path : String) (polls : Nat) (answer : Answer) :
    (∃ result, b.Decides path polls answer result) ∨ b.LeadsOn polls answer := by
  cases answer with
  | error e => exact .inl ⟨_, .failure e⟩
  | ok reply =>
    by_cases hbroken : ∃ status ∈ ["failed", "error", "cancelled"], reply.status? = some status
    · obtain ⟨status, hmem, hstatus⟩ := hbroken
      exact .inl ⟨_, .broken hstatus hmem⟩
    by_cases hunsettled : reply.Unsettled
    · by_cases hlimit : b.maxPolls = some polls
      · exact .inl ⟨_, .timeout hunsettled hlimit⟩
      cases haddress : reply.href? with
      | none => exact .inl ⟨_, .noAddress hunsettled hlimit haddress⟩
      | some href => exact .inr ⟨reply, rfl, hunsettled, hlimit, by rw [haddress]; rfl⟩
    · refine .inl ⟨_, .settled fun status hmem hstatus => ?_⟩
      simp only [List.mem_cons, List.not_mem_nil, or_false] at hmem hbroken
      rcases hmem with rfl | rfl | hmem
      · exact hunsettled (.inl hstatus)
      · exact hunsettled (.inr hstatus)
      · exact hbroken ⟨status, hmem, hstatus⟩

variable {answers : Nat → Answer} {n : Nat}

/-- An action ends with some answer, or goes on for ever. -/
theorem ends_or_leadsOn (b : Bridge) (path : String) (answers : Nat → Answer) :
    (∃ k result, b.Ends path answers k result) ∨ ∀ i, b.LeadsOn i (answers i) := by
  classical
  by_cases h : ∀ i, b.LeadsOn i (answers i)
  · exact .inr h
  · have hsome : ∃ k, ¬b.LeadsOn k (answers k) := not_forall.1 h
    have hfirst : ∀ i < Nat.find hsome, b.LeadsOn i (answers i) := fun i hi => not_not.1 (Nat.find_min hsome hi)
    obtain ⟨result, hresult⟩ := (b.decides_or_leadsOn path _ _).resolve_right (Nat.find_spec hsome)
    exact .inl ⟨_, result, hfirst, hresult⟩

theorem le_limit (h : ∀ i < n, b.LeadsOn i (answers i)) {m : Nat} (hm : b.maxPolls = some m) : n ≤ m := by
  refine Nat.le_of_not_lt fun hlt => ?_
  obtain ⟨_, _, _, hne, _⟩ := h m hlt
  exact hne hm

/-! Answers as they are handled. -/

theorem ofReply_of_unsettled {reply : Json} (h : reply.Unsettled) : Verdict.ofReply reply = .unsettled := by
  unfold Verdict.ofReply
  unfold Json.Unsettled Json.status? at h
  rcases h with h | h
  · rw [h]
    rfl
  · rw [h]
    rfl

theorem limit_iff (h : ∀ m, b.maxPolls = some m → polls ≤ m) :
    b.maxPolls.any (· ≤ polls) = true ↔ b.maxPolls = some polls := by
  cases hmax : b.maxPolls with
  | none => simp
  | some m =>
    have hle := h m hmax
    simp only [Option.any_some, decide_eq_true_eq, Option.some.injEq]
    omega

theorem afterReply_of_decides (h : b.Decides path polls answer result)
    (hlimit : ∀ m, b.maxPolls = some m → polls ≤ m) :
    b.afterReply path .whole polls answer = .settled result := by
  cases h with
  | failure e => rfl
  | @broken reply status h hbroken =>
    have hverdict : Verdict.ofReply reply = .broken status := by
      unfold Verdict.ofReply
      unfold Json.status? at h
      rw [h]
      simp only [List.mem_cons, List.not_mem_nil, or_false] at hbroken
      rcases hbroken with rfl | rfl | rfl <;> rfl
    simp only [afterReply, hverdict]
  | @settled reply h =>
    have hverdict : Verdict.ofReply reply = .settled := by
      unfold Verdict.ofReply
      unfold Json.status? at h
      split <;> first | rfl | exact absurd ‹_› (h _ (by simp))
    simp only [afterReply, hverdict]
    rfl
  | timeout h limit => simp only [afterReply, ofReply_of_unsettled h, (limit_iff hlimit).2 limit, if_true]
  | noAddress h limit address =>
    have hgoes := mt (limit_iff hlimit).1 limit
    unfold Json.href? at address
    simp only [afterReply, ofReply_of_unsettled h, hgoes, address]
    rfl

variable (path) in
theorem afterReply_of_leadsOn (h : b.LeadsOn polls answer) (hlimit : ∀ m, b.maxPolls = some m → polls ≤ m) :
    b.afterReply path .whole polls answer = .polling path .whole (b.absolute answer.href) polls := by
  obtain ⟨reply, rfl, hunsettled, hmax, haddress⟩ := h
  obtain ⟨href, hhref⟩ := Option.isSome_iff_exists.1 haddress
  have hgoes := mt (limit_iff hlimit).1 hmax
  have hanswer : Answer.href (.ok reply) = href := by rw [Answer.href, hhref, Option.getD_some]
  unfold Json.href? at hhref
  simp only [afterReply, ofReply_of_unsettled hunsettled, hgoes, hhref, hanswer]
  rfl

end Bridge

/-! Errands as they go on. -/

namespace Errand

open Bridge (Answer)

variable {σ : Type} {b : Bridge} {service : Service σ} {e : Errand} {s : σ}

theorem finishWithin_of_settled (n : Nat) (h : e.isSettled = true) :
    finishWithin b service n e s = (e, s) := by
  cases n with
  | zero => rfl
  | succ n => rw [finishWithin, if_pos h]

theorem finishWithin_add (m n : Nat) (e : Errand) (s : σ) : finishWithin b service (m + n) e s =
    finishWithin b service n (finishWithin b service m e s).1 (finishWithin b service m e s).2 := by
  induction m generalizing e s with
  | zero => rw [Nat.zero_add, finishWithin]
  | succ m ih =>
    by_cases h : e.isSettled = true
    · rw [finishWithin_of_settled (m + 1 + n) h, finishWithin_of_settled (m + 1) h, finishWithin_of_settled n h]
    · rw [Nat.add_right_comm, finishWithin, finishWithin, if_neg h, if_neg h]
      exact ih _ _

theorem finishWithin_one (h : e.isSettled = false) : finishWithin b service 1 e s = b.fire service e s := by
  rw [finishWithin, if_neg (by rw [h]; decide)]
  rfl

def started (request : ActionRequest) (start : Nat) : Errand := ⟨.created (.act request .whole), start⟩

variable (b : Bridge) (request : ActionRequest) (answers : Nat → Answer) (start : Nat)

/-- An action after some steps, and its requests up to then. -/
def after (n : Nat) : Errand × List Request := finishWithin b (.scripted answers) n (started request start) []

theorem length_requests (n : Nat) : (b.requests request answers n).length = n := by
  cases n with
  | zero => rfl
  | succ n => simp [Bridge.requests]

theorem requests_succ (n : Nat) : b.requests request answers (n + 2) =
    b.requests request answers (n + 1) ++ [⟨.get, b.absolute (answers n).href, none⟩] := by
  rw [Bridge.requests, Bridge.requests, List.range_succ, List.map_append, List.map_singleton, List.cons_append]

variable {b request answers start}

theorem after_succ {n : Nat} (h : ∀ i < n, b.LeadsOn i (answers i)) : after b request answers start (n + 1) =
    (b.errandAt (start + n * b.pollInterval) (b.afterReply request.path .whole n (answers n)),
      b.requests request answers (n + 1)) := by
  induction n with
  | zero =>
    rw [Nat.zero_mul, Nat.add_zero]
    rfl
  | succ n ih =>
    have hbefore : ∀ i < n, b.LeadsOn i (answers i) := fun i hi => h i (Nat.lt_succ_of_lt hi)
    have hstage := Bridge.afterReply_of_leadsOn request.path (h n (Nat.lt_succ_self n))
      fun m hm => Bridge.le_limit hbefore hm
    have hdue : start + n * b.pollInterval + b.pollInterval = start + (n + 1) * b.pollInterval := by
      rw [Nat.succ_mul, Nat.add_assoc]
    rw [after, finishWithin_add (n + 1) 1, ← after, ih hbefore, hstage, finishWithin_one rfl, requests_succ, ← hdue]
    simp only [Bridge.errandAt, Bridge.fire, Service.get, Service.scripted, length_requests]

theorem after_of_leadsOn {n : Nat} (h : ∀ i < n, b.LeadsOn i (answers i)) :
    let r := after b request answers start n
    r.1.result? = none ∧ r.1.due = start + n * b.pollInterval ∧ r.2 = b.requests request answers n := by
  cases n with
  | zero => exact ⟨rfl, by rw [Nat.zero_mul]; rfl, rfl⟩
  | succ n =>
    have hbefore : ∀ i < n, b.LeadsOn i (answers i) := fun i hi => h i (Nat.lt_succ_of_lt hi)
    have hstage := Bridge.afterReply_of_leadsOn request.path (h n (Nat.lt_succ_self n))
      fun m hm => Bridge.le_limit hbefore hm
    rw [after_succ hbefore, hstage, Nat.succ_mul, ← Nat.add_assoc]
    exact ⟨rfl, rfl, rfl⟩

/-- An action ends with the first answer that decides its result, whatever comes later. -/
theorem after_of_ends {k n : Nat} {result : Answer} (h : b.Ends request.path answers k result) (hn : k < n) :
    after b request answers start n =
      (⟨.settled result, start + k * b.pollInterval⟩, b.requests request answers (k + 1)) := by
  obtain ⟨more, rfl⟩ := Nat.exists_eq_add_of_lt hn
  have hstage := Bridge.afterReply_of_decides h.decides fun m hm => Bridge.le_limit h.before hm
  rw [Nat.add_right_comm, after, finishWithin_add, ← after, after_succ h.before, hstage]
  exact finishWithin_of_settled more rfl

/-- Under a limit an action ends in time. -/
theorem ends_of_limit (path : String) (answers : Nat → Answer) {m : Nat} (hm : b.maxPolls = some m) :
    ∃ k result, k ≤ m ∧ b.Ends path answers k result := by
  obtain ⟨k, result, h⟩ := (b.ends_or_leadsOn path answers).resolve_right fun hall =>
    absurd (Bridge.le_limit (fun i (_ : i < m + 1) => hall i) hm) (Nat.not_succ_le_self m)
  exact ⟨k, result, Bridge.le_limit h.before hm, h⟩

theorem length_after_le {k : Nat} {result : Answer} (h : b.Ends request.path answers k result) (n : Nat) :
    (after b request answers start n).2.length ≤ k + 1 := by
  rcases Nat.lt_or_ge k n with hn | hn
  · rw [after_of_ends h hn, length_requests]
  · rw [(after_of_leadsOn fun i hi => h.before i (Nat.lt_of_lt_of_le hi hn)).2.2, length_requests]
    exact Nat.le_succ_of_le hn

theorem decides_of_result {n : Nat} {result : Answer} (h : (after b request answers start n).1.result? = some result) :
    ∃ k, b.Decides request.path k (answers k) result := by
  have hgoes (hall : ∀ i < n, b.LeadsOn i (answers i)) : False := by
    rw [(after_of_leadsOn hall).1] at h
    cases h
  rcases b.ends_or_leadsOn request.path answers with ⟨k, decided, hends⟩ | hall
  · rcases Nat.lt_or_ge k n with hn | hn
    · rw [after_of_ends hends hn] at h
      exact ⟨k, Option.some.inj h ▸ hends.decides⟩
    · exact (hgoes fun i hi => hends.before i (Nat.lt_of_lt_of_le hi hn)).elim
  · exact (hgoes fun i _ => hall i).elim

/-- Without a limit no answer decides that there have been too many polls, unless it says so itself. -/
theorem answer_of_timeout {path : String} {k polls : Nat} {answer : Answer} (hm : b.maxPolls = none)
    (h : b.Decides path k answer (.error (.timeout path polls))) : answer = .error (.timeout path polls) := by
  cases h with
  | failure => rfl
  | timeout _ limit =>
    rw [hm] at limit
    cases limit

/-- An action is created and then polled until an answer decides its result, in however many steps it is looked at.
The answer with number `k` is that of the request after `k` waits and the last one; there is such an answer if the
polls are limited, and without a limit they are never too many. -/
theorem action_polled (b : Bridge) (request : ActionRequest) (answers : Nat → Answer) (start : Nat) :
    let run (n : Nat) := finishWithin b (.scripted answers) n ⟨.created (.act request .whole), start⟩ []
    (∀ k result, b.Ends request.path answers k result → ∀ n, k < n →
      run n = (⟨.settled result, start + k * b.pollInterval⟩, b.requests request answers (k + 1))) ∧
    (∀ n, (∀ i < n, b.LeadsOn i (answers i)) → (run n).1.result? = none ∧
      (run n).1.due = start + n * b.pollInterval ∧ (run n).2 = b.requests request answers n) ∧
    ((∃ k result, b.Ends request.path answers k result) ∨ ∀ i, b.LeadsOn i (answers i)) ∧
    (∀ m, b.maxPolls = some m → (∃ k result, k ≤ m ∧ b.Ends request.path answers k result) ∧
      ∀ n, (run n).2.length ≤ m + 1) ∧
    (b.maxPolls = none → ∀ n polls, (run n).1.result? = some (.error (.timeout request.path polls)) →
      ∃ k, answers k = .error (.timeout request.path polls)) := by
  intro run
  refine ⟨fun k result h n hn => after_of_ends h hn, fun n h => after_of_leadsOn h,
    b.ends_or_leadsOn request.path answers, fun m hm => ?_, fun hm n polls htimeout => ?_⟩
  · obtain ⟨k, result, hk, h⟩ := ends_of_limit request.path answers hm
    exact ⟨⟨k, result, hk, h⟩, fun n => Nat.le_trans (length_after_le h n) (Nat.succ_le_succ hk)⟩
  · obtain ⟨k, h⟩ := decides_of_result htimeout
    exact ⟨k, answer_of_timeout hm h⟩

def scope : Bridge := ⟨"http://scope", "api/v2", "ESP32Stage", 1000, some 3⟩

/-- Two answers of an action that is running, and then that it is done. -/
def acquisition : Nat → Answer
  | 0 | 1 => .ok (.object [("status", .str "running"), ("href", .str "/tasks/7")])
  | _ => .ok (.object [("status", .str "completed"), ("output", .int 1)])

theorem acquisition_polled :
    let request : ActionRequest := ⟨.get, "acquireImage", none⟩
    let run := finishWithin scope (.scripted acquisition) 9 ⟨.created (.act request .whole), 0⟩ []
    run.1 = ⟨.settled (acquisition 2), 2000⟩ ∧
      run.2.map Request.url = ["http://scope/acquireImage", "http://scope/tasks/7", "http://scope/tasks/7"] := by
  have hrunning : ∀ i < 2, scope.LeadsOn i (acquisition i) := by
    have hstatus : ∀ i < 2, scope.maxPolls ≠ some i := by decide
    intro i hi
    obtain rfl | rfl : i = 0 ∨ i = 1 := by omega
    all_goals exact ⟨_, rfl, .inr (by decide), hstatus _ hi, by decide⟩
  have hdone : scope.Decides "acquireImage" 2 (acquisition 2) (acquisition 2) := .settled (by decide)
  intro request run
  have hrun := (action_polled scope request acquisition 0).1 2 _ ⟨hrunning, hdone⟩ 9 (by decide)
  unfold run
  dsimp only at hrun
  rw [hrun]
  exact ⟨rfl, by decide +kernel⟩

end Errand

end ScopeBlocks
