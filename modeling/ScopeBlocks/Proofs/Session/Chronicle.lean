import ScopeBlocks.Proofs.Script.Views
import ScopeBlocks.Proofs.Session.OneAtATime

/-! The chronicle of a run: what its script does on the console, the calls that it makes, their results and
how the machine ends. Nothing in it is taken from the transcript, the outcome or the count of failures that
a session keeps; these are what the chronicle says they are, however a session is operated on. -/
namespace ScopeBlocks

open Script (Machine Step AsyncCall Effect Watched)

inductive Entry where
  | acted (effect : Effect)
  | issued (call : AsyncCall)
  | resolved (call : AsyncCall) (result : Resolution)
  | done
  | halted (message : String)

/-- The line that an act of a script writes. -/
def Script.Effect.line? : Effect → Option String
  | .print text => some text
  | _ => none

namespace Entry

def isFailure : Entry → Bool
  | .resolved _ (.failed _) => true
  | _ => false

/-- The lines of an entry: a print writes its text, a failed call a note. -/
def lines : Entry → List String
  | .acted effect => effect.line?.toList
  | .resolved call (.failed message) => [s!"Action {call.text} failed: {message}"]
  | _ => []

def closes (policy : FailurePolicy) : Entry → Bool
  | .done | .halted _ => true
  | e => e.isFailure && policy == .abort

end Entry

/-- The outcome of a run with a chronicle, as its last entry says. -/
def outcome? (policy : FailurePolicy) (entries : List Entry) : Option Outcome :=
  match entries.getLast? with
  | some .done => some (.completed (entries.countP Entry.isFailure))
  | some (.halted message) => some (.failed message)
  | some (.resolved call (.failed message)) =>
    if policy = .abort then some (.failed s!"{call.text} failed: {message}") else none
  | _ => none

namespace Session

/-- What a step of a machine comes to. -/
def stepEntries : Except Script.Error Step → List Entry
  | .ok (.suspend call) => [.issued call]
  | .ok .done => [.done]
  | .error e => [.halted e.message]
  | _ => []

/-- The result that is taken over when the session goes on. -/
def settledEntries (s : Session) : List Entry :=
  match s.pending with
  | none => []
  | some p => p.take.1.toList.map (.resolved p.call)

/-- What the script then does. -/
def drivenEntries (s : Session)
    (watched : Machine → Watched Console → Except Script.Error Step × Machine × Watched Console) :
    List Entry :=
  match s.settle with
  | (some _, _) => []
  | (none, t) =>
    match t.machine with
    | none => []
    | some m =>
      let (step, _, w) := watched m ⟨t.console, []⟩
      w.trace.map .acted ++ stepEntries step

/-- The entries that an operation adds to the chronicle. -/
def newEntries (s : Session) : Operation → List Entry
  | .start =>
    match s.isActive, s.program with
    | false, .error message => [.halted message]
    | _, _ => []
  | .tick _ => s.settledEntries ++ s.drivenEntries (·.step Console.host.watched ·)
  | .runSlice _ =>
    s.settledEntries ++ s.drivenEntries (·.runBounded Console.host.watched s.sliceBudget ·)
  | _ => []

end Session

/-- Whether an operation brings a new program. -/
def Operation.edits : Operation → Bool
  | .apply (.program _) => true
  | _ => false

/-- Whether a move gives a run up: it is reset, or there is a new program. -/
def Move.discards : Move → Bool
  | .operation .reset => true
  | .operation o => o.edits
  | .call => false

/-- A session with the service and the chronicle of its last run, none after a new program. -/
structure Chronicled (σ : Type) where
  session : Session
  api : σ
  entries : List Entry

namespace Chronicled

variable {σ : Type} (service : Service σ)

def operate (x : Chronicled σ) (o : Operation) : Chronicled σ :=
  { x with
    session := x.session.operate o
    entries := (if x.session.begins o || o.edits then [] else x.entries) ++ x.session.newEntries o }

def callOn (x : Chronicled σ) : Chronicled σ :=
  match x.session.pending with
  | none => x
  | some p =>
    let (errand, api) := x.session.bridge.fire service p.errand x.api
    { x with session := { x.session with pending := some { p with errand } }, api }

def move (x : Chronicled σ) : Move → Chronicled σ
  | .operation o => x.operate o
  | .call => x.callOn service

def after (settings : Settings) (prompter : Prompter) (api : σ) (moves : List Move) : Chronicled σ :=
  moves.foldl (move service) ⟨.new settings prompter, api, []⟩

end Chronicled

/-! What a chronicle says. -/

section

variable {policy : FailurePolicy} {entries : List Entry} {e : Entry} {s : Session}

theorem outcome?_closed (h : e.closes policy = true) :
    ∃ o, outcome? policy (entries ++ [e]) = some o := by
  unfold outcome?
  rw [List.getLast?_concat]
  cases e with
  | done | halted => exact ⟨_, rfl⟩
  | resolved call result =>
    cases result with
    | completed => cases h
    | failed =>
      have habort : policy = .abort := by simpa [Entry.closes, Entry.isFailure] using h
      exact ⟨_, if_pos habort⟩
  | acted | issued => cases h

theorem outcome?_completed {n : Nat} (h : outcome? policy entries = some (.completed n)) :
    n = entries.countP Entry.isFailure := by
  unfold outcome? at h
  split at h
  · cases h
    rfl
  · cases h
  · split at h <;> cases h
  · cases h

theorem outcome?_open (h : ∀ e ∈ entries, e.closes policy = false) : outcome? policy entries = none := by
  unfold outcome?
  cases hlast : entries.getLast? with
  | none => rfl
  | some e =>
    have hopen := h e (List.mem_of_getLast? hlast)
    cases e with
    | done | halted => cases hopen
    | resolved call result =>
      cases result with
      | completed => rfl
      | failed =>
        have hpolicy : policy ≠ .abort := by simpa [Entry.closes, Entry.isFailure] using hopen
        exact if_neg hpolicy
    | acted | issued => rfl

/-- The chronicle of a run that has not ended by itself, with what the session has kept of it. -/
structure Session.Unclosed (policy : FailurePolicy) (s : Session) (entries : List Entry) : Prop where
  transcript : s.console.transcript = entries.flatMap Entry.lines
  outcome : s.outcome = none
  goesOn : ∀ e ∈ entries, e.closes policy = false
  failures : s.failedActions = entries.countP Entry.isFailure

/-- What a session keeps is what the chronicle says: the transcript has the lines of the entries and then
the banner of the outcome. Only the last entry closes the run. -/
structure Session.Accounted (policy : FailurePolicy) (s : Session) (entries : List Entry) : Prop where
  transcript : s.console.transcript =
    entries.flatMap Entry.lines ++ s.outcome.toList.map Outcome.banner
  outcome : s.outcome = outcome? policy entries
  last : ∀ e ∈ entries.dropLast, e.closes policy = false
  failures : s.isActive = true → s.failedActions = entries.countP Entry.isFailure
  highlight : s.isActive = false → s.console.highlight = .none

namespace Session

theorem Accounted.unclosed (h : s.Accounted policy entries) (ho : s.outcome = none)
    (ha : s.isActive = true) : s.Unclosed policy entries where
  transcript := by simpa [ho] using h.transcript
  outcome := ho
  failures := h.failures ha
  goesOn e he := by
    obtain rfl | ⟨front, l, rfl⟩ := List.eq_nil_or_concat entries
    · cases he
    · rw [List.concat_eq_append] at *
      rcases List.mem_append.1 he with he | he
      · exact h.last e (by rwa [List.dropLast_concat])
      · obtain rfl := List.mem_singleton.1 he
        cases hc : e.closes policy with
        | false => rfl
        | true =>
          have hnone := h.outcome
          obtain ⟨o, houtcome⟩ := @outcome?_closed policy front e hc
          rw [ho, houtcome] at hnone
          cases hnone

theorem Unclosed.accounted (h : s.Unclosed policy entries)
    (hh : s.isActive = false → s.console.highlight = .none) : s.Accounted policy entries where
  transcript := by simpa [h.outcome] using h.transcript
  outcome := h.outcome.trans (outcome?_open h.goesOn).symm
  last e he := h.goesOn e (List.dropLast_subset _ he)
  failures _ := h.failures
  highlight := hh

theorem Unclosed.append (h : s.Unclosed policy entries) (new : List Entry) {t : Session}
    (ht : t.console.transcript = s.console.transcript ++ new.flatMap Entry.lines)
    (ho : t.outcome = s.outcome) (hn : ∀ e ∈ new, e.closes policy = false)
    (hf : t.failedActions = s.failedActions + new.countP Entry.isFailure) :
    t.Unclosed policy (entries ++ new) where
  transcript := by rw [ht, h.transcript, List.flatMap_append]
  outcome := ho.trans h.outcome
  goesOn e he := (List.mem_append.1 he).elim (h.goesOn e) (hn e)
  failures := by rw [hf, h.failures, List.countP_append]

theorem Unclosed.finish {t : Session} (h : s.Unclosed policy entries) {o : Outcome}
    (ht : t.console.transcript = s.console.transcript ++ e.lines)
    (ho : outcome? policy (entries ++ [e]) = some o) :
    (t.finish o).Accounted policy (entries ++ [e]) where
  transcript := by
    show t.console.transcript ++ [o.banner] = _
    rw [ht, h.transcript]
    simp [Session.finish]
  outcome := ho.symm
  last e he := h.goesOn e (by rwa [List.dropLast_concat] at he)
  failures := by rintro ⟨⟩
  highlight _ := rfl

end Session

end

end ScopeBlocks
