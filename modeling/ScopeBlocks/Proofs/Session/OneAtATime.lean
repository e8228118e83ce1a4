import ScopeBlocks.Proofs.Device.Conversation
import ScopeBlocks.Proofs.Session.Outstanding

/-! Calls are carried out one at a time, in the order in which the script makes them. A session is
observed while it is operated on and its call goes on in the background, in any order; what happens in a
run falls into turns, each of which ends before the next one begins. -/
namespace ScopeBlocks

open Script (Machine Step AsyncCall)

/-- What happens in a run: the script makes a call, the service is asked on behalf of one, and the session
takes over its result. -/
inductive Happening where
  | issued (call : AsyncCall)
  | asked (exchange : Exchange)
  | resolved (result : Resolution)

namespace Happening

def call? : Happening → Option AsyncCall
  | .issued call => some call
  | _ => none

def exchange? : Happening → Option Exchange
  | .asked exchange => some exchange
  | _ => none

end Happening

/-- A call with its exchanges, and its result once the session has taken it over. -/
structure Turn where
  call : AsyncCall
  exchanges : List Exchange
  result : Option Resolution

namespace Turn

def events (t : Turn) : List Happening :=
  .issued t.call :: t.exchanges.map .asked ++ t.result.toList.map .resolved

theorem call?_events (t : Turn) : t.events.filterMap Happening.call? = [t.call] := by
  have hasked : Happening.call? ∘ Happening.asked = fun _ => none := rfl
  have hresolved : Happening.call? ∘ Happening.resolved = fun _ => none := rfl
  simp [events, Happening.call?, hasked, hresolved]

theorem exchange?_events (t : Turn) : t.events.filterMap Happening.exchange? = t.exchanges := by
  have hasked : Happening.exchange? ∘ Happening.asked = some := rfl
  have hresolved : Happening.exchange? ∘ Happening.resolved = fun _ => none := rfl
  simp [events, List.filterMap_cons, Happening.exchange?, hasked, hresolved]

theorem calls_flatMap (turns : List Turn) :
    (turns.flatMap events).filterMap Happening.call? = turns.map call := by
  rw [List.filterMap_flatMap, List.map_eq_flatMap]
  simp only [call?_events]

theorem exchanges_flatMap (turns : List Turn) :
    (turns.flatMap events).filterMap Happening.exchange? = turns.flatMap exchanges := by
  rw [List.filterMap_flatMap]
  simp only [exchange?_events]

/-- All exchanges of a turn are those of its call. -/
def Own (b : Bridge) (t : Turn) : Prop := t.exchanges = [] ∨ Conversation b t.call t.exchanges

/-- The call of a turn has been carried out and its result taken over. -/
def Over (b : Bridge) (t : Turn) : Prop :=
  Conversation b t.call t.exchanges ∧ t.result.isSome = true

end Turn

namespace Session

def taken? (s : Session) : Option Resolution := s.pending.bind (·.take.1)

def resolved? (s : Session) : Operation → Option Resolution
  | .tick _ | .runSlice _ => s.taken?
  | _ => none

def issued? (s : Session) : Operation → Option AsyncCall
  | .tick _ => s.called? (·.step Console.host ·)
  | .runSlice _ => s.called? (·.runBounded Console.host s.sliceBudget ·)
  | _ => none

def begins (s : Session) : Operation → Bool
  | .start => !s.isActive
  | _ => false

end Session

/-- A session with the service and what has happened since its last run began. -/
structure Observed (σ : Type) where
  session : Session
  api : σ
  events : List Happening

/-- An operation, or the awaited call goes on by itself. -/
inductive Move where
  | operation (o : Operation)
  | call

namespace Observed

variable {σ : Type} (service : Service σ)

def operate (x : Observed σ) (o : Operation) : Observed σ :=
  { x with
    session := x.session.operate o
    events := (if x.session.begins o then [] else x.events) ++
      (x.session.resolved? o).toList.map .resolved ++ (x.session.issued? o).toList.map .issued }

def callOn (x : Observed σ) : Observed σ :=
  match x.session.pending with
  | none => x
  | some p =>
    let (errand, api, exchanges) := x.session.bridge.fire service.noting p.errand (x.api, [])
    { session := { x.session with pending := some { p with errand } }
      api
      events := x.events ++ exchanges.map .asked }

def move (x : Observed σ) : Move → Observed σ
  | .operation o => x.operate o
  | .call => x.callOn service

def after (settings : Settings) (prompter : Prompter) (api : σ) (moves : List Move) : Observed σ :=
  moves.foldl (move service) ⟨.new settings prompter, api, []⟩

end Observed

/-- The events are those of turns that are over. -/
def Concluded (b : Bridge) (events : List Happening) : Prop :=
  ∃ turns : List Turn, (∀ t ∈ turns, t.Over b) ∧ events = turns.flatMap Turn.events

/-- The events are those of turns, of which the last one is the turn of the awaited call, or of a call
that a run has been ended with. -/
def Orderly (b : Bridge) (s : Session) (events : List Happening) : Prop :=
  match s.pending with
  | some p => ∃ before xs, Concluded b before ∧ events = before ++ Turn.events ⟨p.call, xs, none⟩ ∧
      p.errand.stage.Heard b p.call xs
  | none => Concluded b events ∨ s.machine = none ∧
      ∃ before turn, Concluded b before ∧ Turn.Own b turn ∧ events = before ++ turn.events

section

variable {b : Bridge} {s t : Session} {events : List Happening}

theorem concluded_nil : Concluded b [] := ⟨[], by simp, rfl⟩

theorem Concluded.orderly (h : Concluded b events) (hp : s.pending = none) : Orderly b s events := by
  unfold Orderly
  rw [hp]
  exact .inl h

theorem Orderly.congr (h : Orderly b s events) (hp : t.pending = s.pending)
    (hm : t.machine = s.machine) : Orderly b t events := by
  unfold Orderly at h ⊢
  rw [hp, hm]
  exact h

theorem Orderly.discard (h : Orderly b s events) (hm : t.machine = none) (hp : t.pending = none) :
    Orderly b t events := by
  unfold Orderly at h ⊢
  rw [hp]
  dsimp only
  cases hs : s.pending with
  | none =>
    rw [hs] at h
    exact h.imp_right fun h => ⟨hm, h.2⟩
  | some p =>
    rw [hs] at h
    obtain ⟨before, xs, hbefore, hevents, hheard⟩ := h
    exact .inr ⟨hm, before, ⟨p.call, xs, none⟩, hbefore, hheard.begun, hevents⟩

theorem Orderly.concluded (h : Orderly b s events) (hp : s.pending = none) {m : Machine}
    (hm : s.machine = some m) : Concluded b events := by
  unfold Orderly at h
  rw [hp, hm] at h
  rcases h with h | ⟨h, -⟩
  · exact h
  · cases h

theorem Concluded.append (h : Concluded b events) {turn : Turn} (ht : turn.Over b) :
    Concluded b (events ++ turn.events) := by
  obtain ⟨turns, hover, rfl⟩ := h
  refine ⟨turns ++ [turn], fun u hu => ?_, by simp⟩
  exact (List.mem_append.1 hu).elim (hover u) fun hu => List.mem_singleton.1 hu ▸ ht

theorem Orderly.resolve (h : Orderly b s events) {p : PendingCall} {r : Resolution}
    (hp : s.pending = some p) (hr : p.take.1 = some r) : Concluded b (events ++ [.resolved r]) := by
  unfold Orderly at h
  rw [hp] at h
  obtain ⟨before, xs, hbefore, rfl, hheard⟩ := h
  have hsettled : Conversation b p.call xs := by
    unfold PendingCall.take Errand.result? at hr
    split at hr
    next => cases hr
    next hstage =>
      split at hstage
      next hs =>
        rw [hs] at hheard
        exact hheard
      next => cases hstage
  have hover : Turn.Over b ⟨p.call, xs, some r⟩ := ⟨hsettled, rfl⟩
  simpa [Turn.events] using hbefore.append hover

theorem Concluded.issue (h : Concluded b events) {call : AsyncCall} {now : Nat}
    (hp : s.pending = some (.spawn b call now)) : Orderly b s (events ++ [.issued call]) := by
  unfold Orderly
  rw [hp]
  exact ⟨events, [], h, rfl, rfl, rfl⟩

namespace Session

variable {run : Machine → Console → Except Script.Error Step × Machine × Console}
  {after : Session → Session} {now : Nat}

theorem Settles.concluded {r : Option Progress × Session} (h : s.Settles r)
    (ho : Orderly b s events) (hr : r.1 ≠ some .waiting)
    (hm : r.1.isSome = true ∨ r.2.machine.isSome = true) :
    Concluded b (events ++ s.taken?.toList.map .resolved) := by
  unfold taken?
  cases h with
  | idle hp =>
    obtain ⟨m, hm⟩ := Option.isSome_iff_exists.1 (hm.resolve_left (by simp))
    rw [hp]
    simpa using ho.concluded hp hm
  | waiting => exact absurd rfl hr
  | resumed hp he =>
    obtain ⟨r, hr⟩ := Option.isSome_iff_exists.1 he
    rw [hp]
    simpa [hr] using ho.resolve hp hr
  | ended hp he =>
    obtain ⟨r, hr⟩ := Option.isSome_iff_exists.1 he
    rw [hp]
    simpa [hr] using ho.resolve hp hr

theorem goOn_orderly (hd : Drives run after) (h : s.Matched) (hb : s.bridge = b)
    (ho : Orderly b s events) : Orderly b (s.goOn now run after).2
      (events ++ s.taken?.toList.map .resolved ++ (s.called? run).toList.map .issued) := by
  have hgoes := goOn_goesOn run after now h
  generalize s.goOn now run after = r, s.called? run = made at hgoes
  cases hgoes with
  | idle hm hp => simpa [taken?, hp] using ho
  | stays hs =>
    cases hs with
    | waiting hp he => simpa [taken?, hp, he] using ho
    | ended hp he failures lines outcome =>
      have hconcluded := (Settles.ended hp he failures lines outcome).concluded ho (by simp)
        (.inl rfl)
      simpa using hconcluded.orderly (s := finish _ outcome) rfl
  | @runs t m hs hm hp free =>
    have hconcluded := hs.concluded ho (by simp) (.inr (by simp [hm]))
    have hpending := afterStep_pending now (s := t.driven after (run m t.console))
      ((hd.driven_pending _).trans hp) (hd.stands m t.console free)
    rw [hd.driven_bridge, hs.bridge, hb] at hpending
    cases hcall : callOf? (run m t.console).1 with
    | none =>
      rw [hcall] at hpending
      simpa using hconcluded.orderly hpending
    | some call =>
      rw [hcall] at hpending
      exact hconcluded.issue hpending

theorem goOn_called (hd : Drives run after) (h : s.Matched) {call : AsyncCall}
    (hc : s.called? run = some call) :
    (s.goOn now run after).2.pending = some (.spawn s.bridge call now) := by
  have hgoes := goOn_goesOn run after now h
  generalize s.goOn now run after = r, s.called? run = made at hgoes hc
  cases hgoes with
  | stays => cases hc
  | idle => cases hc
  | @runs t m hs hm hp free =>
    have hpending := afterStep_pending now (s := t.driven after (run m t.console))
      ((hd.driven_pending _).trans hp) (hd.stands m t.console free)
    rw [hd.driven_bridge, hs.bridge, hc] at hpending
    exact hpending

theorem operate_issued (h : s.Matched) {o : Operation} {call : AsyncCall}
    (hi : s.issued? o = some call) :
    ∃ now, (s.operate o).pending = some (.spawn s.bridge call now) := by
  cases o with
  | tick now => exact ⟨now, goOn_called drives_tick h hi⟩
  | runSlice now => exact ⟨now, goOn_called (drives_runSlice _) h hi⟩
  | apply | start | reset | clearPause => cases hi

theorem operate_orderly (h : s.Matched) (hb : s.bridge = b) (ho : Orderly b s events)
    (o : Operation) : Orderly b (s.operate o) ((if s.begins o then [] else events) ++
      (s.resolved? o).toList.map .resolved ++ (s.issued? o).toList.map .issued) := by
  cases o with
  | apply change =>
    cases change with
    | view =>
      have hs := ho.congr (t := s.operate (.apply .view)) rfl rfl
      simpa [begins, resolved?, issued?] using hs
    | program w =>
      have hs := ho.discard (t := s.operate (.apply (.program w))) rfl rfl
      simpa [begins, resolved?, issued?] using hs
  | start =>
    have hs := start_cases h
    unfold operate begins
    dsimp only
    rcases hs with ⟨hactive, hs⟩ | ⟨hactive, -, -, hp, -⟩
    · rw [hs]
      simpa [hactive, resolved?, issued?] using ho
    · simpa [hactive, resolved?, issued?] using concluded_nil.orderly hp
  | tick now => exact goOn_orderly drives_tick h hb ho
  | runSlice now => exact goOn_orderly (drives_runSlice _) h hb ho
  | reset =>
    have hs := ho.discard (t := s.operate .reset) rfl rfl
    simpa [begins, resolved?, issued?] using hs
  | clearPause =>
    have hs := ho.congr (t := s.operate .clearPause) rfl rfl
    simpa [begins, resolved?, issued?] using hs

end Session

/-- All events are those of turns with exchanges of their own; a turn before another one is over. -/
theorem Orderly.turns (h : Orderly b s events) : ∃ turns : List Turn,
    events = turns.flatMap Turn.events ∧ (∀ t ∈ turns, t.Own b) ∧ ∀ t ∈ turns.dropLast, t.Over b := by
  have own : ∀ {t : Turn}, t.Over b → t.Own b := fun h => .inr h.1
  have last : ∀ {before : List Happening} {t : Turn}, Concluded b before → t.Own b →
      ∃ turns : List Turn, before ++ t.events = turns.flatMap Turn.events ∧
        (∀ t ∈ turns, t.Own b) ∧ ∀ t ∈ turns.dropLast, t.Over b := by
    rintro _ t ⟨turns, hover, rfl⟩ ht
    refine ⟨turns ++ [t], by simp, fun u hu => ?_, by simpa using hover⟩
    exact (List.mem_append.1 hu).elim (fun hu => own (hover u hu))
      fun hu => List.mem_singleton.1 hu ▸ ht
  unfold Orderly at h
  split at h
  next p hp =>
    obtain ⟨before, xs, hbefore, rfl, hheard⟩ := h
    exact last hbefore hheard.begun
  next =>
    rcases h with ⟨turns, hover, rfl⟩ | ⟨-, before, t, hbefore, ht, rfl⟩
    · exact ⟨turns, rfl, fun t ht => own (hover t ht),
        fun t ht => hover t ((List.dropLast_subset _) ht)⟩
    · exact last hbefore ht

end

namespace Observed

variable {σ : Type} {service : Service σ}

structure Valid (b : Bridge) (x : Observed σ) : Prop where
  bridge : x.session.bridge = b
  matched : x.session.Matched
  orderly : Orderly b x.session x.events

theorem Valid.operate {b : Bridge} {x : Observed σ} (h : x.Valid b) (o : Operation) :
    (x.operate o).Valid b where
  bridge := (Session.operate_bridge h.matched o).trans h.bridge
  matched := Session.operate_matched h.matched o
  orderly := Session.operate_orderly h.matched h.bridge h.orderly o

theorem Valid.callOn {b : Bridge} {x : Observed σ} (h : x.Valid b) :
    (x.callOn service).Valid b := by
  obtain ⟨rfl, hmatched, horderly⟩ := h
  unfold Observed.callOn
  cases hp : x.session.pending with
  | none => exact ⟨rfl, hmatched, horderly⟩
  | some p =>
    obtain ⟨hd, m, hm, hstatus⟩ := hmatched.awaited hp
    refine ⟨rfl, Session.matched_of_awaited hm rfl hstatus hd, ?_⟩
    unfold Orderly at horderly ⊢
    rw [hp] at horderly
    obtain ⟨before, xs, hbefore, hevents, hheard⟩ := horderly
    refine ⟨before, _, hbefore, ?_, Bridge.heard_fire service hheard x.api⟩
    simp [hevents, Turn.events]

theorem Valid.move {b : Bridge} {x : Observed σ} (h : x.Valid b) (m : Move) :
    (x.move service m).Valid b := by
  cases m with
  | operation o => exact h.operate o
  | call => exact h.callOn

variable (service) in
theorem valid_after (settings : Settings) (prompter : Prompter) (api : σ) (moves : List Move) :
    (after service settings prompter api moves).Valid (.ofSettings settings) := by
  have hstart : Valid (.ofSettings settings)
      (⟨Session.new settings prompter, api, []⟩ : Observed σ) :=
    ⟨rfl, Session.matched_of_idle rfl rfl, concluded_nil.orderly rfl⟩
  unfold after
  generalize (⟨Session.new settings prompter, api, []⟩ : Observed σ) = x at hstart
  induction moves generalizing x with
  | nil => exact hstart
  | cons m moves ih => exact ih _ (hstart.move m)

/-- After any moves, a call is outstanding just where a machine waits, and the machine waits for that
call and takes any result of it. A call that an operation makes is outstanding after the operation. What
happens in a run are turns, in the order of the calls: the requests are those of the turns one after
another, those of a turn are its call's own, and every turn but the last one is over, its result taken
over after its requests. -/
theorem one_call_at_a_time (settings : Settings) (prompter : Prompter) (api : σ) (moves : List Move) :
    let x := after service settings prompter api moves
    let b := Bridge.ofSettings settings
    (x.session.pending.isSome = true ↔ ∃ m, x.session.machine = some m ∧ m.isSuspended = true) ∧
    (∀ p, x.session.pending = some p → p.delivered = false ∧ ∃ m, x.session.machine = some m ∧
      m.status = .awaiting p.call ∧ ∀ v, (m.resolve? v).isSome = true) ∧
    (∀ o call, x.session.issued? o = some call →
      ∃ now, (x.session.operate o).pending = some (.spawn b call now)) ∧
    ∃ turns : List Turn, x.events = turns.flatMap Turn.events ∧
      x.events.filterMap Happening.call? = turns.map Turn.call ∧
      x.events.filterMap Happening.exchange? = turns.flatMap Turn.exchanges ∧
      (∀ t ∈ turns, t.Own b) ∧ ∀ t ∈ turns.dropLast, t.Over b := by
  have hvalid := valid_after service settings prompter api moves
  refine ⟨hvalid.matched.isSome_iff, fun p hp => ?_, fun o call hi => ?_, ?_⟩
  · obtain ⟨hd, m, hm, hstatus⟩ := hvalid.matched.awaited hp
    refine ⟨hd, m, hm, hstatus, fun v => ?_⟩
    rw [Machine.resolve?_of_awaiting hstatus]
    rfl
  · have hissued := Session.operate_issued hvalid.matched hi
    rw [hvalid.bridge] at hissued
    exact hissued
  · obtain ⟨turns, hevents, hown, hover⟩ := hvalid.orderly.turns
    refine ⟨turns, hevents, ?_, ?_, hown, hover⟩
    · rw [hevents, Turn.calls_flatMap]
    · rw [hevents, Turn.exchanges_flatMap]

end Observed

end ScopeBlocks
