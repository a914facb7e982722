import Netier.Connection.Frame

/-! The record of a connection: every action adds at most one moment to it, and what a
call has recorded tells what the call did. -/
namespace Netier
open Lib
variable {α : Type} {w w' w'' : World α}

/-- What an action puts on record. -/
def Act.event (w : World α) : Act α → Option (Event α)
  | .buffer _ | .wbuffer _ | .state _ | .take | .setOnRecv _ | .revents _ |
    .deregister _ => some .assign
  | .read _ answer => some (.read answer)
  | .write buf => some (.write buf.length (w.wire.answers 0))
  | .invoke => some (.onRecv w.seen)
  | .entered h => some (.entered h)
  | .returned h ret => some (.returned h ret)
  | .destroyer => some .destroyer
  | .fopen | .release => none

/-- A recorded action records the members as it leaves them. -/
theorem next_history {a : Act α} {e : Event α} (h : a.event w = some e) :
    (w.next a).history = ⟨e, (w.next a).context⟩ :: w.history := by
  cases a with
  | write buf =>
    cases ha : w.wire.answers 0 <;>
      · simp only [Act.event, ha, Option.some.injEq] at h
        simp [World.next, World.sysWrite, ha, World.log, ← h]
  | read writer answer =>
    cases answer <;>
      · simp only [Act.event, Option.some.injEq] at h
        simp [World.next, World.sysRead, World.log, ← h]
  | fopen | release => simp [Act.event] at h
  | _ =>
    simp only [Act.event, Option.some.injEq] at h
    rw [← h]
    rfl

theorem next_history_none {a : Act α} (h : a.event w = none) :
    (w.next a).history = w.history ∧ (w.next a).context = w.context := by
  cases a with
  | fopen | release => exact ⟨rfl, rfl⟩
  | _ => simp [Act.event] at h

/-- From `w` to `w'` only events of kind `P` were recorded. -/
def Grew (P : Event α → Prop) (w w' : World α) : Prop :=
  ∃ log, w'.history = log ++ w.history ∧ ∀ m ∈ log, P m.event

namespace Grew
variable {P Q : Event α → Prop}

theorem refl (w : World α) : Grew P w w := ⟨[], rfl, by simp⟩

theorem trans (h : Grew P w w') (h' : Grew P w' w'') : Grew P w w'' := by
  obtain ⟨log, hlog, hp⟩ := h
  obtain ⟨log', hlog', hp'⟩ := h'
  refine ⟨log' ++ log, by rw [hlog', hlog, List.append_assoc], fun m hm => ?_⟩
  rcases List.mem_append.1 hm with hm | hm
  · exact hp' m hm
  · exact hp m hm

theorem mono (h : Grew P w w') (hpq : ∀ e, P e → Q e) : Grew Q w w' := by
  obtain ⟨log, hlog, hp⟩ := h
  exact ⟨log, hlog, fun m hm => hpq _ (hp m hm)⟩

/-- A record that grew by no call of the destroyer counts as many as before. -/
theorem calls (h : Grew P w w') (hp : ∀ e, P e → e.isDestroyer = false) :
    w'.destroyerCalls = w.destroyerCalls := by
  obtain ⟨log, hlog, hall⟩ := h
  have hzero : log.countP (fun m => m.event.isDestroyer) = 0 :=
    List.countP_eq_zero.2 fun m hm => by simp [hp _ (hall m hm)]
  rw [World.destroyerCalls, hlog, List.countP_append, hzero, Nat.zero_add, World.destroyerCalls]

theorem calls_le (h : Grew P w w') : w.destroyerCalls ≤ w'.destroyerCalls := by
  obtain ⟨log, hlog, _⟩ := h
  rw [World.destroyerCalls, World.destroyerCalls, hlog, List.countP_append]
  omega

theorem log {e : Event α} (h : P e) : Grew P w (w.log e) := ⟨[⟨e, w.context⟩], rfl, by simpa using h⟩

end Grew

theorem Steps.grew {S : Act α → Prop} {P : Event α → Prop}
    (hS : ∀ (w : World α) a e, S a → a.event w = some e → P e) (h : Steps S w w') : Grew P w w' := by
  obtain ⟨a, ha, _, rfl⟩ := h
  cases he : a.event w with
  | some e => exact ⟨[⟨e, _⟩], next_history he, by simpa using hS w a e ha he⟩
  | none => exact ⟨[], (next_history_none he).1, by simp⟩

theorem grew_of_effect {S : Act α → Prop} {P : Event α → Prop} {β : Type} {x : Exec α β}
    (hS : ∀ (w : World α) a e, S a → a.event w = some e → P e) (hx : Effect (Steps S) x w) :
    Grew P w (final (x w)) :=
  hx.keeps (I := Grew P w) (fun _ _ h hs => h.trans (hs.grew hS)) (Grew.refl w)

theorem calls_of_effect {S : Act α → Prop} {β : Type} {x : Exec α β} (hx : Effect (Steps S) x w) :
    w.destroyerCalls ≤ (final (x w)).destroyerCalls :=
  (grew_of_effect (P := fun _ => True) (fun _ _ _ _ _ => trivial) hx).calls_le

/-- The destroyer counts as called however its call ends. -/
theorem contextDestroyer_calls (hlive : w.freed = false) :
    w.destroyerCalls < (final (contextDestroyer w)).destroyerCalls := by
  have hlog : (w.log .destroyer).destroyerCalls = w.destroyerCalls + 1 := by
    simp [Event.isDestroyer]
  rw [contextDestroyer, bind_of_ok (log_run _ _), bind_of_ok (get_run _)]
  by_cases hin : (w.log .destroyer).inserted = true
  · rw [if_pos hin]
    have hle := calls_of_effect (destruct_effect (w := w.log .destroyer) hlive hin)
    omega
  · rw [if_neg hin, pure_run, final_ok, hlog]
    exact Nat.lt_succ_self _

theorem destroy_calls {u : Unit} (h : destroy w = .ok u w') :
    w.destroyerCalls < w'.destroyerCalls := by
  obtain ⟨_, w₁, hmoved, h⟩ := bind_inv h
  obtain rfl := requireNotMoved_inv hmoved
  obtain ⟨s, w₂, hstate, _⟩ := bind_inv hmoved
  obtain ⟨hlive, _, _⟩ := readState_inv hstate
  obtain ⟨_, w₃, hfd, h⟩ := bind_inv h
  obtain rfl := getFd_inv hfd
  have hcalls := contextDestroyer_calls hlive
  rwa [h] at hcalls

/-- A cleanup of a connection that is neither VALID nor moved from calls the destroyer. -/
theorem stateCleanup_calls {ret : Int} (h : stateCleanup w = .ok ret w')
    (hv : w.context.state ≠ some .valid) (hm : w.context.state ≠ some .moved) :
    ret = -1 ∧ w.destroyerCalls < w'.destroyerCalls := by
  obtain ⟨s, w₁, hs, h⟩ := bind_inv h
  obtain ⟨_, hstate, rfl⟩ := readState_inv hs
  have hshut : s = .closed ∨ s = .invalid := by
    cases s with
    | valid => exact absurd hstate hv
    | moved => exact absurd hstate hm
    | closed => exact .inl rfl
    | invalid => exact .inr rfl
  rw [if_pos hshut] at h
  obtain ⟨_, w₂, hd, h⟩ := bind_inv h
  cases h
  exact ⟨rfl, destroy_calls hd⟩

/-- An event of work: neither a handler's entry or return, nor the callback, nor the
destroyer. -/
def Event.IsWork : Event α → Prop
  | .assign | .read _ | .write _ _ => True
  | _ => False

theorem Event.IsWork.not_destroyer {e : Event α} (h : e.IsWork) : e.isDestroyer = false := by
  cases e with
  | destroyer => exact h.elim
  | _ => rfl

theorem quiet_event {a : Act α} {e : Event α} (ha : a.IsQuiet) (he : a.event w = some e) :
    e.IsWork := by
  cases a with
  | wbuffer | state | take | write => cases he; trivial
  | fopen => cases he
  | _ => exact ha.elim

theorem input_event {a : Act α} {e : Event α} (ha : a.IsInput) (he : a.event w = some e) :
    e.IsWork := by
  cases a with
  | buffer | state | read => cases he; trivial
  | _ => exact ha.elim

/-- An event of work or of teardown. -/
def Event.IsCall (e : Event α) : Prop := e.IsWork ∨ e = .destroyer

theorem teardown_event {a : Act α} {e : Event α} (ha : a.IsTeardown) (he : a.event w = some e) :
    e = .assign ∨ e = .destroyer := by
  cases a with
  | destroyer => cases he; exact .inr rfl
  | deregister => cases he; exact .inl rfl
  | release => cases he
  | _ => exact ha.elim

theorem call_event {a : Act α} {e : Event α} (ha : a.IsCall) (he : a.event w = some e) :
    e.IsCall := by
  rcases ha with hq | ht | ⟨_, rfl⟩
  · exact .inl (quiet_event hq he)
  · rcases teardown_event ht he with rfl | rfl
    · exact .inl trivial
    · exact .inr rfl
  · cases he
    exact .inl trivial

/-- An event inside a handler. -/
def Event.IsBody : Event α → Prop
  | .entered _ | .returned _ _ => False
  | _ => True

theorem body_event {a : Act α} {e : Event α} (ha : a.IsBody) (he : a.event w = some e) :
    e.IsBody := by
  rcases ha with hw | ht
  · cases a with
    | buffer | wbuffer | state | take | setOnRecv | revents | read | write | invoke => cases he; trivial
    | fopen => cases he
    | _ => exact hw.elim
  · rcases teardown_event ht he with rfl | rfl
    · trivial
    · trivial

/-- The record of one call of a handler. -/
def Entry (hd : Handler) (ret : Int) (w w' : World α) : Prop :=
  ∃ inner, w'.history =
      ⟨.returned hd ret, w'.context⟩ :: (inner ++ ⟨.entered hd, w.context⟩ :: w.history) ∧
    ∀ m ∈ inner, m.event.IsBody

/-- A record, newest first, of polls and of handlers that all returned 0: none called the
destroyer and each left the state VALID. -/
inductive Visits : List (Moment α) → Prop where
  | start : Visits []
  | poll {log : List (Moment α)} {c : Context α} : Visits log → Visits (⟨.assign, c⟩ :: log)
  | stays {log inner : List (Moment α)} {hd : Handler} {c c' : Context α} : Visits log →
      (∀ m ∈ inner, m.event.IsBody ∧ m.event ≠ .destroyer) → c.state = some .valid →
      Visits (⟨.returned hd 0, c⟩ :: (inner ++ ⟨.entered hd, c'⟩ :: log))

/-- The record of a life: after such visits there may be a last handler, which called the
destroyer once and returned −1. -/
inductive LifeRecord : List (Moment α) → Prop where
  | running {log : List (Moment α)} : Visits log → LifeRecord log
  | ended {log inner : List (Moment α)} {hd : Handler} {c c' : Context α} : Visits log →
      (∀ m ∈ inner, m.event.IsBody) → inner.countP (fun m => m.event.isDestroyer) = 1 →
      LifeRecord (⟨.returned hd (-1), c⟩ :: (inner ++ ⟨.entered hd, c'⟩ :: log))

theorem Entry.calls {hd : Handler} {ret : Int} (h : Entry hd ret w w') :
    ∃ inner, w'.history =
        ⟨.returned hd ret, w'.context⟩ :: (inner ++ ⟨.entered hd, w.context⟩ :: w.history) ∧
      (∀ m ∈ inner, m.event.IsBody) ∧
      w'.destroyerCalls = inner.countP (fun m => m.event.isDestroyer) + w.destroyerCalls := by
  obtain ⟨inner, hh, hbody⟩ := h
  refine ⟨inner, hh, hbody, ?_⟩
  simp [World.destroyerCalls, hh, Event.isDestroyer]

/-- A handler that returned 0 and called no destroyer is one more visit. -/
theorem Entry.visits {hd : Handler} (h : Entry hd 0 w w') (hv : w'.context.state = some .valid)
    (hc : w'.destroyerCalls = w.destroyerCalls) (hlog : Visits w.history) : Visits w'.history := by
  obtain ⟨inner, hh, hbody, hcount⟩ := h.calls
  have hzero : inner.countP (fun m => m.event.isDestroyer) = 0 := by omega
  rw [hh]
  refine .stays hlog (fun m hm => ⟨hbody m hm, fun hd => ?_⟩) hv
  have hm' := List.countP_eq_zero.1 hzero m hm
  simp [hd, Event.isDestroyer] at hm'

theorem Entry.life {hd : Handler} (h : Entry hd (-1) w w')
    (hc : w'.destroyerCalls = w.destroyerCalls + 1) (hlog : Visits w.history) :
    LifeRecord w'.history := by
  obtain ⟨inner, hh, hbody, hcount⟩ := h.calls
  rw [hh]
  exact .ended hlog hbody (by omega)

end Netier
