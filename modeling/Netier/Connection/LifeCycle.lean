import Netier.Connection.Handlers
import Netier.Lib.Run

/-! The life of a set-up connection under any events: from the first moment it is not
VALID it does nothing more, and its last handler tears it down. -/
namespace Netier
open Lib
variable {α : Type} {w w' w₀ : World α} {r : Nat}

/-- Reading, writing, and showing the application what was read. -/
def Event.IsTraffic : Event α → Prop
  | .read _ | .write _ _ | .onRecv _ => True
  | _ => False

/-- What a moment allows of a later one. -/
structure Follows (later earlier : Moment α) : Prop where
  leaves : Leaves earlier.context.state later.context.state
  silent : earlier.context.state ≠ some .valid → ¬ later.event.IsTraffic
  kept : earlier.context.state ≠ some .valid → later.context.wbuffer = earlier.context.wbuffer

/-- The whole record is in step, and the members with it, since the state was VALID. -/
structure Steady (w : World α) : Prop where
  start : Leaves (some .valid) w.context.state
  states : ∀ m ∈ w.history, Leaves (some .valid) m.context.state
  record : w.history.Pairwise Follows
  leaves : ∀ m ∈ w.history, Leaves m.context.state w.context.state
  kept : ∀ m ∈ w.history, m.context.state ≠ some .valid → w.context.wbuffer = m.context.wbuffer

section Step
variable {S : Act α → Prop} {a : Act α} {e : Event α}

theorem traffic_open (he : w.Enabled a) (ha : a.event w = some e) (ht : e.IsTraffic) : Open w := by
  cases a with
  | read | write | invoke => exact he
  | buffer | wbuffer | state | take | setOnRecv | revents | deregister | entered | returned |
    destroyer => cases ha; exact ht.elim
  | fopen | release => cases ha

theorem Steps.wbuffer (h : Steps S w w') (hv : w.context.state ≠ some .valid) :
    w'.context.wbuffer = w.context.wbuffer := by
  obtain ⟨a, _, he, rfl⟩ := h
  cases a with
  | wbuffer b => exact absurd (show Open w from he).valid hv
  | write buf => exact absurd (show Open w from he).valid hv
  | read writer answer => exact absurd (show Open w from he).valid hv
  | _ => rfl

/-- Every action keeps the record in step: traffic and changes of `__wbuffer` need VALID. -/
theorem Steps.steady (hs : Steps S w w') (h : Steady w) : Steady w' := by
  have hleaves := hs.leaves
  have hmember : ∀ m ∈ w.history, Leaves m.context.state w'.context.state ∧
      (m.context.state ≠ some .valid → w'.context.wbuffer = m.context.wbuffer) := by
    intro m hm
    refine ⟨(h.leaves m hm).trans hleaves, fun hv => ?_⟩
    have hsame := (h.leaves m hm).eq_of_ne hv
    rw [hs.wbuffer (by rwa [hsame]), h.kept m hm hv]
  obtain ⟨a, _, he, rfl⟩ := hs
  cases ha : a.event w with
  | none =>
    have hh := (next_history_none ha).1
    refine ⟨h.start.trans hleaves, fun m hm => ?_, by rw [hh]; exact h.record, fun m hm => ?_,
      fun m hm => ?_⟩
    · exact h.states m (hh ▸ hm)
    · exact (hmember m (hh ▸ hm)).1
    · exact (hmember m (hh ▸ hm)).2
  | some e =>
    have hh := next_history ha
    refine ⟨h.start.trans hleaves, fun m hm => ?_, ?_, fun m hm => ?_, fun m hm => ?_⟩
    · rw [hh] at hm
      rcases List.mem_cons.1 hm with rfl | hm
      · exact h.start.trans hleaves
      · exact h.states m hm
    · rw [hh]
      refine List.pairwise_cons.2 ⟨fun m hm => ?_, h.record⟩
      refine ⟨(hmember m hm).1, fun hv ht => hv ?_, (hmember m hm).2⟩
      have hopen := traffic_open he ha ht
      exact (hopen.valid ▸ h.leaves m hm).of_valid
    · rw [hh] at hm
      rcases List.mem_cons.1 hm with rfl | hm
      · exact .inl rfl
      · exact (hmember m hm).1
    · rw [hh] at hm
      rcases List.mem_cons.1 hm with rfl | hm
      · exact fun _ => rfl
      · exact (hmember m hm).2

theorem Steady.of_effect {β : Type} {x : Exec α β} (h : Steady w) (hx : Effect (Steps S) x w) :
    Steady (final (x w)) :=
  hx.keeps (I := Steady) (fun _ _ h hs => hs.steady h) h

end Step

/-- An event of the loop: the mask that was polled, what `read(2)` answers, and the calls
that the callback makes. -/
structure LoopEvent (α : Type) where
  mask : Mask
  burst : Burst α
  callback : List (Call α)

variable [Zero α]

def LoopEvent.handle (e : LoopEvent α) : Exec α Unit :=
  loopEntry e.mask e.burst (runCalls e.callback)

/-- A live connection handles an event to its end. -/
def EventStep (w : World α) (e : LoopEvent α) (w' : World α) : Prop :=
  w.freed = false ∧ (∀ c ∈ e.callback, c.Quiet) ∧ e.handle w = .ok ⟨⟩ w'

/-- What every run keeps. -/
structure Living (r : Nat) (w : World α) : Prop where
  steady : Steady w
  life : LifeRecord w.history
  ready : w.freed = false → Ready w r ∧ Visits w.history ∧ w.destroyerCalls = 0
  gone : w.freed = true → w.destroyerCalls = 1

theorem loopEntry_effect (h : Attached w r) (mask : Mask) (burst : Burst α)
    {callback : Exec α Unit} (hcb : ∀ w, Effect (Steps Act.IsBody) callback w) :
    Effect (Steps Act.IsAny) (loopEntry mask burst callback) w := by
  have hrun := setRevents_run h.live h.reactor mask
  apply Effect.bind (effect_act (.revents mask) (by rw [hrun]; rfl) trivial h.live)
  intro _ _ _
  exact effect_mono (fun _ _ => trivial) (handleGeneral_effect burst hcb)

theorem EventStep.living {e : LoopEvent α} (h : EventStep w e w') (hl : Living r w) :
    Living r w' := by
  obtain ⟨hlive, hquiet, hrun⟩ := h
  obtain ⟨hready, hvisits, hcalls⟩ := hl.ready hlive
  have hcb : Calms Never (runCalls e.callback) := quiet_calms hquiet
  have hsteady := hl.steady.of_effect
    (loopEntry_effect hready.toAttached e.mask e.burst (runCalls_body e.callback))
  have hend := (loopEntry_ensures (runCalls_body _) hready.toAttached hready.toBound e.mask
    e.burst fun _ _ => hcb).ok hrun
  have hpoll : Visits (w.polled e.mask).history := hvisits.poll
  have hcalls' : (w.polled e.mask).destroyerCalls = 0 := by simpa [World.polled] using hcalls
  rw [LoopEvent.handle] at hrun
  rw [hrun] at hsteady
  cases hend with
  | stays hw ho hv =>
    have hopen := ho ⟨hready.live, hready.valid⟩
    have hatt := hw.attached (hready.toAttached.polled e.mask)
    have hbound := hw.bound ⟨hready.readableCb, hready.writableCb⟩
    refine ⟨hsteady, .running (hv hpoll), fun _ => ?_, fun hf => ?_⟩
    · exact ⟨⟨hatt, hbound, hopen.valid⟩, hv hpoll, hw.calls.trans hcalls'⟩
    · rw [hopen.live] at hf
      cases hf
  | goes hg hc hlife =>
    refine ⟨hsteady, hlife hpoll, fun hf => ?_, fun _ => by rw [hc, hcalls']⟩
    rw [hg.freed] at hf
    cases hf

/-- Every run of events on a set-up connection keeps the record in step and consists of
visits with at most one last handler; the destroyer ran once if the connection is gone
and not before; and a live connection handles every next event to its end. -/
theorem life_cycle {es : List (LoopEvent α)} (h0 : Ready w₀ r) (hnew : w₀.history = [])
    (h : Run EventStep w₀ es w) :
    (∀ m ∈ w.history, Leaves (some .valid) m.context.state) ∧ w.history.Pairwise Follows ∧
      LifeRecord w.history ∧ w.destroyerCalls = (if w.freed then 1 else 0) ∧
      (w.freed = false → ∀ e : LoopEvent α, (∀ c ∈ e.callback, c.Quiet) → ∃ w', EventStep w e w') := by
  have hcalls : w₀.destroyerCalls = 0 := by simp [World.destroyerCalls, hnew]
  have hstart : Living r w₀ := by
    refine ⟨⟨.inl h0.valid, ?_, ?_, ?_, ?_⟩, ?_, fun _ => ⟨h0, ?_, hcalls⟩, fun hf => ?_⟩
    · simp [hnew]
    · simp [hnew]
    · simp [hnew]
    · simp [hnew]
    · rw [hnew]
      exact .running .start
    · rw [hnew]
      exact .start
    · rw [h0.live] at hf
      cases hf
  have hend := h.invariant hstart fun _ _ _ hl hstep => hstep.living hl
  refine ⟨hend.steady.states, hend.steady.record, hend.life, ?_, fun hlive e hquiet => ?_⟩
  · cases hf : w.freed with
    | false => exact (hend.ready hf).2.2
    | true => exact hend.gone hf
  · have hready := (hend.ready hlive).1
    obtain ⟨_, w', hrun, _⟩ :=
      (loopEntry_ensures (runCalls_body _) hready.toAttached hready.toBound e.mask e.burst
        fun _ _ => quiet_calms hquiet).returns
    exact ⟨w', hlive, hquiet, hrun⟩

/-- The peer sends a byte, which is answered, and closes. -/
def answeredAndClosed : List (LoopEvent UInt8) :=
  [⟨epollin, ⟨[⟨[113], by simp, by decide⟩], .failed .eagain⟩, [.read, .output (.asyncWrite [114])]⟩,
    ⟨epollin, ⟨[], .eof⟩, [.read]⟩]

/-- The connection is torn down by its second handler, and by nothing before it. -/
theorem life_cycle_closed :
    ∃ w : World UInt8, Run EventStep (World.setUp 0 5 true fullOnce) answeredAndClosed w ∧ w.freed = true ∧
      (∀ m ∈ w.history, Leaves (some .valid) m.context.state) ∧ w.history.Pairwise Follows ∧
      LifeRecord w.history ∧ w.destroyerCalls = 1 := by
  have h0 : Ready (World.setUp 0 5 true fullOnce : World UInt8) 0 :=
    setUp_ready (by decide) true fullOnce
  have hend : ((runAll (guarded (fun w e => completed (LoopEvent.handle e w)) fun w _ => w.freed = false)
      (World.setUp 0 5 true fullOnce) answeredAndClosed).map fun w => w.freed) = some true := by decide +kernel
  obtain ⟨w, hw, hfreed⟩ := Option.map_eq_some_iff.1 hend
  have hquiet : ∀ e ∈ answeredAndClosed, ∀ c ∈ e.callback, c.Quiet := by
    simp [answeredAndClosed, Call.Quiet]
  have hrun : Run EventStep (World.setUp 0 5 true fullOnce) answeredAndClosed w :=
    ((run_of_guarded hw).restrict hquiet).mono fun a e b hstep =>
      ⟨hstep.1.2, hstep.2, completed_eq_some.1 hstep.1.1⟩
  obtain ⟨hstates, hrecord, hlife, hcalls, _⟩ := life_cycle h0 rfl hrun
  exact ⟨w, hrun, hfreed, hstates, hrecord, hlife, by rw [hcalls, hfreed]; rfl⟩

end Netier
