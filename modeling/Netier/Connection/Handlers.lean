import Netier.Connection.Output
import Netier.Connection.Input
import Netier.Connection.HandlerEffects
import Netier.Connection.Record
import Netier.Connection.Teardown

/-! How the calls and the event handlers end on a registered connection: the calls
return, and a handler either leaves the connection open or has torn it down. -/
namespace Netier
open Lib
variable {α : Type} {w w' w'' : World α} {r : Nat}

/-- A connection does its work: its place in the registry and in the kernel stays, and
its state moves only as it may. -/
structure Works (w w' : World α) : Prop extends Framed w w' where
  leaves : Leaves w.context.state w'.context.state

namespace Works

theorem refl (w : World α) : Works w w := ⟨.refl w, .inl rfl⟩

theorem trans (h : Works w w') (h' : Works w' w'') : Works w w'' :=
  ⟨h.toFramed.trans h'.toFramed, h.leaves.trans h'.leaves⟩

theorem of_effect {β : Type} {x : Exec α β} (hx : Effect (Steps Act.IsWork) x w) :
    Works w (final (x w)) :=
  ⟨framed_of_effect hx, leaves_of_effect hx⟩

theorem of_quiet {β : Type} {x : Exec α β} (hx : Effect (Steps Act.IsQuiet) x w) :
    Works w (final (x w)) :=
  .of_effect (effect_mono (fun _ => Act.IsQuiet.work) hx)

theorem healthy (h : Works w w') (hw : Healthy w) : Healthy w' := hw.of_framed h.toFramed h.leaves

theorem attached (h : Works w w') (hw : Attached w r) : Attached w' r :=
  hw.of_framed h.toFramed h.leaves

end Works

section Calls
variable {F : Fault → Prop} {β : Type} {x : Exec α β}

/-- A program that only works and that returns. -/
theorem ensures_works (hx : Effect (Steps Act.IsQuiet) x w) (hr : ∃ b w', x w = .ok b w') :
    Ensures F (fun _ => Works w) x w := by
  obtain ⟨b, w', hrun⟩ := hr
  have hw := Works.of_quiet hx
  rw [hrun] at hw
  exact .of_ok hrun hw

theorem guarded_returns {b : β} (h : Healthy w) (hx : Open w → ∃ b' w', x w = .ok b' w') :
    ∃ b' w', (do
      requireNotMoved
      if (← readState) ≠ .valid then pure b
      else x : Exec α β) w = .ok b' w' := by
  by_cases ho : Open w
  · rw [guarded_open ho]
    exact hx ho
  · obtain ⟨s, hs, hm⟩ := h.state
    have hv : s ≠ .valid := by
      rintro rfl
      exact ho ⟨h.live, hs⟩
    exact ⟨b, w, guarded_shut h.live hs hm hv⟩

theorem returns_unit {b : β} (h : x w = .ok b w') :
    ∃ u w'', (do let _ ← x : Exec α Unit) w = .ok u w'' :=
  ⟨⟨⟩, w', by rw [bind_of_ok h]; rfl⟩

/-- An overload that selects itself again has no other failure than running out of stack. -/
theorem overflow_ensures {β : Type} {b : β} {x : Exec α β} (h : Healthy w)
    (hx : Ensures (· = .stackOverflow) (fun _ => Works w) x w) :
    Ensures (· = .stackOverflow) (fun _ => Works w) (do
      requireNotMoved
      if (← readState) ≠ .valid then pure b
      else x : Exec α β) w := by
  by_cases ho : Open w
  · unfold Ensures
    rw [guarded_open ho]
    exact hx
  · obtain ⟨b', w', hrun⟩ := guarded_returns (b := b) (x := x) h fun ho' => absurd ho' ho
    have hw := congrArg final hrun
    rw [guarded_final ho] at hw
    refine .of_ok hrun ?_
    rw [← final_ok (ε := Fault) b' w', ← hw]
    exact .refl w

theorem writeStringMove_ensures (depth : Nat) (data : StdString α) (h : Healthy w) :
    Ensures (· = .stackOverflow) (fun _ => Works w) (writeStringMove depth data) w := by
  induction depth with
  | zero => rfl
  | succ depth ih => exact overflow_ensures h ih

theorem writeVectorMove_ensures (depth : Nat) (data : List α) (h : Healthy w) :
    Ensures (· = .stackOverflow) (fun _ => Works w) (writeVectorMove depth data) w := by
  induction depth with
  | zero => rfl
  | succ depth ih => exact overflow_ensures h ih

variable [Zero α]

theorem Output.exec_returns (o : Output α) (h : Healthy w) : ∃ u w', o.exec w = .ok u w' := by
  cases o with
  | syncWrite buf =>
    obtain ⟨ret, w', hrun⟩ : ∃ ret w', Netier.syncWrite buf w = .ok ret w' :=
      guarded_returns h fun ho => by
        simpa only [Netier.syncWrite, guarded_open ho] using syncWrite_run ho h.positive buf
    exact returns_unit hrun
  | writeString data =>
    obtain ⟨ret, w', hrun⟩ : ∃ ret w', Netier.writeString data w = .ok ret w' :=
      guarded_returns h fun ho => syncWrite_run ho h.positive _
    exact returns_unit hrun
  | writeVector data =>
    obtain ⟨ret, w', hrun⟩ : ∃ ret w', Netier.writeVector data w = .ok ret w' :=
      guarded_returns h fun ho => syncWrite_run ho h.positive _
    exact returns_unit hrun
  | asyncWrite buf =>
    refine guarded_returns h fun ho => ?_
    obtain ⟨w', hrun, _⟩ := asyncWrite_run ho h.positive buf
    rw [Netier.asyncWrite, guarded_open ho] at hrun
    exact ⟨_, w', hrun⟩
  | writeFile file =>
    cases file with
    | none =>
      obtain ⟨ret, w', hrun⟩ : ∃ ret w',
          Netier.writeFile (none : Option (FileStream α)) w = .ok ret w' :=
        guarded_returns h fun _ => ⟨_, w, rfl⟩
      exact returns_unit hrun
    | some f =>
      obtain ⟨ret, w', hrun⟩ : ∃ ret w', Netier.writeFile (some f) w = .ok ret w' := by
        refine guarded_returns h fun ho => ?_
        obtain ⟨w', hrun, _⟩ := writeFile_run ho h.positive f
        rw [Netier.writeFile, guarded_open ho] at hrun
        exact ⟨_, w', hrun⟩
      exact returns_unit hrun
  | flushWriteBuffer =>
    refine guarded_returns h fun ho => ?_
    obtain ⟨w', hrun, _⟩ := flushWriteBuffer_run ho h.positive
    rw [Netier.flushWriteBuffer, guarded_open ho] at hrun
    exact ⟨_, w', hrun⟩

theorem Call.quiet_returns (c : Call α) (hc : c.Quiet) (h : Healthy w) :
    ∃ u w', c.exec w = .ok u w' := by
  obtain ⟨s, hs, hm⟩ := h.state
  have hmoved := requireNotMoved_run h.live hs hm
  cases c with
  | read =>
    have hrun : Netier.read w = .ok w.context.buffer.get.1 w.take := by
      rw [Netier.read, bind_of_ok hmoved, bind_of_ok (this_run h.live), bind_of_ok (modify_run _ _)]
      rfl
    exact returns_unit hrun
  | readString =>
    obtain ⟨ret, w', hrun⟩ : ∃ ret w', Netier.readString w = .ok ret w' := by
      refine guarded_returns h fun ho => ?_
      rw [bind_of_ok (this_run h.live), bind_of_ok (modify_run _ _)]
      exact ⟨_, _, rfl⟩
    exact returns_unit hrun
  | getState =>
    have hrun : Netier.getState w = .ok s w := by
      rw [Netier.getState, bind_of_ok hmoved, readState_run h.live hs]
    exact returns_unit hrun
  | output o => exact o.exec_returns h
  | writeFileSized p n =>
    obtain ⟨ret, w', hrun⟩ : ∃ ret w', Netier.writeFileSized p n w = .ok ret w' := by
      refine guarded_returns h fun _ => ?_
      split
      · exact ⟨_, w, rfl⟩
      · exact ⟨_, w, rfl⟩
    exact returns_unit hrun
  | _ => exact hc.elim

theorem Call.quiet_ensures (c : Call α) (hc : c.Quiet) (h : Healthy w) :
    Ensures F (fun _ => Works w) c.exec w :=
  ensures_works (c.quiet_effect (by rintro rfl; exact hc) (by rintro _ rfl; exact hc))
    (c.quiet_returns hc h)

/-- Every call but `destroy`. -/
def Call.Calm : Call α → Prop
  | .destroy => False
  | _ => True

/-- Every call that returns and leaves the connection in the registry. -/
def Call.Returns : Call α → Prop
  | .destroy | .writeStringMove _ _ | .writeVectorMove _ _ => False
  | _ => True

theorem Call.returns_ensures (c : Call α) (hc : c.Returns) (h : Healthy w) :
    Ensures F (fun _ => Works w) c.exec w := by
  cases c with
  | destroy | writeStringMove _ _ | writeVectorMove _ _ => exact hc.elim
  | setOnRecv installed =>
    obtain ⟨s, hs, hm⟩ := h.state
    have hrun : Netier.setOnRecv installed w =
        .ok ⟨⟩ (w.assign { w.context with onRecv := installed }) := by
      rw [Netier.setOnRecv, bind_of_ok (requireNotMoved_run h.live hs hm), assign_run h.live]
    exact .of_ok hrun ⟨⟨rfl, rfl, rfl, rfl, rfl, rfl, destroyerCalls_assign _ _⟩, .inl rfl⟩
  | read | readString | getState | output _ | writeFileSized _ _ => exact quiet_ensures _ trivial h

theorem Call.calm_ensures (c : Call α) (hc : c.Calm) (h : Healthy w) :
    Ensures (· = .stackOverflow) (fun _ => Works w) c.exec w := by
  cases c with
  | destroy => exact hc.elim
  | writeStringMove depth data =>
    exact (writeStringMove_ensures depth data h).bind fun _ w₁ hw => hw
  | writeVectorMove depth data =>
    exact (writeVectorMove_ensures depth data h).bind fun _ w₁ hw => hw
  | setOnRecv _ | read | readString | getState | output _ | writeFileSized _ _ =>
    exact returns_ensures _ trivial h

/-- A callback body made of calls that only work only works. -/
theorem runCalls_ensures {cs : List (Call α)} (h : Healthy w)
    (hcs : ∀ c ∈ cs, ∀ w, Healthy w → Ensures F (fun _ => Works w) c.exec w) :
    Ensures F (fun _ => Works w) (runCalls cs) w := by
  induction cs generalizing w with
  | nil => exact .refl w
  | cons c cs ih =>
    refine (hcs c List.mem_cons_self w h).bind fun _ w₁ hw => ?_
    refine (ih (hw.healthy h) fun c' hc => hcs c' (List.mem_cons_of_mem _ hc)).mono ?_
    exact fun _ w₂ hw' => hw.trans hw'

end Calls

section Handlers
variable {F : Fault → Prop}

/-- How a handler ends: it returns 0 with the connection open, or −1 after it has
called the destroyer once. -/
inductive Verdict (r : Nat) (w : World α) : Int → World α → Prop where
  | stays {w' : World α} : Works w w' → Open w' → Verdict r w 0 w'
  | goes {w' : World α} : Gone w w' → w'.destroyerCalls = w.destroyerCalls + 1 → Verdict r w (-1) w'

theorem torn_verdict {w₁ : World α} (hw : Works w w₁) (h : Attached w₁ r) :
    Verdict r w (-1) (w₁.torn r) := by
  refine .goes ((torn_gone h).of_framed hw.toFramed) ?_
  rw [← hw.calls]
  simp [World.torn, World.release, World.destroyerCalls, World.assign, World.log,
    Event.isDestroyer]

/-- The last cleanup of a handler. -/
theorem cleanup_ensures {w₁ : World α} (hw : Works w w₁) (h : Attached w₁ r) :
    Ensures F (Verdict r w) stateCleanup w₁ := by
  by_cases hv : w₁.context.state = some .valid
  · exact .of_ok (stateCleanup_valid ⟨h.live, hv⟩) (.stays hw ⟨h.live, hv⟩)
  · exact .of_ok (stateCleanup_run h hv) (torn_verdict hw h)

/-- An earlier cleanup: the handler goes on only if the connection is open. -/
theorem cleanup_then {w₁ : World α} {x : Exec α Int} (hw : Works w w₁) (h : Attached w₁ r)
    (hx : Open w₁ → Ensures F (Verdict r w) x w₁) :
    Ensures F (Verdict r w) (do
      let ret ← stateCleanup
      if ret < 0 then pure ret
      else x) w₁ := by
  by_cases hv : w₁.context.state = some .valid
  · have ho : Open w₁ := ⟨h.live, hv⟩
    have hx' := hx ho
    unfold Ensures at hx' ⊢
    rw [bind_of_ok (stateCleanup_valid ho)]
    exact hx'
  · refine .of_ok (bind_of_ok (stateCleanup_run h hv)) (torn_verdict hw h)

theorem handleWritableBody_ensures (h : Attached w r) :
    Ensures F (Verdict r w) handleWritableBody w := by
  obtain ⟨s, hs, hm⟩ := h.state
  unfold handleWritableBody Ensures
  rw [bind_of_ok (requireNotMoved_run h.live hs hm)]
  refine cleanup_then (.refl w) h fun ho => ?_
  obtain ⟨w₁, hflush, _⟩ := flushWriteBuffer_run ho h.positive
  have hw : Works w (final (flushWriteBuffer w)) :=
    .of_quiet (effect_mono (fun _ => Act.IsSend.quiet) flushWriteBuffer_effect)
  rw [hflush] at hw
  unfold Ensures
  rw [bind_of_ok hflush]
  exact cleanup_ensures hw (hw.attached h)

/-- What is logged around a body does not change its verdict. -/
theorem Verdict.logged {e e' : Event α} {ret : Int} (he : e.isDestroyer = false)
    (he' : e'.isDestroyer = false) (h : Verdict r (w.log e) ret w') : Verdict r w ret (w'.log e') := by
  cases h with
  | stays hw ho =>
    refine .stays ⟨⟨hw.socket, hw.ioContext, hw.freed, hw.inserted, hw.fds, hw.interest, ?_⟩,
      hw.leaves⟩ ⟨ho.live, ho.valid⟩
    simpa [he, he'] using hw.calls
  | goes hg hc =>
    refine .goes ⟨hg.socket, hg.freed, hg.inserted, hg.fds, hg.interest, hg.others⟩ ?_
    simpa [he, he'] using hc

/-- A handler's verdict is that of its body, and its record one entry. -/
theorem recorded_ensures {hd : Handler} {body : Exec α Int}
    (hbody : Ensures F (Verdict r (w.log (.entered hd))) body (w.log (.entered hd)))
    (heffect : Effect (Steps Act.IsBody) body (w.log (.entered hd))) :
    Ensures F (fun ret w' => Verdict r w ret w' ∧ Entry hd ret w w') (recorded hd body) w := by
  have hgrew := grew_of_effect (fun _ _ _ => body_event) heffect
  cases hrun : body (w.log (.entered hd)) with
  | error e w₁ =>
    have hf := hbody.fault hrun
    unfold Ensures
    rw [recorded, bind_of_ok (log_run _ _), bind_of_error hrun]
    exact hf
  | ok ret w₁ =>
    have hv := hbody.ok hrun
    rw [hrun] at hgrew
    obtain ⟨inner, hinner, hall⟩ := hgrew
    have hend : recorded hd body w = .ok ret (w₁.log (.returned hd ret)) := by
      rw [recorded, bind_of_ok (log_run _ _), bind_of_ok hrun]
      rfl
    refine .of_ok hend ⟨hv.logged rfl rfl, inner, ?_, hall⟩
    exact congrArg (List.cons _) hinner

theorem handleWritableEvent_ensures (h : Attached w r) :
    Ensures F (fun ret w' => Verdict r w ret w' ∧ Entry .writable ret w w') handleWritableEvent w :=
  recorded_ensures (handleWritableBody_ensures (h.log _))
    (effect_mono (fun _ => Act.IsCall.body) handleWritableBody_effect)

/-- How the handling of an event ends: the connection worked and an open one stayed
open, or it was torn down and the destroyer called once. -/
inductive Handled (w w' : World α) : Prop where
  | stays : Works w w' → (Open w → Open w') → (Visits w.history → Visits w'.history) → Handled w w'
  | goes : Gone w w' → w'.destroyerCalls = w.destroyerCalls + 1 →
      (Visits w.history → LifeRecord w'.history) → Handled w w'

theorem Verdict.handled {ret : Int} {hd : Handler} (h : Verdict r w ret w') (he : Entry hd ret w w') :
    Handled w w' := by
  cases h with
  | stays hw ho => exact .stays hw (fun _ => ho) (he.visits ho.valid hw.calls)
  | goes hg hc => exact .goes hg hc (he.life hc)

theorem Handled.after {w₁ : World α} (hw : Works w w₁) (ho : Open w₁)
    (hv : Visits w.history → Visits w₁.history) (h : Handled w₁ w') : Handled w w' := by
  cases h with
  | stays hw' ho' hv' => exact .stays (hw.trans hw') (fun _ => ho' ho) (hv' ∘ hv)
  | goes hg hc hl => exact .goes (hg.of_framed hw.toFramed) (by rw [hc, hw.calls]) (hl ∘ hv)

theorem Works.bound (h : Works w w') (hb : Bound w) : Bound w' :=
  ⟨by rw [h.ioContext]; exact hb.readableCb, by rw [h.ioContext]; exact hb.writableCb⟩

theorem setRevents_run (hlive : w.freed = false) (hr : w.context.ioContext.reactor = some r)
    (mask : Mask) :
    onIoContext (IoContext.setRevents mask) w = .ok ⟨⟩ (w.polled mask) := by
  have hset : IoContext.setRevents mask ⟨w.kernel, w.context.ioContext⟩ =
      .ok ⟨⟩ ⟨w.kernel, { w.context.ioContext with revents := mask }⟩ := by
    simp [IoContext.setRevents, IoContext.requireReactor, bind_run, hr]
  exact onIoContext_run hlive hset

theorem isReadable_run (hlive : w.freed = false) (hr : w.context.ioContext.reactor = some r) :
    isReadable w = .ok ((w.context.ioContext.revents &&& epollin) != 0) w := by
  rw [isReadable, bind_of_ok (this_run hlive), hr]
  rfl

theorem isWritable_run (h : Attached w r) :
    isWritable w = .ok ((w.context.ioContext.revents &&& epollout) != 0) w := by
  rw [isWritable, bind_of_ok (this_run h.live), h.reactor]
  rfl

theorem Bound.polled (hb : Bound w) (mask : Mask) : Bound (w.polled mask) :=
  ⟨hb.readableCb, hb.writableCb⟩

theorem Attached.polled (h : Attached w r) (mask : Mask) : Attached (w.polled mask) r :=
  ⟨⟨h.live, h.state, h.positive⟩, h.owned, h.reactor, h.fd, h.opened, h.watched⟩

variable [Zero α]

theorem readLoop_works {blocks : List (Block α)} {last : ReadEnd} (h : Open w)
    (hrun : readLoop blocks last w = .ok ⟨⟩ w') : Works w w' := by
  have hw := Works.of_effect (effect_mono (fun _ => Act.IsInput.work) (readLoop_effect blocks last h))
  rwa [hrun] at hw

/-- A callback worked, or destroyed the connection where its next access may fail. -/
def WorksOrFrees (F : Fault → Prop) (w w' : World α) : Prop :=
  Works w w' ∨ F .useAfterFree ∧ w'.freed = true

omit [Zero α] in
theorem stateCleanup_freed (h : w.freed = true) : stateCleanup w = .error .useAfterFree w := by
  simp [stateCleanup, readState, this, bind_run, h]

omit [Zero α] in
theorem runOnRecv_ensures {callback : Exec α Unit} (h : Open w)
    (hcb : w.context.onRecv = true → Ensures F (fun _ => WorksOrFrees F w.invoke) callback w.invoke) :
    Ensures F (fun _ => WorksOrFrees F w) (runOnRecv callback) w := by
  have hinvoke : Works w w.invoke :=
    ⟨⟨rfl, rfl, rfl, rfl, rfl, rfl, destroyerCalls_log _ _⟩, .inl rfl⟩
  by_cases hc : w.context.onRecv = true
  · have hrun : runOnRecv callback w = callback w.invoke := by
      rw [runOnRecv, bind_of_ok (this_run h.live), if_pos hc]
      rfl
    exact .of_eq hrun ((hcb hc).mono fun _ _ hw => hw.imp_left hinvoke.trans)
  · have hrun : runOnRecv callback w = .ok ⟨⟩ w := by
      rw [runOnRecv, bind_of_ok (this_run h.live), if_neg hc]
      rfl
    exact .of_ok hrun (.inl (.refl w))

/-- The readable event gets as far as the callback. -/
structure Reaches (w : World α) (burst : Burst α) : Prop where
  «open» : Open w
  onRecv : w.context.onRecv = true
  last : burst.last.state = .valid

/-- A callback that, called on an open connection, only works; or frees it, if reading a
freed object is among the failures allowed. -/
def Calms (F : Fault → Prop) (callback : Exec α Unit) : Prop :=
  ∀ w r, Attached w r → Open w → Ensures F (fun _ => WorksOrFrees F w) callback w

theorem handleReadableBody_ensures (h : Attached w r) (burst : Burst α) {callback : Exec α Unit}
    (hcb : Reaches w burst → Calms F callback) :
    Ensures F (Verdict r w) (handleReadableBody burst callback) w := by
  obtain ⟨s, hs, hm⟩ := h.state
  unfold handleReadableBody Ensures
  rw [bind_of_ok (requireNotMoved_run h.live hs hm)]
  refine cleanup_then (.refl w) h fun ho => ?_
  obtain ⟨w₁, hloop, hrec⟩ := readLoop_run burst.blocks burst.last ho
  have hw := readLoop_works ho hloop
  unfold Ensures
  rw [bind_of_ok (getFd_run ho.live h.positive), bind_of_ok hloop]
  refine cleanup_then hw (hw.attached h) fun ho₁ => ?_
  have hinv : Attached w₁.invoke r := (hw.attached h).log _
  have hlast : burst.last.state = .valid := by
    have hv := ho₁.valid
    rw [hrec.context] at hv
    exact Option.some.inj hv
  have hcall (hr : w₁.context.onRecv = true) :
      Ensures F (fun _ => WorksOrFrees F w₁.invoke) callback w₁.invoke :=
    hcb ⟨ho, by rw [hrec.context] at hr; exact hr, hlast⟩ _ r hinv ⟨ho₁.live, ho₁.valid⟩
  refine (runOnRecv_ensures ho₁ hcall).bind fun _ w₂ hw₂ => ?_
  rcases hw₂ with hw₂ | ⟨hfault, hfreed⟩
  · exact cleanup_ensures (hw.trans hw₂) ((hw.trans hw₂).attached h)
  · unfold Ensures
    rw [stateCleanup_freed hfreed]
    exact hfault

section Dispatch
variable {burst : Burst α} {callback : Exec α Unit}

theorem handleReadable_bound (h : Attached w r) (hb : Bound w) :
    handleReadable burst callback w = handleReadableEvent burst callback w := by
  rw [handleReadable, bind_of_ok (this_run h.live), h.reactor, hb.readableCb]
  rfl

theorem handleWritable_bound (h : Attached w r) (hb : Bound w) :
    handleWritable burst callback w = handleWritableEvent w := by
  rw [handleWritable, bind_of_ok (this_run h.live), h.reactor, hb.writableCb]
  rfl

theorem handleWritePart_bound (burst : Burst α) (callback : Exec α Unit) (h : Attached w r)
    (hb : Bound w) :
    handleWritePart burst callback w =
      if (w.context.ioContext.revents &&& epollout) != 0 then
        (do let _ ← handleWritableEvent : Exec α Unit) w
      else .ok ⟨⟩ w := by
  rw [handleWritePart, bind_of_ok (isWritable_run h)]
  split
  · rw [bind_run, handleWritable_bound h hb, bind_run]
  · rfl

theorem handleGeneral_bound (burst : Burst α) (callback : Exec α Unit) (h : Attached w r)
    (hb : Bound w) :
    handleGeneral burst callback w =
      if (w.context.ioContext.revents &&& epollin) != 0 then
        (do
          let ret ← handleReadableEvent burst callback
          if ret < 0 then pure () else handleWritePart burst callback : Exec α Unit) w
      else handleWritePart burst callback w := by
  rw [handleGeneral, bind_of_ok (isReadable_run h.live h.reactor)]
  split
  · rw [bind_run, handleReadable_bound h hb, bind_run]
  · rfl

end Dispatch

section Events
variable {callback : Exec α Unit} (heff : ∀ w, Effect (Steps Act.IsBody) callback w)

include heff

theorem handleReadableEvent_ensures (h : Attached w r) (burst : Burst α)
    (hcb : Reaches w burst → Calms F callback) :
    Ensures F (fun ret w' => Verdict r w ret w' ∧ Entry .readable ret w w')
      (handleReadableEvent burst callback) w :=
  recorded_ensures
    (handleReadableBody_ensures (h.log _) burst fun hr =>
      hcb ⟨⟨hr.open.live, hr.open.valid⟩, hr.onRecv, hr.last⟩)
    (handleReadableBody_effect burst heff)

omit heff in
theorem handleWritePart_ensures (h : Attached w r) (hb : Bound w) (burst : Burst α)
    (callback : Exec α Unit) :
    Ensures F (fun _ => Handled w) (handleWritePart burst callback) w := by
  have hpart := handleWritePart_bound burst callback h hb
  split at hpart
  · exact .of_eq hpart ((handleWritableEvent_ensures h).bind fun _ _ hv => hv.1.handled hv.2)
  · exact .of_ok hpart (.stays (.refl w) id id)

theorem handleGeneral_ensures (h : Attached w r) (hb : Bound w) (burst : Burst α)
    (hcb : (w.context.ioContext.revents &&& epollin) ≠ 0 → Reaches w burst → Calms F callback) :
    Ensures F (fun _ => Handled w) (handleGeneral burst callback) w := by
  have hrun := handleGeneral_bound burst callback h hb
  split at hrun
  · rename_i hin
    have hend := handleReadableEvent_ensures heff h burst (hcb (by simpa using hin))
    refine .of_eq hrun (hend.bind fun ret w₁ ⟨hv, he⟩ => ?_)
    cases hv with
    | stays hw ho =>
      exact (handleWritePart_ensures (hw.attached h) (hw.bound hb) burst callback).mono
        fun _ _ hh => hh.after hw ho (he.visits ho.valid hw.calls)
    | goes hg hc => exact .goes hg hc (he.life hc)
  · exact .of_eq hrun (handleWritePart_ensures h hb burst callback)

theorem loopEntry_ensures (h : Attached w r) (hb : Bound w) (mask : Mask) (burst : Burst α)
    (hcb : (mask &&& epollin) ≠ 0 → Reaches w burst → Calms F callback) :
    Ensures F (fun _ => Handled (w.polled mask)) (loopEntry mask burst callback) w := by
  have hrun : loopEntry mask burst callback w = handleGeneral burst callback (w.polled mask) := by
    rw [loopEntry, bind_of_ok (setRevents_run h.live h.reactor mask)]
  exact .of_eq hrun (handleGeneral_ensures heff (h.polled mask) (hb.polled mask) burst fun hin hr =>
    hcb hin ⟨⟨hr.open.live, hr.open.valid⟩, hr.onRecv, hr.last⟩)

end Events

theorem runCalls_body (cs : List (Call α)) (w : World α) : Effect (Steps Act.IsBody) (runCalls cs) w :=
  effect_mono (fun _ => Act.IsCall.body) (runCalls_effect cs)

theorem calms_of_works {cs : List (Call α)}
    (hcs : ∀ c ∈ cs, ∀ w, Healthy w → Ensures F (fun _ => Works w) c.exec w) :
    Calms F (runCalls cs) :=
  fun _ _ h _ => (runCalls_ensures h.toHealthy hcs).mono fun _ _ => Or.inl

theorem quiet_calms {cs : List (Call α)} (hq : ∀ c ∈ cs, c.Quiet) : Calms F (runCalls cs) :=
  calms_of_works fun c hc _ hw => c.quiet_ensures (hq c hc) hw

/-- However a call ends, if it returns it worked or it has freed the connection. -/
theorem Call.exec_frees (c : Call α) (h : Attached w r) :
    Ensures (fun _ => True) (fun _ w' => w'.freed = true ∨ Works w w') c.exec w := by
  have hquiet (hx : Effect (Steps Act.IsQuiet) c.exec w) :
      Ensures (fun _ => True) (fun _ w' => w'.freed = true ∨ Works w w') c.exec w := by
    have hw := Works.of_quiet hx
    cases hrun : c.exec w with
    | ok u w' =>
      rw [hrun] at hw
      exact .of_ok hrun (.inr hw)
    | error e w' => exact .of_error hrun trivial
  cases c with
  | setOnRecv installed =>
    exact (calm_ensures (.setOnRecv installed) trivial h.toHealthy).weaken (fun _ _ => trivial)
      fun _ _ => .inr
  | destroy =>
    have hrun : Netier.destroy w = .ok ⟨⟩ (w.torn r) := destroy_run h
    exact .of_ok hrun (.inl rfl)
  | _ => exact hquiet (quiet_effect _ (by simp) (by simp))

theorem runCalls_frees (cs : List (Call α)) (h : Attached w r) :
    Ensures (fun _ => True) (fun _ w' => w'.freed = true ∨ Works w w') (runCalls cs) w := by
  induction cs generalizing w with
  | nil => exact .inr (.refl w)
  | cons c cs ih =>
    refine (c.exec_frees h).bind fun _ w₁ hw₁ => ?_
    rcases hw₁ with hfreed | hw
    · have hstays := (runCalls_effect cs).keeps (I := fun v => v.freed = true)
        (fun _ _ hf hs => hs.freed hf) hfreed
      cases hrun : runCalls cs w₁ with
      | ok u w' =>
        rw [hrun] at hstays
        exact .of_ok hrun (.inl hstays)
      | error e w' => exact .of_error hrun trivial
    · exact (ih (hw.attached h)).mono fun _ w₂ hw₂ => hw₂.imp_right hw.trans

/-- Any callback, if every failure is allowed. -/
theorem any_calms (cs : List (Call α)) : Calms (fun _ => True) (runCalls cs) :=
  fun _ _ h _ => (runCalls_frees cs h).mono fun _ _ hw => hw.symm.imp_right fun hf => ⟨trivial, hf⟩

end Handlers
end Netier
