import Netier.Connection.Actions

/-! Every member function, in every state and whatever its outcome, takes only the
actions of its kind. -/
namespace Netier
open Lib
variable {α : Type} {w w' : World α}

namespace World

@[simp] theorem sysWrite_context (w : World α) (buf : List α) :
    (w.sysWrite buf).2.context = w.context := by
  unfold sysWrite
  split <;> rfl

@[simp] theorem sysWrite_freed (w : World α) (buf : List α) :
    (w.sysWrite buf).2.freed = w.freed := by
  unfold sysWrite
  split <;> rfl

@[simp] theorem sysRead_freed (w : World α) (writer : Nat) (answer : ReadAnswer α) :
    (w.sysRead writer answer).2.freed = w.freed := by
  cases answer <;> rfl

@[simp] theorem sysRead_state (w : World α) (writer : Nat) (answer : ReadAnswer α) :
    (w.sysRead writer answer).2.context.state = w.context.state := by
  cases answer <;> rfl

end World

theorem Open.sysWrite (h : Open w) (buf : List α) : Open (w.sysWrite buf).2 :=
  ⟨by simp [h.live], by simp [h.valid]⟩

theorem Open.sysRead (h : Open w) (writer : Nat) (answer : ReadAnswer α) :
    Open (w.sysRead writer answer).2 :=
  ⟨by simp [h.live], by simp [h.valid]⟩

theorem Open.assign {c : Context α} (h : Open w) (hc : c.state = w.context.state) :
    Open (w.assign c) :=
  ⟨h.live, hc.trans h.valid⟩

theorem Open.onWbuffer {f : Buffer α → Option (Buffer α)} {u : Unit} (h : Open w)
    (hf : onWbuffer f w = .ok u w') : Open w' := by
  rw [Netier.onWbuffer, bind_of_ok (this_run h.live)] at hf
  cases hb : f w.context.wbuffer with
  | none => simp [hb] at hf
  | some b =>
    simp only [hb, assign_run h.live] at hf
    cases hf
    exact h.assign rfl

theorem Open.onBuffer {f : Buffer α → Option (Buffer α)} {u : Unit} (h : Open w)
    (hf : onBuffer f w = .ok u w') : Open w' := by
  rw [Netier.onBuffer, bind_of_ok (this_run h.live)] at hf
  cases hb : f w.context.buffer with
  | none => simp [hb] at hf
  | some b =>
    simp only [hb, assign_run h.live] at hf
    cases hf
    exact h.assign rfl

/-- `if (__state != VALID) return …` after the assertion: the rest runs on an open object. -/
theorem guarded_effect {β : Type} {r : World α → World α → Prop} {b : β} {x : Exec α β}
    (hx : Open w → Effect r x w) :
    Effect r (do
      requireNotMoved
      if (← readState) ≠ .valid then pure b
      else x) w := by
  apply Effect.bind requireNotMoved_effect
  intro _ w₁ h₁
  obtain rfl := requireNotMoved_inv h₁
  apply Effect.bind readState_effect
  intro s w₂ h₂
  obtain ⟨hlive, hstate, rfl⟩ := readState_inv h₂
  apply Effect.ite
  · intro _
    exact Effect.pure _
  · intro hs
    exact hx ⟨hlive, by rw [hstate, not_not.mp hs]⟩

theorem flushLoop_effect (fuel : Nat) (h : Open w) :
    Effect (Steps Act.IsSend) (flushLoop fuel) w := by
  induction fuel generalizing w with
  | zero => exact Effect.throw _
  | succ fuel ih =>
    unfold flushLoop
    apply Effect.bind this_effect
    intro c w₁ h₁
    obtain ⟨_, rfl, rfl⟩ := this_inv h₁
    apply Effect.ite
    · intro _
      apply Effect.bind (sysWrite_effect trivial h)
      rintro n _ ⟨⟩
      have ho := h.sysWrite w.context.wbuffer.bytes
      apply Effect.ite
      · intro _
        apply Effect.bind (onWbuffer_effect (fun _ => trivial) ho)
        intro _ w₂ h₂
        exact ih (ho.onWbuffer h₂)
      · intro _
        apply Effect.bind errno_effect
        rintro e _ ⟨⟩
        apply Effect.ite
        · intro _
          exact Effect.pure _
        · intro _
          apply Effect.ite
          · intro _
            exact setState_effect trivial ho (.inl rfl)
          · intro _
            exact setState_effect trivial ho (.inr rfl)
    · intro _
      exact Effect.pure _

theorem flushWriteBuffer_effect : Effect (Steps Act.IsSend) flushWriteBuffer w := by
  apply guarded_effect
  intro h
  apply Effect.bind getFd_effect
  intro _ w₁ h₁
  obtain rfl := getFd_inv h₁
  apply Effect.bind this_effect
  intro c w₂ h₂
  obtain ⟨_, rfl, rfl⟩ := this_inv h₂
  exact flushLoop_effect _ h

theorem asyncWrite_effect (buf : List α) : Effect (Steps Act.IsSend) (asyncWrite buf) w := by
  apply guarded_effect
  intro h
  apply Effect.bind (onWbuffer_effect (fun _ => trivial) h)
  intro _ w₁ _
  exact flushWriteBuffer_effect

theorem syncLoop_effect (buf : List α) (fuel : Nat) (remaining : Int) (h : Open w) :
    Effect (Steps Act.IsSend) (syncLoop buf fuel remaining) w := by
  induction fuel generalizing w remaining with
  | zero => exact Effect.throw _
  | succ fuel ih =>
    unfold syncLoop
    apply Effect.ite
    · intro _
      apply Effect.bind (sysWrite_effect trivial h)
      rintro n _ ⟨⟩
      have ho := h.sysWrite (buf.take remaining.toNat)
      apply Effect.ite
      · intro _
        exact ih _ ho
      · intro _
        apply Effect.bind errno_effect
        rintro e _ ⟨⟩
        apply Effect.ite
        · intro _
          apply Effect.ite
          · intro _
            apply Effect.bind (asyncWrite_effect _)
            intro _ _ _
            exact Effect.pure _
          · intro _
            exact Effect.pure _
        · intro _
          apply Effect.ite
          · intro _
            apply Effect.bind (setState_effect trivial ho (.inl rfl))
            intro _ _ _
            exact Effect.pure _
          · intro _
            apply Effect.bind (setState_effect trivial ho (.inr rfl))
            intro _ _ _
            exact Effect.pure _
    · intro _
      exact Effect.pure _

theorem syncWrite_effect (buf : List α) : Effect (Steps Act.IsSend) (syncWrite buf) w := by
  apply guarded_effect
  intro h
  apply Effect.bind getFd_effect
  intro _ w₁ h₁
  obtain rfl := getFd_inv h₁
  exact syncLoop_effect _ _ _ h

theorem writeString_effect (data : StdString α) :
    Effect (Steps Act.IsSend) (writeString data) w :=
  guarded_effect fun _ => syncWrite_effect _

theorem writeVector_effect (data : List α) : Effect (Steps Act.IsSend) (writeVector data) w :=
  guarded_effect fun _ => syncWrite_effect _

theorem writeStringMove_effect (depth : Nat) (data : StdString α) :
    Effect (Steps Act.IsSend) (writeStringMove depth data) w := by
  induction depth with
  | zero => exact Effect.throw _
  | succ depth ih => exact guarded_effect fun _ => ih

theorem writeVectorMove_effect (depth : Nat) (data : List α) :
    Effect (Steps Act.IsSend) (writeVectorMove depth data) w := by
  induction depth with
  | zero => exact Effect.throw _
  | succ depth ih => exact guarded_effect fun _ => ih

theorem writeFileSized_effect (p s : Nat) :
    Effect (Steps Act.IsSend) (writeFileSized (α := α) p s) w := by
  apply guarded_effect
  intro _
  apply Effect.ite <;> intro _ <;> exact Effect.pure _

theorem Steps.open_of_queue (hs : Steps Act.IsQueue w w') (h : Open w) : Open w' := by
  obtain ⟨a, ha, _, rfl⟩ := hs
  cases a with
  | wbuffer b => exact h.assign rfl
  | _ => exact ha.elim

/-- `read()` and the tail of `readString()`: everything in `__buffer` is taken. -/
theorem take_effect {S : Act α → Prop} {β : Type} {b : Context α → β} (hS : S .take) :
    Effect (Steps S) (do
      let c ← this
      modify fun w => w.take
      pure (b c)) w := by
  apply Effect.bind this_effect
  intro c w₁ h₁
  obtain ⟨hlive, _, rfl⟩ := this_inv h₁
  apply Effect.bind (effect_act .take rfl hS hlive)
  intro _ _ _
  exact Effect.pure _

theorem read_effect {S : Act α → Prop} (hS : S .take) : Effect (Steps S) (read (α := α)) w := by
  apply Effect.bind requireNotMoved_effect
  intro _ w₁ h₁
  obtain rfl := requireNotMoved_inv h₁
  exact take_effect hS

theorem readString_effect {S : Act α → Prop} (hS : S .take) :
    Effect (Steps S) (readString (α := α)) w :=
  guarded_effect fun _ => take_effect hS

theorem getState_effect {r : World α → World α → Prop} : Effect r getState w := by
  apply Effect.bind requireNotMoved_effect
  intro _ w₁ h₁
  obtain rfl := requireNotMoved_inv h₁
  exact readState_effect

theorem setOnRecv_effect {S : Act α → Prop} {installed : Bool} (hS : S (.setOnRecv installed)) :
    Effect (Steps S) (setOnRecv installed) w := by
  apply Effect.bind requireNotMoved_effect
  intro _ w₁ h₁
  obtain rfl := requireNotMoved_inv h₁
  cases hf : w.freed with
  | true => exact effect_of_final (by rw [assign_error hf]; rfl)
  | false => exact effect_act (.setOnRecv installed) (by rw [assign_run hf]; rfl) hS hf

theorem destruct_effect (hlive : w.freed = false) (hin : w.inserted = true) :
    Effect (Steps Act.IsTeardown) (destruct (α := α)) w := by
  cases hx : IoContext.destruct ⟨w.kernel, w.context.ioContext⟩ with
  | ok u r =>
    have hr := onIoContext_run hlive hx
    apply Effect.bind (effect_act (.deregister r) (by rw [hr]; rfl) trivial ⟨hlive, hin, hx⟩)
    intro _ w₁ h₁
    rw [hr] at h₁
    cases h₁
    exact effect_act .release rfl trivial ⟨hlive, hin⟩
  | error e r =>
    have hr := onIoContext_error hlive hx
    apply Effect.bind (effect_of_final (by rw [hr]; rfl))
    intro _ w₁ h₁
    rw [hr] at h₁
    cases h₁

theorem contextDestroyer_effect (hlive : w.freed = false) :
    Effect (Steps Act.IsTeardown) (contextDestroyer (α := α)) w := by
  apply Effect.bind (effect_act .destroyer rfl trivial hlive)
  rintro _ _ ⟨⟩
  apply Effect.bind (effect_of_final rfl)
  rintro _ _ ⟨⟩
  apply Effect.ite
  · intro hin
    exact destruct_effect hlive hin
  · intro _
    exact Effect.pure _

theorem destroy_effect : Effect (Steps Act.IsTeardown) (destroy (α := α)) w := by
  cases h : requireNotMoved w with
  | error e w₁ =>
    have hf := congrArg final h
    rw [requireNotMoved_final] at hf
    apply effect_of_final
    rw [destroy, bind_of_error h]
    exact hf.symm
  | ok u w₁ =>
    obtain rfl := requireNotMoved_inv h
    have hlive : w.freed = false := by
      cases hf : w.freed with
      | false => rfl
      | true => simp [requireNotMoved, readState, this, bind_run, hf] at h
    apply Effect.bind requireNotMoved_effect
    intro _ w₁ h₁
    obtain rfl := requireNotMoved_inv h₁
    apply Effect.bind getFd_effect
    intro _ w₂ h₂
    obtain rfl := getFd_inv h₂
    exact contextDestroyer_effect hlive

theorem stateCleanup_effect : Effect (Steps Act.IsTeardown) (stateCleanup (α := α)) w := by
  apply Effect.bind readState_effect
  intro s w₁ h₁
  obtain ⟨_, _, rfl⟩ := readState_inv h₁
  apply Effect.ite
  · intro _
    apply Effect.bind destroy_effect
    intro _ _ _
    exact Effect.pure _
  · intro _
    exact Effect.pure _

section Window
variable [Zero α]

theorem freadOnce_effect (piece : List α) (h : Open w) :
    Effect (Steps Act.IsQueue) (freadOnce piece) w := by
  apply Effect.bind this_effect
  intro c w₁ h₁
  obtain ⟨_, rfl, rfl⟩ := this_inv h₁
  split
  · exact Effect.throw _
  · rename_i writer b _
    apply Effect.bind (assign_wbuffer_effect trivial h)
    intro _ w₂ h₂
    rw [assign_run h.live] at h₂
    cases h₂
    have ho := h.assign (c := { w.context with wbuffer := b }) rfl
    apply Effect.bind (onWbuffer_effect (fun _ => trivial) ho)
    intro _ w₃ h₃
    apply Effect.ite
    · intro _
      exact onWbuffer_effect (fun _ => trivial) (ho.onWbuffer h₃)
    · intro _
      exact Effect.pure _

theorem freadLoop_effect (pieces : List (Block α)) (h : Open w) :
    Effect (Steps Act.IsQueue) (freadLoop pieces) w := by
  induction pieces generalizing w with
  | nil => exact freadOnce_effect _ h
  | cons p ps ih =>
    have hp := freadOnce_effect p.bytes h
    apply Effect.bind hp
    intro _ w₁ h₁
    apply ih
    simpa [h₁] using hp.keeps (I := Open) (fun _ _ ho hs => hs.open_of_queue ho) h

theorem writeFile_effect {S : Act α → Prop} (file : Option (FileStream α))
    (hsend : ∀ a, a.IsSend → S a) (hopen : ∀ f, file = some f → S .fopen) :
    Effect (Steps S) (writeFile file) w := by
  apply guarded_effect
  intro h
  cases file with
  | none => exact Effect.pure _
  | some f =>
    apply Effect.bind (effect_act .fopen rfl (hopen f rfl) h)
    rintro _ _ ⟨⟩
    have ho : Open w.fopen := ⟨h.live, h.valid⟩
    apply Effect.bind (effect_mono (fun a ha => hsend a ha.send) (freadLoop_effect _ ho))
    intro _ _ _
    apply Effect.bind (effect_mono hsend flushWriteBuffer_effect)
    intro _ _ _
    exact Effect.pure _

/-- An output call sends, and only `writeFile` opens a stream, if it finds its file. -/
theorem Output.exec_steps {S : Act α → Prop} (o : Output α) (hsend : ∀ a, a.IsSend → S a)
    (hopen : ∀ f, o = .writeFile (some f) → S .fopen) : Effect (Steps S) o.exec w := by
  have send {β : Type} {x : Exec α β} (hx : Effect (Steps Act.IsSend) x w) : Effect (Steps S) x w :=
    effect_mono hsend hx
  cases o with
  | syncWrite buf => exact (send (syncWrite_effect buf)).bind fun _ _ _ => Effect.pure _
  | writeString data => exact (send (writeString_effect data)).bind fun _ _ _ => Effect.pure _
  | writeVector data => exact (send (writeVector_effect data)).bind fun _ _ _ => Effect.pure _
  | asyncWrite buf => exact send (asyncWrite_effect buf)
  | writeFile file =>
    exact (writeFile_effect file hsend fun f hf => hopen f (congrArg _ hf)).bind
      fun _ _ _ => Effect.pure _
  | flushWriteBuffer => exact send flushWriteBuffer_effect

theorem Output.exec_effect (o : Output α) : Effect (Steps Act.IsOutput) o.exec w :=
  o.exec_steps (fun _ => Act.IsSend.output) fun _ _ => trivial

end Window
end Netier
