import Netier.Connection.Input

/-! The actions of callback bodies, of the read loop and of the event handlers. -/
namespace Netier
open Lib
variable {α : Type} [Zero α] {w w' : World α}

/-- The calls that can neither destroy the context nor replace its callback, and return. -/
def Call.Quiet : Call α → Prop
  | .read | .readString | .getState | .output _ | .writeFileSized _ _ => True
  | _ => False

/-- Only `setOnRecv` can take the callback away. -/
def Call.Keeps : Call α → Prop
  | .setOnRecv installed => installed = true
  | _ => True

/-- What each call may do: any may send, and each of the other actions belongs to the calls
that are named with it. -/
theorem Call.exec_steps {S : Act α → Prop} (c : Call α) (hsend : ∀ a, a.IsSend → S a)
    (htake : c = .read ∨ c = .readString → S .take)
    (hopen : ∀ f, c = .output (.writeFile (some f)) → S .fopen)
    (hset : ∀ installed, c = .setOnRecv installed → S (.setOnRecv installed))
    (hteardown : c = .destroy → ∀ a, a.IsTeardown → S a) : Effect (Steps S) c.exec w := by
  have sent {β : Type} {x : Exec α β} (hx : Effect (Steps Act.IsSend) x w) :
      Effect (Steps S) (do let _ ← x) w := (effect_mono hsend hx).bind fun _ _ _ => Effect.pure _
  cases c with
  | read => exact (read_effect (htake (.inl rfl))).bind fun _ _ _ => Effect.pure _
  | readString => exact (readString_effect (htake (.inr rfl))).bind fun _ _ _ => Effect.pure _
  | getState => exact getState_effect.bind fun _ _ _ => Effect.pure _
  | output o => exact o.exec_steps hsend fun f hf => hopen f (congrArg _ hf)
  | writeStringMove depth data => exact sent (writeStringMove_effect depth data)
  | writeVectorMove depth data => exact sent (writeVectorMove_effect depth data)
  | writeFileSized p s => exact sent (writeFileSized_effect p s)
  | setOnRecv installed => exact setOnRecv_effect (hset installed rfl)
  | destroy => exact effect_mono (hteardown rfl) destroy_effect

/-- A call that neither destroys the context nor replaces its callback. -/
theorem Call.quiet_effect (c : Call α) (hc : c ≠ .destroy) (hc' : ∀ installed, c ≠ .setOnRecv installed) :
    Effect (Steps Act.IsQuiet) c.exec w :=
  c.exec_steps (fun _ => Act.IsSend.quiet) (fun _ => trivial) (fun _ _ => trivial)
    (fun installed heq => absurd heq (hc' installed)) fun heq => absurd heq hc

theorem runCalls_steps {S : Act α → Prop} (cs : List (Call α)) (hq : ∀ a, a.IsQuiet → S a)
    (ht : ∀ a, a.IsTeardown → S a)
    (hr : ∀ c ∈ cs, ∀ installed, c = .setOnRecv installed → S (.setOnRecv installed)) :
    Effect (Steps S) (runCalls cs) w := by
  induction cs generalizing w with
  | nil => exact Effect.pure _
  | cons c cs ih =>
    apply Effect.bind (c.exec_steps (fun a ha => hq a ha.quiet) (fun _ => hq _ trivial)
      (fun _ _ => hq _ trivial) (hr c List.mem_cons_self) fun _ => ht)
    intro _ _ _
    exact ih fun c' hc => hr c' (List.mem_cons_of_mem _ hc)

theorem Call.exec_effect (c : Call α) : Effect (Steps Act.IsCall) c.exec w :=
  c.exec_steps (fun _ => Act.IsSend.call) (fun _ => .inl trivial) (fun _ _ => .inl trivial)
    (fun _ _ => .inr (.inr ⟨_, rfl⟩)) fun _ _ => Act.IsTeardown.call

theorem runCalls_effect (cs : List (Call α)) : Effect (Steps Act.IsCall) (runCalls cs) w :=
  runCalls_steps cs (fun _ => .inl) (fun _ => Act.IsTeardown.call)
    fun _ _ _ _ => .inr (.inr ⟨_, rfl⟩)

omit [Zero α] in
theorem readOutcome_effect (n : Int) (h : Open w) :
    Effect (Steps Act.IsInput) (readOutcome n) w := by
  have shrinkThen (k : Nat) (s : State) (hs : s = .closed ∨ s = .invalid) :
      Effect (Steps Act.IsInput) (do
        onBuffer fun b => b.shrink k
        setState s
        pure false) w := by
    apply Effect.bind (onBuffer_effect (fun _ => trivial) h)
    intro _ w₁ h₁
    apply Effect.bind (setState_effect trivial (h.onBuffer h₁) hs)
    intro _ _ _
    exact Effect.pure _
  apply Effect.ite
  · intro _
    apply Effect.ite
    · intro _
      exact (onBuffer_effect (fun _ => trivial) h).bind fun _ _ _ => Effect.pure _
    · intro _
      exact Effect.pure _
  · intro _
    apply Effect.bind errno_effect
    rintro e _ ⟨⟩
    apply Effect.ite
    · intro _
      exact (onBuffer_effect (fun _ => trivial) h).bind fun _ _ _ => Effect.pure _
    · intro _
      apply Effect.ite
      · intro _
        exact shrinkThen _ _ (.inl rfl)
      · intro _
        exact shrinkThen _ _ (.inr rfl)

theorem readPass_effect (answer : ReadAnswer α) (h : Open w) :
    Effect (Steps Act.IsInput) (readPass answer) w := by
  apply Effect.bind this_effect
  intro c w₁ h₁
  obtain ⟨_, rfl, rfl⟩ := this_inv h₁
  split
  · exact Effect.throw _
  · rename_i writer b _
    apply Effect.bind (assign_buffer_effect trivial h)
    intro _ w₂ h₂
    rw [assign_run h.live] at h₂
    cases h₂
    have ho := h.assign (c := { w.context with buffer := b }) rfl
    apply Effect.bind (sysRead_effect trivial ho)
    rintro n _ ⟨⟩
    exact readOutcome_effect _ (ho.sysRead writer answer)

theorem readLoop_effect (blocks : List (Block α)) (last : ReadEnd) (h : Open w) :
    Effect (Steps Act.IsInput) (readLoop blocks last) w := by
  induction blocks generalizing w with
  | nil =>
    apply Effect.bind (readPass_effect _ h)
    intro _ _ _
    exact Effect.pure _
  | cons b bs ih =>
    obtain ⟨w₁, hrun, hw₁⟩ := readPass_block b h
    apply Effect.bind (readPass_effect _ h)
    intro goOn w₂ h₂
    rw [hrun] at h₂
    cases h₂
    exact ih (hw₁.open h)

section Body
variable {callback : Exec α Unit}

omit [Zero α] in
theorem requireNotMoved_state {u : Unit} (h : requireNotMoved w = .ok u w') :
    w.context.state ≠ some .moved := by
  intro hm
  cases hf : w.freed with
  | true => simp [requireNotMoved, readState, this, bind_run, hf] at h
  | false =>
    rw [requireNotMoved, bind_of_ok (readState_run hf hm)] at h
    cases h

omit [Zero α] in
/-- A cleanup that lets the handler go on has found an open connection. -/
theorem stateCleanup_open {ret : Int} (hm : w.context.state ≠ some .moved)
    (h : stateCleanup w = .ok ret w') (hret : ¬ ret < 0) : Open w ∧ w' = w := by
  cases hs : readState w with
  | error e w₁ => rw [stateCleanup, bind_of_error hs] at h; cases h
  | ok s w₁ =>
    obtain ⟨hlive, hstate, rfl⟩ := readState_inv hs
    rw [stateCleanup, bind_of_ok hs] at h
    cases s with
    | valid => cases h; exact ⟨⟨hlive, hstate⟩, rfl⟩
    | moved => exact absurd hstate hm
    | closed | invalid =>
      exfalso
      apply hret
      cases hd : destroy w with
      | ok u w₂ => simp [bind_run, hd] at h; omega
      | error e w₂ => simp [bind_run, hd] at h

omit [Zero α] in
theorem cleanup_then_effect {x : Exec α Int} (hm : w.context.state ≠ some .moved)
    (hx : Open w → Effect (Steps Act.IsBody) x w) :
    Effect (Steps Act.IsBody) (do
      let ret ← stateCleanup
      if ret < 0 then pure ret
      else x) w := by
  apply Effect.bind (effect_mono (fun _ => Or.inr) stateCleanup_effect)
  intro ret w₁ h₁
  apply Effect.ite
  · intro _
    exact Effect.pure _
  · intro hret
    obtain ⟨ho, rfl⟩ := stateCleanup_open hm h₁ hret
    exact hx ho

omit [Zero α] in
theorem runOnRecv_effect (h : Open w) (hcb : ∀ w, Effect (Steps Act.IsBody) callback w) :
    Effect (Steps Act.IsBody) (runOnRecv callback) w := by
  apply Effect.bind this_effect
  intro c w₁ h₁
  obtain ⟨_, _, rfl⟩ := this_inv h₁
  apply Effect.ite
  · intro _
    apply Effect.bind (effect_act .invoke rfl (.inl trivial) h)
    intro _ _ _
    exact hcb _
  · intro _
    exact Effect.pure _

theorem handleReadableBody_effect (burst : Burst α)
    (hcb : ∀ w, Effect (Steps Act.IsBody) callback w) :
    Effect (Steps Act.IsBody) (handleReadableBody burst callback) w := by
  apply Effect.bind requireNotMoved_effect
  intro _ w₁ h₁
  have hm := requireNotMoved_state h₁
  obtain rfl := requireNotMoved_inv h₁
  refine cleanup_then_effect hm fun ho => ?_
  apply Effect.bind getFd_effect
  intro _ w₂ h₂
  obtain rfl := getFd_inv h₂
  apply Effect.bind (effect_mono (fun _ ha => .inl ha.work) (readLoop_effect _ _ ho))
  intro _ w₃ h₃
  obtain ⟨w₄, hrun, hrec⟩ := readLoop_run burst.blocks burst.last ho
  rw [hrun] at h₃
  cases h₃
  have hm₃ : w₃.context.state ≠ some .moved := by
    rw [hrec.context]
    simpa using burst.last.state_ne_moved
  refine cleanup_then_effect hm₃ fun ho₃ => ?_
  apply Effect.bind (runOnRecv_effect ho₃ hcb)
  intro _ _ _
  exact effect_mono (fun _ => Or.inr) stateCleanup_effect

omit [Zero α] in
theorem handleWritableBody_effect : Effect (Steps Act.IsCall) (handleWritableBody (α := α)) w := by
  apply Effect.bind requireNotMoved_effect
  intro _ w₁ h₁
  have hclean : ∀ {w}, Effect (Steps Act.IsCall) (stateCleanup (α := α)) w :=
    effect_mono (fun _ => Act.IsTeardown.call) stateCleanup_effect
  apply Effect.bind hclean
  intro _ _ _
  apply Effect.ite
  · intro _
    exact Effect.pure _
  · intro _
    apply Effect.bind (effect_mono (fun _ => Act.IsSend.call) flushWriteBuffer_effect)
    intro _ _ _
    exact hclean

omit [Zero α] in
theorem recorded_effect {hd : Handler} {body : Exec α Int}
    (hbody : ∀ w, Effect (Steps Act.IsBody) body w) :
    Effect (Steps Act.IsEvent) (recorded hd body) w := by
  apply Effect.bind (effect_act (.entered hd) rfl trivial trivial)
  intro _ w₁ _
  apply Effect.bind (effect_mono (fun _ => Act.IsBody.event) (hbody w₁))
  intro ret w₂ _
  apply Effect.bind (effect_act (.returned hd ret) rfl trivial trivial)
  intro _ _ _
  exact Effect.pure _

omit [Zero α] in
/-- A handler's return, taken back to its body. -/
theorem recorded_inv {hd : Handler} {body : Exec α Int} {ret : Int}
    (h : recorded hd body w = .ok ret w') :
    ∃ w₁, body (w.log (.entered hd)) = .ok ret w₁ ∧ w' = w₁.log (.returned hd ret) := by
  rw [recorded, bind_of_ok (log_run _ _)] at h
  obtain ⟨ret', w₁, hbody, h⟩ := bind_inv h
  cases h
  exact ⟨w₁, hbody, rfl⟩

theorem handleReadableEvent_effect (burst : Burst α)
    (hcb : ∀ w, Effect (Steps Act.IsBody) callback w) :
    Effect (Steps Act.IsEvent) (handleReadableEvent burst callback) w :=
  recorded_effect fun _ => handleReadableBody_effect burst hcb

omit [Zero α] in
theorem handleWritableEvent_effect : Effect (Steps Act.IsEvent) (handleWritableEvent (α := α)) w :=
  recorded_effect fun _ => effect_mono (fun _ => Act.IsCall.body) handleWritableBody_effect

theorem dispatch_effect (cb : Option Callback) (burst : Burst α)
    (hcb : ∀ w, Effect (Steps Act.IsBody) callback w) :
    Effect (Steps Act.IsEvent) (dispatch cb burst callback) w := by
  cases cb with
  | none => exact Effect.pure _
  | some cb =>
    cases cb with
    | handleReadableEvent => exact handleReadableEvent_effect burst hcb
    | handleWritableEvent => exact handleWritableEvent_effect

omit [Zero α] in
theorem assert_effect {r : World α → World α → Prop} {c : Bool} : Effect r (assert c) w :=
  effect_of_final (by cases c <;> rfl)

omit [Zero α] in
theorem isReadable_effect {r : World α → World α → Prop} : Effect r isReadable w := by
  apply Effect.bind this_effect
  intro _ _ _
  exact Effect.pure _

omit [Zero α] in
theorem isWritable_effect {r : World α → World α → Prop} : Effect r isWritable w := by
  apply Effect.bind this_effect
  intro _ _ _
  apply Effect.bind assert_effect
  intro _ _ _
  exact Effect.pure _

theorem handleReadable_effect (burst : Burst α)
    (hcb : ∀ w, Effect (Steps Act.IsBody) callback w) :
    Effect (Steps Act.IsEvent) (handleReadable burst callback) w := by
  apply Effect.bind this_effect
  intro c _ _
  apply Effect.bind assert_effect
  intro _ _ _
  exact dispatch_effect _ burst hcb

theorem handleWritable_effect (burst : Burst α)
    (hcb : ∀ w, Effect (Steps Act.IsBody) callback w) :
    Effect (Steps Act.IsEvent) (handleWritable burst callback) w := by
  apply Effect.bind this_effect
  intro c _ _
  apply Effect.bind assert_effect
  intro _ _ _
  exact dispatch_effect _ burst hcb

theorem handleWritePart_effect (burst : Burst α)
    (hcb : ∀ w, Effect (Steps Act.IsBody) callback w) :
    Effect (Steps Act.IsEvent) (handleWritePart burst callback) w := by
  apply Effect.bind isWritable_effect
  intro writable _ _
  apply Effect.ite
  · intro _
    exact (handleWritable_effect burst hcb).bind fun _ _ _ => Effect.pure _
  · intro _
    exact Effect.pure _

/-- Whatever the context's state, the handling of an event is a path of enabled actions. -/
theorem handleGeneral_effect (burst : Burst α)
    (hcb : ∀ w, Effect (Steps Act.IsBody) callback w) :
    Effect (Steps Act.IsEvent) (handleGeneral burst callback) w := by
  apply Effect.bind isReadable_effect
  intro readable _ _
  apply Effect.ite
  · intro _
    apply Effect.bind (handleReadable_effect burst hcb)
    intro ret _ _
    apply Effect.ite
    · intro _
      exact Effect.pure _
    · intro _
      exact handleWritePart_effect burst hcb
  · intro _
    exact handleWritePart_effect burst hcb

end Body

end Netier
