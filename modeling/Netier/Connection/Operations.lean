import Netier.Connection.Handlers
import Netier.Lib.Run

/-! Runs of one connection: calls of the application, inside and outside its callback, and
events of the loop, with the rules by which an invariant passes through them. -/
namespace Netier
open Lib
variable {α : Type} [Zero α] {w w' : World α} {burst : Burst α} {callback : Exec α Unit}
variable {I J : World α → Prop}

/-- The connection as the callback of a readable event finds it. -/
def World.atOnRecv (w : World α) (burst : Burst α) : World α :=
  (final (readLoop burst.blocks burst.last (w.log (.entered .readable)))).invoke

/-- `handleReadableEvent` up to its callback; a result says that it has returned before. -/
def untilOnRecv (burst : Burst α) : Exec α (Option Int) := do
  log (.entered .readable)
  requireNotMoved
  let ret ← stateCleanup
  if ret < 0 then
    log (.returned .readable ret)
    pure (some ret)
  else
    let _ ← getFd
    readLoop burst.blocks burst.last
    let ret ← stateCleanup
    if ret < 0 then
      log (.returned .readable ret)
      pure (some ret)
    else if (← this).onRecv then
      modify fun w => w.invoke
      pure none
    else
      let ret ← stateCleanup
      log (.returned .readable ret)
      pure (some ret)

omit [Zero α] in
/-- `handleReadableEvent` from the end of its callback on. -/
def afterOnRecv : Exec α Int := do
  let ret ← stateCleanup
  log (.returned .readable ret)
  pure ret

omit [Zero α] in
/-- The connection as the last cleanup of `handleWritableEvent` finds it. -/
def World.afterFlush (w : World α) : World α := final (flushWriteBuffer (w.log (.entered .writable)))

theorem handleReadableEvent_split (burst : Burst α) (callback : Exec α Unit) :
    handleReadableEvent burst callback = (do
      match ← untilOnRecv burst with
      | some ret => pure ret
      | none =>
        callback
        afterOnRecv : Exec α Int) := by
  unfold handleReadableEvent recorded handleReadableBody untilOnRecv runOnRecv afterOnRecv
  simp only [bind_assoc]
  refine bind_congr fun _ => bind_congr fun _ => bind_congr fun ret => ?_
  split
  · simp only [pure_bind, bind_assoc]
  · simp only [bind_assoc]
    refine bind_congr fun _ => bind_congr fun _ => bind_congr fun ret => ?_
    split
    · simp only [pure_bind, bind_assoc]
    · simp only [bind_assoc]
      refine bind_congr fun c => ?_
      split
      · simp only [pure_bind, bind_assoc]
      · simp only [pure_bind, bind_assoc]

/-- A step of one thread on a connection. `onRecv` takes a readable event up to its callback,
whose calls may come next. -/
inductive ContextOp (α : Type) where
  | call (c : PublicCall α)
  | loopEntry (mask : Mask) (burst : Burst α) (callback : List (Call α))
  | onRecv (burst : Burst α)

inductive ContextStep : World α → ContextOp α → World α → Prop where
  | call {w w' : World α} {c : PublicCall α} : c.exec w = .ok ⟨⟩ w' → ContextStep w (.call c) w'
  | loopEntry {w w' : World α} {mask : Mask} {burst : Burst α} {cs : List (Call α)} :
      Netier.loopEntry mask burst (runCalls cs) w = .ok ⟨⟩ w' →
        ContextStep w (.loopEntry mask burst cs) w'
  | onRecv {w : World α} {burst : Burst α} : Reaches w burst → 0 < w.context.socket.fd →
      ContextStep w (.onRecv burst) (w.atOnRecv burst)

theorem Reaches.loop (h : Reaches w burst) : ∃ w₁, w.atOnRecv burst = w₁.invoke ∧ Open w₁ ∧
    w₁.context.onRecv = true ∧
    readLoop burst.blocks burst.last (w.log (.entered .readable)) = .ok ⟨⟩ w₁ ∧
    Received (w.log (.entered .readable)) w₁ burst.bytes .valid := by
  have ho : Open (w.log (.entered .readable)) := ⟨h.open.live, h.open.valid⟩
  obtain ⟨w₁, hloop, hrec⟩ := readLoop_run burst.blocks burst.last ho
  rw [h.last] at hrec
  refine ⟨w₁, by rw [World.atOnRecv, hloop, final_ok], hrec.open ho, ?_, hloop, hrec⟩
  rw [hrec.context]
  exact h.onRecv

theorem untilOnRecv_reaches (h : Reaches w burst) (hfd : 0 < w.context.socket.fd) :
    untilOnRecv burst w = .ok none (w.atOnRecv burst) := by
  obtain ⟨w₁, hat, ho₁, hcb, hloop, _⟩ := h.loop
  have ho : Open (w.log (.entered .readable)) := ⟨h.open.live, h.open.valid⟩
  rw [untilOnRecv, bind_of_ok (log_run _ _), bind_of_ok (requireNotMoved_run ho.live ho.valid (by decide)),
    bind_of_ok (stateCleanup_valid ho), if_neg (by decide), bind_of_ok (getFd_run ho.live hfd),
    bind_of_ok hloop, bind_of_ok (stateCleanup_valid ho₁), if_neg (by decide),
    bind_of_ok (this_run ho₁.live), if_pos hcb, hat]
  rfl

/-- An event that does not get as far as the callback returns 0 only where the connection was
open and the reading ended in `EAGAIN`. -/
theorem untilOnRecv_unreached {r : Nat} (h : Attached w r) (hn : ¬ Reaches w burst) :
    ∃ ret w', untilOnRecv burst w = .ok (some ret) w' ∧
      (0 ≤ ret ↔ Open w ∧ burst.last.state = .valid) := by
  have hlog := h.log (.entered .readable)
  obtain ⟨s, hs, hm⟩ := hlog.state
  have hstart : untilOnRecv burst w = _ :=
    (bind_of_ok (log_run w _)).trans (bind_of_ok (requireNotMoved_run hlog.live hs hm))
  by_cases hv : w.context.state = some .valid
  · have ho : Open (w.log (.entered .readable)) := ⟨h.live, hv⟩
    obtain ⟨w₁, hloop, hrec⟩ := readLoop_run burst.blocks burst.last ho
    have h₁ := (readLoop_works ho hloop).attached hlog
    have hstate : w₁.context.state = some burst.last.state := by rw [hrec.context]
    rw [hstart, bind_of_ok (stateCleanup_valid ho), if_neg (by decide),
      bind_of_ok (getFd_run ho.live h.positive), bind_of_ok hloop]
    by_cases hlast : burst.last.state = .valid
    · have ho₁ : Open w₁ := ⟨h₁.live, by rw [hstate, hlast]⟩
      have hcb : ¬ w₁.context.onRecv = true := fun hcb =>
        hn ⟨⟨h.live, hv⟩, by rw [hrec.context] at hcb; exact hcb, hlast⟩
      rw [bind_of_ok (stateCleanup_valid ho₁), if_neg (by decide), bind_of_ok (this_run ho₁.live),
        if_neg hcb, bind_of_ok (stateCleanup_valid ho₁)]
      exact ⟨0, _, rfl, fun _ => ⟨⟨h.live, hv⟩, hlast⟩, fun _ => le_refl 0⟩
    · have hv₁ : w₁.context.state ≠ some .valid := by simpa [hstate] using hlast
      rw [bind_of_ok (stateCleanup_run h₁ hv₁), if_pos (by decide)]
      exact ⟨-1, _, rfl, fun hneg => absurd hneg (by decide), fun hboth => absurd hboth.2 hlast⟩
  · rw [hstart, bind_of_ok (stateCleanup_run hlog hv), if_pos (by decide)]
    exact ⟨-1, _, rfl, fun hneg => absurd hneg (by decide), fun hboth => absurd hboth.1.valid hv⟩

/-- The handler from the callback on. -/
theorem handleReadableEvent_reaches (h : Reaches w burst) (hfd : 0 < w.context.socket.fd) :
    handleReadableEvent burst callback w = (do
      callback
      let ret ← stateCleanup
      log (.returned .readable ret)
      pure ret : Exec α Int) (w.atOnRecv burst) := by
  rw [handleReadableEvent_split, bind_of_ok (untilOnRecv_reaches h hfd)]
  rfl

/-- An event that does not get that far ends the same way whatever the callback. -/
theorem handleReadableEvent_unreached {r : Nat} (h : Attached w r) (hn : ¬ Reaches w burst) :
    ∃ ret w', ∀ callback, handleReadableEvent burst callback w = .ok ret w' := by
  obtain ⟨ret, w', hrun, _⟩ := untilOnRecv_unreached h hn
  refine ⟨ret, w', fun callback => ?_⟩
  rw [handleReadableEvent_split, bind_of_ok hrun]
  rfl

/-- The connection has been torn down exactly if `P`, and otherwise it has only worked. -/
def TornIf (P : Prop) (w w' : World α) : Prop := Works w w' ∧ ¬ P ∨ Gone w w' ∧ P

section TornIf
variable {r : Nat} {ret : Int}

omit [Zero α] in
theorem Works.log {e : Event α} (he : e.isDestroyer = false) : Works w (w.log e) :=
  ⟨⟨rfl, rfl, rfl, rfl, rfl, rfl, by simp [he]⟩, .inl rfl⟩

omit [Zero α] in
theorem Verdict.tornIf {P : Prop} (h : Verdict r w ret w') (hP : 0 ≤ ret ↔ ¬ P) : TornIf P w w' := by
  cases h with
  | stays hw _ => exact .inl ⟨hw, hP.1 (le_refl 0)⟩
  | goes hg _ => exact .inr ⟨hg, not_not.1 fun hn => absurd (hP.2 hn) (by decide)⟩

theorem untilOnRecv_none (h : Attached w r) (hok : untilOnRecv burst w = .ok none w') :
    Reaches w burst ∧ Works w w' := by
  by_cases hr : Reaches w burst
  · obtain ⟨w₁, hat, _, _, hloop, _⟩ := hr.loop
    have ho : Open (w.log (.entered .readable)) := ⟨hr.open.live, hr.open.valid⟩
    have hworks : Works w w₁.invoke :=
      ((Works.log rfl).trans (readLoop_works ho hloop)).trans (Works.log rfl)
    rw [untilOnRecv_reaches hr h.positive, hat] at hok
    cases hok
    exact ⟨hr, hworks⟩
  · obtain ⟨_, _, hrun, _⟩ := untilOnRecv_unreached h hr
    rw [hrun] at hok
    cases hok

theorem untilOnRecv_some (h : Attached w r) (hok : untilOnRecv burst w = .ok (some ret) w') :
    TornIf (¬ (Open w ∧ burst.last.state = .valid)) w w' := by
  have hr : ¬ Reaches w burst := fun hr => by
    rw [untilOnRecv_reaches hr h.positive] at hok
    cases hok
  obtain ⟨ret', w₁, hrun, hret⟩ := untilOnRecv_unreached h hr
  rw [hrun] at hok
  cases hok
  have hevent : handleReadableEvent burst (pure ⟨⟩) w = .ok ret w' := by
    rw [handleReadableEvent_split, bind_of_ok hrun]
    rfl
  have hverdict := handleReadableEvent_ensures (F := Never) (runCalls_body []) h burst
    fun hr' => absurd hr' hr
  exact (hverdict.ok hevent).1.tornIf (by rw [not_not, hret])

omit [Zero α] in
theorem afterOnRecv_ends (h : Attached w r) (hok : afterOnRecv w = .ok ret w') :
    TornIf (¬ Open w) w w' := by
  obtain ⟨ret', w₁, hclean, hlog⟩ := bind_inv hok
  cases hlog
  by_cases ho : Open w
  · rw [stateCleanup_valid ho] at hclean
    cases hclean
    exact .inl ⟨Works.log rfl, not_not.2 ho⟩
  · have hv : w.context.state ≠ some .valid := fun hv => ho ⟨h.live, hv⟩
    rw [stateCleanup_run h hv] at hclean
    cases hclean
    have hg := torn_gone h
    exact .inr ⟨⟨hg.socket, hg.freed, hg.inserted, hg.fds, hg.interest, hg.others⟩, ho⟩

omit [Zero α] in
theorem handleWritableEvent_ends (h : Attached w r) (hok : handleWritableEvent w = .ok ret w') :
    TornIf (¬ Open w.afterFlush) w w' := by
  have hlog := h.log (.entered .writable)
  obtain ⟨s, hs, hm⟩ := hlog.state
  have hmoved := requireNotMoved_run hlog.live hs hm
  have hverdict := handleWritableEvent_ensures (F := Never) h
  refine (hverdict.ok hok).1.tornIf ?_
  obtain ⟨w₁, hbody, rfl⟩ := recorded_inv hok
  rw [not_not, World.afterFlush]
  by_cases ho : Open (w.log (.entered .writable))
  · obtain ⟨w₂, hflush, _⟩ := flushWriteBuffer_run ho hlog.positive
    have hw : Works (w.log (.entered .writable)) (final (flushWriteBuffer (w.log (.entered .writable)))) :=
      .of_quiet (effect_mono (fun _ => Act.IsSend.quiet) flushWriteBuffer_effect)
    rw [hflush, final_ok] at hw ⊢
    rw [handleWritableBody, bind_of_ok hmoved, bind_of_ok (stateCleanup_valid ho), if_neg (by decide),
      bind_of_ok hflush] at hbody
    by_cases ho₂ : Open w₂
    · rw [stateCleanup_valid ho₂] at hbody
      cases hbody
      exact iff_of_true (le_refl 0) ho₂
    · have hatt := hw.attached hlog
      rw [stateCleanup_run hatt fun hv => ho₂ ⟨hatt.live, hv⟩] at hbody
      cases hbody
      exact iff_of_false (by decide) ho₂
  · rw [handleWritableBody, bind_of_ok hmoved,
      bind_of_ok (stateCleanup_run hlog fun hv => ho ⟨hlog.live, hv⟩), if_pos (by decide)] at hbody
    cases hbody
    rw [flushWriteBuffer, guarded_final ho]
    exact iff_of_false (by decide) ho

theorem Call.exec_ends (c : Call α) (h : Attached w r) (hok : c.exec w = .ok ⟨⟩ w') :
    TornIf (c = .destroy) w w' := by
  by_cases hc : c = .destroy
  · subst hc
    rw [Call.exec, destroy_run h] at hok
    cases hok
    exact .inr ⟨torn_gone h, rfl⟩
  · have hcalm : c.Calm := by
      cases c with
      | destroy => exact absurd rfl hc
      | _ => exact trivial
    exact .inl ⟨(c.calm_ensures hcalm h.toHealthy).ok hok, hc⟩

end TornIf

/-- What takes the invariant `I` through a readable event, where `J` holds besides from the
read loop on that ended in `EAGAIN`. -/
structure ReadableRules (I J : World α → Prop) (burst : Burst α) (callback : Exec α Unit) : Prop where
  entered : ∀ w, I w → I (w.log (.entered .readable))
  read : ∀ w w', Open w → I w → readLoop burst.blocks burst.last w = .ok ⟨⟩ w' →
    I w' ∧ (burst.last.state = .valid → J w')
  invoke : ∀ w, J w → J w.invoke
  callback : Keeps J callback
  teardown : ∀ w w', I w → Steps Act.IsTeardown w w' → I w'
  teardownJ : ∀ w w', J w → Steps Act.IsTeardown w w' → J w'
  returned : ∀ w ret, J w → I (w.log (.returned .readable ret))
  gaveUp : ∀ w ret, I w → ret < 0 → I (w.log (.returned .readable ret))

namespace ReadableRules

omit [Zero α] in
theorem cleanup_keeps (h : ∀ w w', I w → Steps Act.IsTeardown w w' → I w') :
    Keeps I (stateCleanup (α := α)) :=
  Effect.returns (fun _ => stateCleanup_effect) h

theorem atOnRecv (R : ReadableRules I J burst callback) (h : Reaches w burst) (hw : I w) :
    J (w.atOnRecv burst) := by
  obtain ⟨w₁, hat, _, _, hloop, _⟩ := h.loop
  rw [hat]
  have ho : Open (w.log (.entered .readable)) := ⟨h.open.live, h.open.valid⟩
  exact R.invoke _ ((R.read _ _ ho (R.entered w hw) hloop).2 h.last)

theorem body (R : ReadableRules I J burst callback) {ret : Int} (hw : I w)
    (hok : handleReadableBody burst callback w = .ok ret w') : J w' ∨ I w' ∧ ret < 0 := by
  obtain ⟨_, w₁, hmoved, hok₁⟩ := bind_inv hok
  have hm := requireNotMoved_state hmoved
  obtain rfl := requireNotMoved_inv hmoved
  obtain ⟨first, w₂, hclean, hok₂⟩ := bind_inv hok₁
  have hw₂ : I w₂ := cleanup_keeps R.teardown _ _ _ hw hclean
  by_cases hfirst : first < 0
  · rw [if_pos hfirst] at hok₂
    cases hok₂
    exact .inr ⟨hw₂, hfirst⟩
  rw [if_neg hfirst] at hok₂
  obtain ⟨ho, rfl⟩ := stateCleanup_open hm hclean hfirst
  obtain ⟨_, w₃, hfd, hok₃⟩ := bind_inv hok₂
  obtain rfl := getFd_inv hfd
  obtain ⟨w₄, hloop, hrec⟩ := readLoop_run burst.blocks burst.last ho
  rw [bind_of_ok hloop] at hok₃
  obtain ⟨hw₄, hJ⟩ := R.read _ _ ho hw hloop
  have hstate : w₄.context.state = some burst.last.state := by rw [hrec.context]
  have hm₄ : w₄.context.state ≠ some .moved := by
    rw [hstate]
    simpa using burst.last.state_ne_moved
  obtain ⟨second, w₅, hclean', hok₄⟩ := bind_inv hok₃
  have hw₅ : I w₅ := cleanup_keeps R.teardown _ _ _ hw₄ hclean'
  by_cases hsecond : second < 0
  · rw [if_pos hsecond] at hok₄
    cases hok₄
    exact .inr ⟨hw₅, hsecond⟩
  rw [if_neg hsecond] at hok₄
  obtain ⟨ho₄, rfl⟩ := stateCleanup_open hm₄ hclean' hsecond
  rw [ho₄.valid] at hstate
  have hJ₄ := hJ (Option.some.inj hstate).symm
  obtain ⟨_, w₆, hcb, hok₅⟩ := bind_inv hok₄
  have hJ₆ : J w₆ := by
    rw [runOnRecv, bind_of_ok (this_run ho₄.live)] at hcb
    split at hcb
    · rw [bind_of_ok (modify_run _ _)] at hcb
      exact R.callback _ _ _ (R.invoke _ hJ₄) hcb
    · cases hcb
      exact hJ₄
  exact .inl (cleanup_keeps R.teardownJ _ _ _ hJ₆ hok₅)

theorem handleReadableEvent_keeps (R : ReadableRules I J burst callback) :
    Keeps I (handleReadableEvent burst callback) := by
  intro w ret w' hw hok
  obtain ⟨w₁, hbody, rfl⟩ := recorded_inv hok
  rcases R.body (R.entered w hw) hbody with hJ | ⟨hI, hret⟩
  · exact R.returned _ _ hJ
  · exact R.gaveUp _ _ hI hret

end ReadableRules

section General
variable {mask : Mask}

omit [Zero α] in
theorem isReadable_keeps : Keeps I (isReadable (α := α)) := by
  intro w b w' hw hok
  obtain ⟨c, w₁, hthis, hok⟩ := bind_inv hok
  obtain ⟨_, _, rfl⟩ := this_inv hthis
  cases hok
  exact hw

omit [Zero α] in
theorem assert_keeps {c : Bool} : Keeps I (assert c : Exec α Unit) := by
  refine Keeps.of_final fun w => ?_
  cases c <;> rfl

omit [Zero α] in
theorem isWritable_keeps : Keeps I (isWritable (α := α)) :=
  (Keeps.of_final this_final).bind fun _ => assert_keeps.bind fun _ => .pure _

theorem dispatch_keeps (hread : Keeps I (handleReadableEvent burst callback))
    (hwrite : Keeps I (handleWritableEvent (α := α))) (cb : Option Callback) :
    Keeps I (dispatch cb burst callback) := by
  cases cb with
  | none => exact .pure _
  | some cb =>
    cases cb with
    | handleReadableEvent => exact hread
    | handleWritableEvent => exact hwrite

theorem handleWritePart_keeps (hread : Keeps I (handleReadableEvent burst callback))
    (hwrite : Keeps I (handleWritableEvent (α := α))) : Keeps I (handleWritePart burst callback) := by
  refine isWritable_keeps.bind fun writable => .ite (fun _ => ?_) fun _ => .pure _
  refine Keeps.bind ?_ fun _ => .pure _
  exact (Keeps.of_final this_final).bind fun _ => assert_keeps.bind fun _ =>
    dispatch_keeps hread hwrite _

/-- What both handlers keep, every event of the loop keeps. -/
theorem handleGeneral_keeps (hread : Keeps I (handleReadableEvent burst callback))
    (hwrite : Keeps I (handleWritableEvent (α := α))) : Keeps I (handleGeneral burst callback) := by
  have hpart := handleWritePart_keeps hread hwrite
  refine isReadable_keeps.bind fun readable => .ite (fun _ => ?_) fun _ => hpart
  refine Keeps.bind ?_ fun ret => .ite (fun _ => .pure _) fun _ => hpart
  exact (Keeps.of_final this_final).bind fun _ => assert_keeps.bind fun _ =>
    dispatch_keeps hread hwrite _

end General

/-- What every step of a run keeps; `J` holds besides while the callback runs. -/
structure RunRules (I J : World α → Prop) : Prop where
  weaken : ∀ w, J w → I w
  call : ∀ c : Call α, Keeps I c.exec
  readable : ∀ burst cs, ReadableRules I J burst (runCalls cs)
  writable : Keeps I (handleWritableEvent (α := α))
  poll : ∀ mask, Keeps I (onIoContext (α := α) (IoContext.setRevents mask))

theorem RunRules.step {o : ContextOp α} (R : RunRules I J) (hw : I w) (h : ContextStep w o w') : I w' := by
  have hread (burst : Burst α) (cs : List (Call α)) :=
    (R.readable burst cs).handleReadableEvent_keeps
  cases h with
  | call hok =>
    rename_i c
    cases c with
    | call c => exact R.call c _ _ _ hw hok
    | handleReadableEvent burst cs => exact (hread burst cs).bind (fun _ => .pure _) _ _ _ hw hok
    | handleWritableEvent => exact R.writable.bind (fun _ => .pure _) _ _ _ hw hok
  | loopEntry hok =>
    rename_i mask burst cs
    exact (R.poll mask).bind (fun _ => handleGeneral_keeps (hread burst cs) R.writable) _ _ _ hw hok
  | onRecv hreach hfd =>
    rename_i burst
    exact R.weaken _ ((R.readable burst []).atOnRecv hreach hw)

theorem RunRules.run {os : List (ContextOp α)} (R : RunRules I J) (h : Run ContextStep w os w')
    (hw : I w) : I w' :=
  h.invariant hw fun _ _ _ => R.step

section Parts

omit [Zero α] in
theorem assign_keeps (h : ∀ w c, I w → I (w.assign c)) (f : Context α → Context α) :
    Keeps I (assign f) :=
  (Keeps.of_final this_final).bind fun c => by
    rintro w _ _ hw ⟨⟩
    exact h w _ hw

omit [Zero α] in
theorem onBuffer_keeps (h : ∀ w c, I w → I (w.assign c)) (f : Buffer α → Option (Buffer α)) :
    Keeps I (onBuffer f) := by
  refine (Keeps.of_final this_final).bind fun c => ?_
  split
  · exact assign_keeps h _
  · exact Keeps.throw _

omit [Zero α] in
/-- What becomes of the result of `read(2)` is at most an assignment to `__buffer` and one
to `__state`. -/
theorem readOutcome_keeps (h : ∀ w c, I w → I (w.assign c)) (n : Int) :
    Keeps I (readOutcome (α := α) n) := by
  have shrinkThen (k : Nat) (s : State) : Keeps I (do
      onBuffer (α := α) fun b => b.shrink k
      setState s
      pure false) :=
    (onBuffer_keeps h _).bind fun _ => (assign_keeps h _).bind fun _ => .pure _
  refine .ite (fun _ => .ite (fun _ => ?_) fun _ => .pure _) fun _ => ?_
  · exact (onBuffer_keeps h _).bind fun _ => .pure _
  · refine Keeps.bind (.of_final fun _ => rfl) fun e => .ite (fun _ => ?_) fun _ => ?_
    · exact (onBuffer_keeps h _).bind fun _ => .pure _
    · exact .ite (fun _ => shrinkThen _ _) fun _ => shrinkThen _ _

omit [Zero α] in
/-- What stands at the head of an output call keeps whatever the rest keeps on an open object. -/
theorem guarded_keeps {β : Type} {b : β} {x : Exec α β}
    (hx : ∀ w b' w', Open w → I w → x w = .ok b' w' → I w') :
    Keeps I (do
      requireNotMoved
      if (← readState) ≠ .valid then pure b
      else x) := by
  intro w b' w' hw hok
  by_cases ho : Open w
  · rw [guarded_open ho] at hok
    exact hx w b' w' ho hw hok
  · have hsame : final _ = w := guarded_final ho (b := b) (x := x)
    rw [hok] at hsame
    cases hsame
    exact hw

end Parts

theorem runCalls_keeps (h : ∀ c : Call α, Keeps I c.exec) (cs : List (Call α)) :
    Keeps I (runCalls cs) := by
  induction cs with
  | nil => exact .pure _
  | cons c cs ih => exact (h c).bind fun _ => ih

end Netier
