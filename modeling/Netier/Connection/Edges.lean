import Netier.Connection.Operations
import Netier.Connection.Passes

/-! Edge-triggered events: nothing is left to read when the callback runs, and `__wbuffer`
holds bytes only where the kernel owes a further event. -/
namespace Netier
open Lib
variable {α : Type} {w w' : World α}

section Drained
variable {log older : List (Moment α)}

def Event.answered : Event α → Option (ReadAnswer α)
  | .read answer => some answer
  | _ => none

/-- What the last `read(2)` on record answered. -/
def lastRead (log : List (Moment α)) : Option (ReadAnswer α) := log.findSome? fun m => m.event.answered

def Drained (log : List (Moment α)) : Prop := ∃ e, lastRead log = some (.failed e) ∧ e.again = true

/-- The callback's invocation, and the return of 0 from `handleReadableEvent`. -/
def Event.AfterDrain : Event α → Prop
  | .onRecv _ => True
  | .returned .readable ret => ret = 0
  | _ => False

/-- Before every such moment the last `read(2)` had answered to try again. -/
def DrainedFirst : List (Moment α) → Prop
  | [] => True
  | m :: older => (m.event.AfterDrain → Drained older) ∧ DrainedFirst older

theorem DrainedFirst.split {newer : List (Moment α)} {m : Moment α}
    (h : DrainedFirst (newer ++ m :: older)) (hm : m.event.AfterDrain) : Drained older := by
  induction newer with
  | nil => exact h.1 hm
  | cons m' newer ih => exact ih h.2

theorem DrainedFirst.append (h : DrainedFirst older) (hlog : ∀ m ∈ log, ¬ m.event.AfterDrain) :
    DrainedFirst (log ++ older) := by
  induction log with
  | nil => exact h
  | cons m log ih =>
    refine ⟨fun hm => absurd hm (hlog m List.mem_cons_self), ih fun m' hm' => ?_⟩
    exact hlog m' (List.mem_cons_of_mem _ hm')

theorem Drained.append (h : Drained older) (hlog : ∀ m ∈ log, m.event.answered = none) :
    Drained (log ++ older) := by
  obtain ⟨e, hlast, he⟩ := h
  refine ⟨e, ?_, he⟩
  have hnone : log.findSome? (fun m => m.event.answered) = none := List.findSome?_eq_none_iff.2 hlog
  rw [lastRead, List.findSome?_append, hnone]
  exact hlast

/-- Every invocation of the callback so far, and every return of 0, found nothing to read. -/
def Heeded (w : World α) : Prop := DrainedFirst w.history

/-- And neither would one that comes now. -/
def Emptied (w : World α) : Prop := Heeded w ∧ Drained w.history

/-- An event that is neither. -/
def Event.IsAside (e : Event α) : Prop := ¬ e.AfterDrain ∧ e.answered = none

theorem Grew.heeded {P : Event α → Prop} (hg : Grew P w w') (hP : ∀ e, P e → ¬ e.AfterDrain)
    (h : Heeded w) : Heeded w' := by
  obtain ⟨log, hlog, hall⟩ := hg
  rw [Heeded, hlog]
  exact h.append fun m hm => hP _ (hall m hm)

theorem Grew.emptied (hg : Grew Event.IsAside w w') (h : Emptied w) : Emptied w' := by
  refine ⟨hg.heeded (fun _ => And.left) h.1, ?_⟩
  obtain ⟨log, hlog, hall⟩ := hg
  rw [hlog]
  exact h.2.append fun m hm => (hall m hm).2

theorem call_event_aside {a : Act α} {e : Event α} (ha : a.IsCall) (he : a.event w = some e) :
    e.IsAside := by
  rcases ha with hq | ht | ⟨_, rfl⟩
  · cases a with
    | wbuffer | state | take | write => cases he; exact ⟨id, rfl⟩
    | fopen => cases he
    | _ => exact hq.elim
  · cases a with
    | destroyer | deregister => cases he; exact ⟨id, rfl⟩
    | release => cases he
    | _ => exact ht.elim
  · cases he
    exact ⟨id, rfl⟩

theorem Steps.aside (hs : Steps Act.IsCall w w') : Grew Event.IsAside w w' :=
  hs.grew fun _ _ _ => call_event_aside

theorem assign_last {answer : ReadAnswer α} (w : World α) (c : Context α)
    (h : lastRead w.history = some answer) : lastRead (w.assign c).history = some answer := h

variable [Zero α]

/-- A pass of the read loop puts its answer on record, and no other. -/
theorem readPass_lastRead {answer : ReadAnswer α} {goOn : Bool} (h : w.freed = false)
    (hok : readPass answer w = .ok goOn w') : lastRead w'.history = some answer := by
  rw [readPass_run answer h] at hok
  have hfetched : lastRead (w.fetched answer).history = some answer := by
    cases answer <;> rfl
  exact readOutcome_keeps (I := fun v => lastRead v.history = some answer) assign_last _ _ _ _ hfetched hok

theorem readLoop_lastRead (blocks : List (Block α)) {last : ReadEnd} {u : Unit} (h : Open w)
    (hok : readLoop blocks last w = .ok u w') : lastRead w'.history = some last.answer := by
  induction blocks generalizing w with
  | nil =>
    obtain ⟨goOn, w₁, hpass, hok⟩ := bind_inv hok
    cases hok
    exact readPass_lastRead h.live hpass
  | cons b bs ih =>
    obtain ⟨w₁, hpass, hrec⟩ := readPass_block b h
    rw [readLoop, bind_of_ok hpass] at hok
    exact ih (hrec.open h) hok

omit [Zero α] in
theorem again_of_valid {last : ReadEnd} (h : last.state = .valid) :
    ∃ e, last.answer = (.failed e : ReadAnswer α) ∧ e.again = true := by
  cases last with
  | eof => cases h
  | failed e =>
    refine ⟨e, rfl, ?_⟩
    by_contra he
    simp [ReadEnd.state, he] at h

omit [Zero α] in
theorem emptied_of_effect {β : Type} {x : Exec α β} (hx : ∀ w, Effect (Steps Act.IsCall) x w) :
    Keeps Emptied x :=
  Effect.returns hx fun _ _ hw hs => hs.aside.emptied hw

omit [Zero α] in
theorem heeded_of_effect {β : Type} {x : Exec α β} (hx : ∀ w, Effect (Steps Act.IsCall) x w) :
    Keeps Heeded x :=
  Effect.returns hx fun _ _ hw hs => hs.aside.heeded (fun _ => And.left) hw

theorem heeded_rules : RunRules (α := α) Heeded Emptied where
  weaken := fun _ => And.left
  call := fun c => heeded_of_effect fun _ => c.exec_effect
  readable := fun burst cs =>
    { entered := fun _ hw => ⟨fun hm => hm.elim, hw⟩
      read := fun w w' ho hw hloop => by
        have hgrew := grew_of_effect (fun _ _ _ => input_event) (readLoop_effect burst.blocks burst.last ho)
        rw [hloop] at hgrew
        have hw' : Heeded w' := hgrew.heeded (fun e he => by cases e <;> simp_all [Event.IsWork, Event.AfterDrain]) hw
        refine ⟨hw', fun hlast => ⟨hw', ?_⟩⟩
        obtain ⟨e, hanswer, he⟩ := again_of_valid (α := α) hlast
        exact ⟨e, hanswer ▸ readLoop_lastRead burst.blocks ho hloop, he⟩
      invoke := fun _ hw => ⟨⟨fun _ => hw.2, hw.1⟩, hw.2⟩
      callback := emptied_of_effect fun _ => runCalls_effect cs
      teardown := fun _ _ hw hs => (hs.mono fun _ => Act.IsTeardown.call).aside.heeded (fun _ => And.left) hw
      teardownJ := fun _ _ hw hs => (hs.mono fun _ => Act.IsTeardown.call).aside.emptied hw
      returned := fun _ _ hw => ⟨fun _ => hw.2, hw.1⟩
      gaveUp := fun _ ret hw hret => ⟨fun hzero => absurd (show ret = 0 from hzero) (by omega), hw⟩ }
  writable := by
    refine Keeps.bind ?_ fun _ => Keeps.bind (heeded_of_effect fun _ => handleWritableBody_effect)
      fun ret => Keeps.bind ?_ fun _ => .pure _
    · rintro w _ _ hw ⟨⟩
      exact ⟨fun hm => hm.elim, hw⟩
    · rintro w _ _ hw ⟨⟩
      exact ⟨fun hm => hm.elim, hw⟩
  poll := fun mask => by
    rintro w _ w' hw hok
    obtain ⟨r, _, rfl⟩ := onIoContext_inv hok
    exact ⟨fun hm => hm.elim, hw⟩

end Drained

section Owed

def Event.startsFlush : Event α → Bool
  | .entered .writable => true
  | _ => false

/-- The record since the last time `handleWritableEvent` began. -/
def World.sinceWritable (w : World α) : List (Moment α) :=
  w.history.takeWhile fun m => !m.event.startsFlush

/-- `write(2)` answered to try again. -/
def Event.WriteAgain : Event α → Prop
  | .write _ (.failed e) => e.again = true
  | _ => False

/-- The kernel will report the descriptor writable once more. -/
def EdgeOwed (w : World α) : Prop := ∃ m ∈ w.sinceWritable, m.event.WriteAgain

/-- On a connection that can send, bytes in `__wbuffer` wait for an edge that is owed. -/
structure Owing (w : World α) : Prop where
  fits : w.Fits
  owed : Open w → w.context.wbuffer.bytes ≠ [] → EdgeOwed w

theorem EdgeOwed.grew (hg : Grew (fun e => e.startsFlush = false) w w') (h : EdgeOwed w) :
    EdgeOwed w' := by
  obtain ⟨log, hlog, hall⟩ := hg
  obtain ⟨m, hm, hagain⟩ := h
  refine ⟨m, ?_, hagain⟩
  rw [World.sinceWritable, hlog, List.takeWhile_append_of_pos fun m' hm' => by simp [hall m' hm']]
  exact List.mem_append_right _ hm

theorem Blocked.edgeOwed (h : Blocked w) : EdgeOwed w := by
  obtain ⟨n, e, c, rest, hh, he⟩ := h
  refine ⟨⟨.write n (.failed e), c⟩, ?_, he⟩
  rw [World.sinceWritable, hh, List.takeWhile_cons_of_pos rfl]
  exact List.mem_cons_self

/-- What leaves `__wbuffer` alone leaves what is owed. -/
theorem Owing.same (h : Owing w) (hfits : w'.wire.answers = w.wire.answers ∨ w'.Fits)
    (ho : Open w' → Open w) (hwbuffer : w'.context.wbuffer = w.context.wbuffer)
    (hg : Grew (fun e => e.startsFlush = false) w w') : Owing w' where
  fits := by
    rcases hfits with hsame | hf
    · unfold World.Fits
      rw [hsame]
      exact h.fits
    · exact hf
  owed := fun hopen hne => (h.owed (ho hopen) (hwbuffer ▸ hne)).grew hg

theorem Owing.assign {c : Context α} (h : Owing w) (hs : c.state = some .valid → w.context.state = some .valid)
    (hwbuffer : c.wbuffer = w.context.wbuffer) : Owing (w.assign c) :=
  h.same (.inl rfl) (fun ho => ⟨ho.live, hs ho.valid⟩) hwbuffer ⟨[⟨.assign, c⟩], rfl, by simp [Event.startsFlush]⟩

theorem Owing.log {e : Event α} (h : Owing w) (he : e.startsFlush = false) : Owing (w.log e) :=
  h.same (.inl rfl) (fun ho => ⟨ho.live, ho.valid⟩) rfl (Grew.log he)

/-- An action that neither changes `__wbuffer` nor starts to flush it for an event. -/
def Act.IsAside : Act α → Prop
  | .wbuffer _ => False
  | .entered h => h = .readable
  | _ => True

theorem aside_event {a : Act α} {e : Event α} (ha : a.IsAside) (he : a.event w = some e) :
    e.startsFlush = false := by
  cases a with
  | wbuffer => exact ha.elim
  | entered h =>
    cases he
    cases h with
    | readable => rfl
    | writable => cases ha
  | fopen | release => cases he
  | _ =>
    cases he
    rfl

theorem Steps.owing (hs : Steps Act.IsAside w w') (h : Owing w) : Owing w' := by
  have hgrew := hs.grew fun _ _ _ => aside_event
  refine h.same (.inr (hs.fits h.fits)) hs.open_before ?_ hgrew
  obtain ⟨a, ha, _, rfl⟩ := hs
  cases a with
  | wbuffer => exact ha.elim
  | write buf => simp [World.next]
  | read writer answer => cases answer <;> rfl
  | _ => rfl

theorem owing_of_effect {β : Type} {x : Exec α β} (hx : ∀ w, Effect (Steps Act.IsAside) x w) :
    Keeps Owing x :=
  Effect.returns hx fun _ _ hw hs => hs.owing hw

theorem Act.IsTeardown.aside {a : Act α} (h : a.IsTeardown) : a.IsAside := by
  cases a <;> simp_all [Act.IsTeardown, Act.IsAside]

theorem Act.IsInput.aside {a : Act α} (h : a.IsInput) : a.IsAside := by
  cases a <;> simp_all [Act.IsInput, Act.IsAside]

section Output

/-- A flush that leaves the connection VALID has emptied `__wbuffer`, or was told to try again. -/
theorem Flushed.owing {p : Passes} (h : Flushed w w' p) (hf : w'.Fits)
    (hdone : p.stop = .done → p.sent = w.context.wbuffer.size) : Owing w' := by
  refine ⟨hf, fun ho hne => ?_⟩
  have hstate := ho.valid
  rw [h.state, Option.some.injEq] at hstate
  cases hstop : p.stop with
  | done =>
    refine absurd ?_ hne
    rw [h.wbuffer, hdone hstop]
    exact List.drop_length
  | again => exact (h.blocked hstop).edgeOwed
  | eof | error =>
    rw [hstop] at hstate
    cases hstate

theorem flushWriteBuffer_owes {u : Unit} (ho : Open w) (hf : w.Fits)
    (hok : flushWriteBuffer w = .ok u w') : Owing w' := by
  by_cases hfd : 0 < w.context.socket.fd
  · obtain ⟨v, hrun, hflush⟩ := flushWriteBuffer_passes ho hfd (hf.counts _)
    have hfits := hf.of_effect (flushWriteBuffer_effect (w := w))
    rw [hrun] at hok hfits
    cases hok
    exact hflush.owing hfits passes_done
  · rw [flushWriteBuffer, guarded_open ho, bind_of_error (getFd_error ho.live hfd)] at hok
    cases hok

variable [Zero α]

omit [Zero α] in
theorem flushWriteBuffer_owing : Keeps Owing (flushWriteBuffer (α := α)) := by
  refine guarded_keeps fun w u w' ho hw hok => ?_
  have hflush : flushWriteBuffer w = .ok u w' := by
    rw [flushWriteBuffer, guarded_open ho]
    exact hok
  exact flushWriteBuffer_owes ho hw.fits hflush

omit [Zero α] in
theorem asyncWrite_owing (buf : List α) : Keeps Owing (asyncWrite buf) := by
  refine guarded_keeps fun w u w' ho hw hok => ?_
  rw [bind_of_ok (onWbuffer_some ho.live fun b => b.put buf)] at hok
  exact flushWriteBuffer_owes (queued_open ho buf) hw.fits hok

theorem writeFile_owing (file : Option (FileStream α)) : Keeps Owing (writeFile file) := by
  intro w ret w' hw hok
  by_cases ho : Open w
  · cases file with
    | none =>
      rw [writeFile_missing ho] at hok
      cases hok
      exact hw
    | some f =>
      obtain ⟨w₁, hq, hrun⟩ := writeFile_open ho f
      rw [hrun] at hok
      obtain ⟨_, w₂, hflush, hok⟩ := bind_inv hok
      cases hok
      exact flushWriteBuffer_owes hq.open (hq.fits hw.fits) hflush
  · have hsame : final (writeFile file w) = w := guarded_final ho
    rw [hok] at hsame
    cases hsame
    exact hw

omit [Zero α] in
theorem sysWrite_owing (buf : List α) : Keeps Owing (sysWrite buf) := by
  rintro w _ _ hw ⟨⟩
  refine hw.same (.inr (hw.fits.sysWrite buf)) (fun ho => ?_) (by simp) ?_
  · simpa using (⟨by simpa using ho.live, by simpa using ho.valid⟩ : Open w)
  · refine ⟨[⟨.write buf.length (w.wire.answers 0), w.context⟩], ?_, by simp [Event.startsFlush]⟩
    cases ha : w.wire.answers 0 <;> simp [World.sysWrite, ha, World.log]

omit [Zero α] in
theorem setState_owing {s : State} (hs : s ≠ .valid) : Keeps Owing (setState (α := α) s) := by
  intro w _ w' hw hok
  obtain ⟨c, w₁, hthis, hok⟩ := bind_inv hok
  obtain ⟨_, rfl, rfl⟩ := this_inv hthis
  cases hok
  exact hw.assign (fun hv => absurd (Option.some.inj hv) hs) rfl

omit [Zero α] in
/-- Writing past the queue leaves the queue as it was; what the call adds to it is flushed. -/
theorem syncLoop_owing (buf : List α) (fuel : Nat) (remaining : Int) :
    Keeps Owing (syncLoop buf fuel remaining) := by
  induction fuel generalizing remaining with
  | zero => exact Keeps.throw _
  | succ fuel ih =>
    unfold syncLoop
    refine .ite (fun _ => ?_) fun _ => .pure _
    refine (sysWrite_owing _).bind fun n => .ite (fun _ => ih _) fun _ => ?_
    refine Keeps.bind (.of_final fun _ => rfl) fun e => .ite (fun _ => ?_) fun _ => ?_
    · exact .ite (fun _ => (asyncWrite_owing _).bind fun _ => .pure _) fun _ => .pure _
    · refine .ite (fun _ => ?_) fun _ => ?_
      · exact (setState_owing (by decide)).bind fun _ => .pure _
      · exact (setState_owing (by decide)).bind fun _ => .pure _

omit [Zero α] in
theorem syncWrite_owing (buf : List α) : Keeps Owing (syncWrite buf) := by
  refine guarded_keeps fun w ret w' ho hw hok => ?_
  obtain ⟨_, w₁, hfd, hok⟩ := bind_inv hok
  obtain rfl := getFd_inv hfd
  exact syncLoop_owing buf _ _ _ _ _ hw hok

omit [Zero α] in
theorem writeStringMove_owing (depth : Nat) (data : StdString α) :
    Keeps Owing (writeStringMove depth data) := by
  induction depth with
  | zero => exact Keeps.throw _
  | succ depth ih => exact guarded_keeps fun w ret w' _ hw hok => ih w ret w' hw hok

omit [Zero α] in
theorem writeVectorMove_owing (depth : Nat) (data : List α) :
    Keeps Owing (writeVectorMove depth data) := by
  induction depth with
  | zero => exact Keeps.throw _
  | succ depth ih => exact guarded_keeps fun w ret w' _ hw hok => ih w ret w' hw hok

omit [Zero α] in
theorem writeFileSized_owing (p s : Nat) : Keeps Owing (writeFileSized (α := α) p s) := by
  refine guarded_keeps fun w ret w' _ hw hok => ?_
  split at hok
  · cases hok
    exact hw
  · cases hok
    exact hw

theorem Output.exec_owing (o : Output α) : Lib.Keeps Owing o.exec := by
  cases o with
  | syncWrite buf => exact (syncWrite_owing buf).bind fun _ => .pure _
  | writeString data =>
    refine Keeps.bind ?_ fun _ => .pure _
    exact guarded_keeps fun w ret w' _ hw hok => syncWrite_owing _ w ret w' hw hok
  | writeVector data =>
    refine Keeps.bind ?_ fun _ => .pure _
    exact guarded_keeps fun w ret w' _ hw hok => syncWrite_owing _ w ret w' hw hok
  | asyncWrite buf => exact asyncWrite_owing buf
  | writeFile file => exact (writeFile_owing file).bind fun _ => .pure _
  | flushWriteBuffer => exact flushWriteBuffer_owing

theorem Call.exec_owing (c : Call α) : Lib.Keeps Owing c.exec := by
  cases c with
  | read => exact (owing_of_effect fun _ => read_effect trivial).bind fun _ => .pure _
  | readString => exact (owing_of_effect fun _ => readString_effect trivial).bind fun _ => .pure _
  | getState => exact (owing_of_effect fun _ => getState_effect).bind fun _ => .pure _
  | output o => exact o.exec_owing
  | writeStringMove depth data => exact (writeStringMove_owing depth data).bind fun _ => .pure _
  | writeVectorMove depth data => exact (writeVectorMove_owing depth data).bind fun _ => .pure _
  | writeFileSized p s => exact (writeFileSized_owing p s).bind fun _ => .pure _
  | setOnRecv installed => exact owing_of_effect fun _ => setOnRecv_effect trivial
  | destroy => exact owing_of_effect fun _ => effect_mono (fun _ => Act.IsTeardown.aside) destroy_effect

end Output

theorem cleanup_owing : Keeps Owing (stateCleanup (α := α)) :=
  ReadableRules.cleanup_keeps fun _ _ hw hs => (hs.mono fun _ => Act.IsTeardown.aside).owing hw

/-- A writable event forgets what was owed before it, and flushes. -/
theorem handleWritableBody_owes {ret : Int} (hf : w.Fits) (hok : handleWritableBody w = .ok ret w') :
    Owing w' := by
  by_cases ho : Open w
  · rw [handleWritableBody, bind_of_ok (requireNotMoved_run ho.live ho.valid (by decide)),
      bind_of_ok (stateCleanup_valid ho), if_neg (by decide)] at hok
    obtain ⟨_, w₁, hflush, hclean⟩ := bind_inv hok
    exact cleanup_owing _ _ _ (flushWriteBuffer_owes ho hf hflush) hclean
  · have hfits := hf.of_effect (handleWritableBody_effect (w := w))
    have hshut := not_open_of_effect handleWritableBody_effect ho
    rw [hok] at hfits hshut
    exact ⟨hfits, fun ho' => absurd ho' hshut⟩

theorem handleWritableEvent_owing : Keeps Owing (handleWritableEvent (α := α)) := by
  intro w ret w' hw hok
  obtain ⟨w₁, hbody, rfl⟩ := recorded_inv hok
  have hf : (w.log (.entered .writable)).Fits := hw.fits
  exact (handleWritableBody_owes hf hbody).log rfl

variable [Zero α]

theorem owing_rules : RunRules (α := α) Owing Owing where
  weaken := fun _ => id
  call := fun c => c.exec_owing
  readable := fun burst cs =>
    { entered := fun _ hw => hw.log rfl
      read := fun w w' ho hw hloop => by
        have hkept := (readLoop_effect burst.blocks burst.last ho).keeps
          (fun _ _ hv hs => (hs.mono fun _ => Act.IsInput.aside).owing hv) hw
        rw [hloop] at hkept
        exact ⟨hkept, fun _ => hkept⟩
      invoke := fun _ hw => hw.log rfl
      callback := runCalls_keeps (fun c => c.exec_owing) cs
      teardown := fun _ _ hw hs => (hs.mono fun _ => Act.IsTeardown.aside).owing hw
      teardownJ := fun _ _ hw hs => (hs.mono fun _ => Act.IsTeardown.aside).owing hw
      returned := fun _ _ hw => hw.log rfl
      gaveUp := fun _ _ hw _ => hw.log rfl }
  writable := handleWritableEvent_owing
  poll := fun mask => by
    rintro w _ w' hw hok
    obtain ⟨r, _, rfl⟩ := onIoContext_inv hok
    have hkernel : Owing { w with kernel := r.kernel } :=
      hw.same (.inl rfl) (fun ho => ⟨ho.live, ho.valid⟩) rfl ⟨[], rfl, by simp⟩
    exact hkernel.assign id rfl

end Owed

variable [Zero α]

/-- In every run of a connection the callback is invoked, and 0 returned from a readable event,
only when nothing is left to read; and bytes left in `__wbuffer` of a VALID connection
wait for an edge that the kernel owes since the last writable event. -/
theorem edge_triggered_discipline {os : List (ContextOp α)} (hf : w.Fits) (hnew : w.history = [])
    (hempty : w.context.wbuffer.bytes = []) (h : Run ContextStep w os w') :
    (∀ newer m older, w'.history = newer ++ m :: older → m.event.AfterDrain → Drained older) ∧
      (Open w' → w'.context.wbuffer.bytes ≠ [] → EdgeOwed w') := by
  have hheeded : Heeded w := by
    rw [Heeded, hnew]
    trivial
  have howing : Owing w := ⟨hf, fun _ hne => absurd hempty hne⟩
  refine ⟨fun newer m older hh hm => ?_, (owing_rules.run h howing).owed⟩
  have hall := heeded_rules.run h hheeded
  rw [Heeded, hh] at hall
  exact hall.split hm

/-- A byte queued on a full socket waits for the edge that its first refusal promised. -/
theorem edge_owed_on_full_socket :
    ∃ w : World UInt8, Run ContextStep (World.setUp 0 5 true fullOnce)
        [.call (.call (.output (.asyncWrite [1])))] w ∧ w.context.wbuffer.bytes = [1] ∧ EdgeOwed w := by
  have hrun : Run ContextStep (World.setUp 0 5 true fullOnce : World UInt8)
      [.call (.call (.output (.asyncWrite [1])))] _ := Run.single (ContextStep.call rfl)
  refine ⟨_, hrun, rfl, ?_⟩
  exact (edge_triggered_discipline (fullOnce_fits 0 5 true) rfl rfl hrun).2 ⟨rfl, rfl⟩ (by decide)

end Netier
