import Netier.CString
import Netier.Connection.QueuedOutput
import Netier.Connection.Streams

/-! The example server: it takes each message for the name of a file, and sends the file. -/
namespace Netier
open Lib

/-- What `fopen` finds under each name. -/
abbrev Disk := List UInt8 → Option (FileStream UInt8)

/-- A line feed at the end of a message is not part of the name. -/
def fileName (msg : List UInt8) : List UInt8 :=
  if !msg.isEmpty && msg.getLast? == some 10 then msg.dropLast else msg

/-- The callback that the example installs with `setOnRecv`. -/
def trivialFile (disk : Disk) : Exec UInt8 Unit := do
  let msg ← readString
  let _ ← writeFile (disk (cstr (fileName msg)))

/-- An event of the loop, with the files there are when its callback runs. -/
structure FileEvent where
  mask : Mask
  burst : Burst UInt8
  disk : Disk

def FileEvent.handle (e : FileEvent) : Exec UInt8 Unit := loopEntry e.mask e.burst (trivialFile e.disk)

/-- The file that a message names. -/
def Disk.named (disk : Disk) (msg : List UInt8) : Option (FileStream UInt8) :=
  disk (cstr (fileName msg))

def FileEvent.file (e : FileEvent) : Option (FileStream UInt8) :=
  if (e.mask &&& epollin) ≠ 0 then e.disk.named e.burst.bytes else none

/-- The bytes of a file, if there is one. -/
def fileBytes (file : Option (FileStream UInt8)) : List UInt8 := file.toList.flatMap FileStream.content

/-- A connection that still exists handles an event to its end. -/
def FileStep (w : World UInt8) (e : FileEvent) (w' : World UInt8) : Prop :=
  w.freed = false ∧ e.handle w = .ok ⟨⟩ w'

/-- A connection of the server between two events: nothing is left unread, and `p` is what has
been sent or waits to be. -/
structure Serving (r n : Nat) (p : List UInt8) (w : World UInt8) : Prop extends Ready w r where
  fits : w.Fits
  onRecv : w.context.onRecv = true
  unread : w.context.buffer.bytes = []
  contents : w.output.contents = p
  streams : w.kernel.files = n

/-- How an event leaves a connection: at work, or gone with at most `p` sent. -/
structure Served (r n : Nat) (p : List UInt8) (w : World UInt8) : Prop where
  sent : w.output.contents <+: p
  serving : w.freed = false → Serving r n p w

section InputSide
variable {α : Type} {w w' : World α} {b : Buffer α} {c : Bool}

/-- The input side is as it was. -/
def World.InputSide (b : Buffer α) (c : Bool) (w : World α) : Prop :=
  w.context.buffer = b ∧ w.context.onRecv = c

theorem Steps.inputSide {S : Act α → Prop} (hs : Steps S w w') (hS : ∀ a, S a → a.IsOutput ∨ a.IsTeardown)
    (hw : w.InputSide b c) : w'.InputSide b c := by
  obtain ⟨a, ha, _, rfl⟩ := hs
  rcases hS a ha with hout | htear
  · cases a with
    | write buf => cases hb : w.wire.answers 0 <;> simpa [World.InputSide, World.next, World.sysWrite, hb] using hw
    | wbuffer | state | fopen => exact hw
    | _ => exact hout.elim
  · cases a with
    | destroyer | deregister | release => exact hw
    | _ => exact htear.elim

theorem inputSide_of_effect {S : Act α → Prop} {β : Type} {x : Exec α β} (hx : Effect (Steps S) x w)
    (hS : ∀ a, S a → a.IsOutput ∨ a.IsTeardown) (hw : w.InputSide b c) : (final (x w)).InputSide b c :=
  hx.keeps (I := World.InputSide b c) (fun _ _ hn hs => hs.inputSide hS hn) hw

theorem keeps_inputSide {S : Act α → Prop} {β : Type} {x : Exec α β} (hx : ∀ w, Effect (Steps S) x w)
    (hS : ∀ a, S a → a.IsOutput ∨ a.IsTeardown) : Keeps (World.InputSide b c) x :=
  Effect.returns hx fun _ _ hw hs => hs.inputSide hS hw

theorem handleWritableEvent_inputSide : Keeps (World.InputSide b c) (handleWritableEvent (α := α)) := by
  have cleanup : Keeps (World.InputSide b c) (stateCleanup (α := α)) :=
    keeps_inputSide (fun _ => stateCleanup_effect) fun _ => .inr
  have flush : Keeps (World.InputSide b c) (flushWriteBuffer (α := α)) :=
    keeps_inputSide (fun _ => flushWriteBuffer_effect) fun _ h => .inl h.output
  have body : Keeps (World.InputSide b c) (handleWritableBody (α := α)) :=
    (Keeps.of_final requireNotMoved_final).bind fun _ => cleanup.bind fun _ =>
      .ite (fun _ => .pure _) fun _ => flush.bind fun _ => cleanup
  intro w ret w' hw hok
  obtain ⟨w₁, hbody, rfl⟩ := recorded_inv hok
  exact body (w.log (.entered .writable)) ret w₁ hw hbody

end InputSide

theorem Steps.teardown_output {α : Type} {w w' : World α} (hs : Steps Act.IsTeardown w w') :
    w'.output = w.output := by
  obtain ⟨a, ha, _, rfl⟩ := hs
  cases a with
  | destroyer | deregister | release => rfl
  | _ => exact ha.elim

section Callback
variable {w : World UInt8} {r n : Nat} {p : List UInt8} {e : FileEvent}

theorem readString_run (h : Open w) : readString w = .ok w.context.buffer.bytes w.take := by
  rw [readString, guarded_open h, bind_of_ok (this_run h.live), bind_of_ok (modify_run _ _)]
  rfl

/-- The file is opened, and not closed. -/
theorem writeFile_streams (h : Open w) (f : FileStream UInt8) :
    (final (writeFile (some f) w)).kernel.files = w.kernel.files + 1 := by
  have hf : Open w.fopen := ⟨h.live, h.valid⟩
  have hrest : Effect (Steps Act.IsSend) (do
      freadLoop f.pieces
      flushWriteBuffer
      pure ER.success) w.fopen := by
    refine (effect_mono (fun _ => Act.IsQueue.send) (freadLoop_effect f.pieces hf)).bind ?_
    exact fun _ _ _ => flushWriteBuffer_effect.bind fun _ _ _ => Effect.pure _
  rw [writeFile, guarded_open h, bind_of_ok (modify_run _ _)]
  exact streams_of_effect hrest id

/-- What one call of `writeFile` does to a connection that has read its input. -/
structure Sends (file : Option (FileStream UInt8)) (w w' : World UInt8) : Prop where
  works : Works w w'
  fits : w'.Fits
  input : w'.InputSide .empty w.context.onRecv
  contents : w'.output.contents = w.output.contents ++ fileBytes file
  streams : w'.kernel.files = w.kernel.files + file.toList.length

theorem writeFile_sends (h : Open w) (hfd : 0 < w.context.socket.fd) (hf : w.Fits)
    (hempty : w.context.buffer = .empty) (file : Option (FileStream UInt8)) :
    ∃ ret w', writeFile file w = .ok ret w' ∧ Sends file w w' := by
  cases file with
  | none => exact ⟨_, w, writeFile_missing h, .refl w, hf, ⟨hempty, rfl⟩, by simp [fileBytes], rfl⟩
  | some f =>
    obtain ⟨w', hrun, hemitted⟩ := writeFile_run h hfd f
    have heffect : Effect (Steps Act.IsOutput) (writeFile (some f)) w :=
      writeFile_effect (some f) (fun _ => Act.IsSend.output) fun _ _ => trivial
    have hworks := Works.of_quiet (effect_mono (fun _ => Act.IsOutput.quiet) heffect)
    have hfits := hf.of_effect heffect
    have hinput : (final (writeFile (some f) w)).InputSide .empty w.context.onRecv :=
      inputSide_of_effect heffect (fun _ => .inl) ⟨hempty, rfl⟩
    have hstreams := writeFile_streams h f
    rw [hrun] at hworks hfits hinput hstreams
    have hcontents : w'.output.contents = w.output.contents ++ fileBytes (some f) := by
      simpa [fileBytes] using (hemitted hf).contents
    exact ⟨_, w', hrun, hworks, hfits, hinput, hcontents, hstreams⟩

theorem take_works (w : World UInt8) : Works w w.take :=
  ⟨⟨rfl, rfl, rfl, rfl, rfl, rfl, destroyerCalls_assign _ _⟩, .inl rfl⟩

theorem trivialFile_run (h : Open w) (hfd : 0 < w.context.socket.fd) (hf : w.Fits) (disk : Disk) :
    ∃ w', trivialFile disk w = .ok ⟨⟩ w' ∧ Sends (disk.named w.context.buffer.bytes) w w' := by
  have htake : Open w.take := ⟨h.live, h.valid⟩
  obtain ⟨ret, w', hrun, hsends⟩ :=
    writeFile_sends htake hfd hf rfl (disk.named w.context.buffer.bytes)
  refine ⟨w', ?_, (take_works w).trans hsends.works, hsends.fits, hsends.input, hsends.contents, hsends.streams⟩
  rw [trivialFile, bind_of_ok (readString_run h)]
  exact bind_of_ok hrun

/-- The last cleanup of a readable event. -/
theorem served_of_cleanup (ha : Attached w r) (hb : Bound w) (hf : w.Fits)
    (hi : w.InputSide .empty true) (hc : w.output.contents = p) (hs : w.kernel.files = n) :
    ∃ ret w', afterOnRecv w = .ok ret w' ∧ Served r n p w' ∧ (w'.freed = true ↔ ret < 0) := by
  by_cases hv : w.context.state = some .valid
  · refine ⟨0, _, bind_of_ok (stateCleanup_valid ⟨ha.live, hv⟩), ⟨hc ▸ List.prefix_rfl, fun _ => ?_⟩, ?_⟩
    · exact ⟨⟨ha.log _, ⟨hb.readableCb, hb.writableCb⟩, hv⟩, hf, hi.2, congrArg Buffer.bytes hi.1, hc, hs⟩
    · exact iff_of_false (by simp [ha.live]) (by decide)
  · refine ⟨-1, _, bind_of_ok (stateCleanup_run ha hv), ⟨hc ▸ List.prefix_rfl, fun hlive => ?_⟩, ?_⟩
    · exact absurd hlive (by simp [World.torn, World.release])
    · exact iff_of_true rfl (by decide)

/-- A readable event that does not get as far as the callback sends nothing. -/
theorem handleReadableEvent_sent (burst : Burst UInt8) :
    Keeps (fun v => v.output.contents = p) (handleReadableEvent burst (pure ⟨⟩)) :=
  ReadableRules.handleReadableEvent_keeps (J := fun v => v.output.contents = p)
    { entered := fun _ => id
      read := fun w w' ho hw hloop => by
        obtain ⟨w₁, hrun, hrec⟩ := readLoop_run burst.blocks burst.last ho
        rw [hrun] at hloop
        cases hloop
        have hsame : w'.output = w.output := by rw [World.output, hrec.accepted, hrec.context]; rfl
        exact ⟨by rw [hsame]; exact hw, fun _ => by rw [hsame]; exact hw⟩
      invoke := fun _ => id
      callback := .pure _
      teardown := fun _ _ hw hs => hs.teardown_output ▸ hw
      teardownJ := fun _ _ hw hs => hs.teardown_output ▸ hw
      returned := fun _ _ => id
      gaveUp := fun _ _ hw _ => hw }

/-- A readable event sends the file that its message names, or ends the connection. -/
theorem Serving.readable (h : Serving r n p w) (burst : Burst UInt8) (disk : Disk) :
    ∃ ret w', handleReadableEvent burst (trivialFile disk) w = .ok ret w' ∧
      Served r (n + (disk.named burst.bytes).toList.length) (p ++ fileBytes (disk.named burst.bytes)) w' ∧
      (w'.freed = true ↔ ret < 0) := by
  by_cases hreach : Reaches w burst
  · obtain ⟨w₁, hat, ho₁, hcb, hloop, hrec⟩ := hreach.loop
    have ho : Open w₁.invoke := ⟨ho₁.live, ho₁.valid⟩
    have hworks₁ : Works w w₁.invoke :=
      ((Works.log rfl).trans (readLoop_works ⟨h.live, h.valid⟩ hloop)).trans (Works.log rfl)
    have hmsg : w₁.invoke.context.buffer.bytes = burst.bytes := by
      show w₁.context.buffer.bytes = _
      rw [hrec.context]
      simp [h.unread]
    have hfits₁ : w₁.invoke.Fits := by
      show w₁.Fits
      unfold World.Fits
      rw [hrec.answers]
      exact h.fits
    have hout₁ : w₁.invoke.output.contents = p := by
      rw [← h.contents]
      show w₁.output.contents = w.output.contents
      rw [World.output, hrec.accepted, hrec.context]
      rfl
    obtain ⟨w₂, hrun, hsends⟩ := trivialFile_run ho (hworks₁.attached h.toAttached).positive hfits₁ disk
    have hworks := hworks₁.trans hsends.works
    rw [hmsg] at hsends
    rw [handleReadableEvent_reaches hreach h.positive, hat, bind_of_ok hrun]
    refine served_of_cleanup (hworks.attached h.toAttached) (hworks.bound h.toBound) hsends.fits ?_ ?_ ?_
    · rw [← hcb]
      exact hsends.input
    · rw [hsends.contents, hout₁]
    · have hkernel : w₁.invoke.kernel.files = n := (congrArg Kernel.files hrec.kernel).trans h.streams
      rw [hsends.streams, hkernel]
  · obtain ⟨ret, w', huntil, hret⟩ := untilOnRecv_unreached h.toAttached hreach
    have hrun (callback : Exec UInt8 Unit) : handleReadableEvent burst callback w = .ok ret w' := by
      rw [handleReadableEvent_split, bind_of_ok huntil]
      rfl
    have hneg : ¬ 0 ≤ ret := fun hpos => by
      obtain ⟨ho, hlast⟩ := hret.1 hpos
      exact hreach ⟨ho, h.onRecv, hlast⟩
    have hverdict := (handleReadableEvent_ensures (F := Never) (runCalls_body []) h.toAttached burst
      fun hr => absurd hr hreach).ok (hrun _)
    have hsent : w'.output.contents = p := handleReadableEvent_sent burst w ret w' h.contents (hrun _)
    refine ⟨ret, w', hrun _, ⟨hsent ▸ List.prefix_append _ _, fun hlive => ?_⟩, ?_⟩
    · cases hverdict.1 with
      | stays _ _ => exact absurd (le_refl 0) hneg
      | goes hg _ => exact absurd hlive (by simp [hg.freed])
    · cases hverdict.1 with
      | stays _ _ => exact absurd (le_refl 0) hneg
      | goes hg _ => exact iff_of_true hg.freed (by decide)

/-- A writable event sends more of what waits, or ends the connection. -/
theorem Serving.writePart (h : Serving r n p w) (burst : Burst UInt8) (callback : Exec UInt8 Unit) :
    ∃ w', handleWritePart burst callback w = .ok ⟨⟩ w' ∧ Served r n p w' := by
  have hpart := handleWritePart_bound burst callback h.toAttached h.toBound
  split at hpart
  · obtain ⟨ret, w', hrun, hverdict, _⟩ := (handleWritableEvent_ensures (F := Never) h.toAttached).returns
    have hdrains := drains_of_effect (w := w) handleWritableEvent_drains h.fits
    rw [hrun] at hdrains
    obtain ⟨hfits, k, hk⟩ := hdrains
    have hcontents : w'.output.contents = p := by
      rw [← h.contents]
      exact (congrArg Channel.contents hk).trans (Channel.contents_drain _ _)
    obtain ⟨hbuffer, honRecv⟩ := handleWritableEvent_inputSide w ret w' ⟨rfl, rfl⟩ hrun
    have hstreams : w'.kernel.files = n := handleWritableEvent_streams w ret w' h.streams hrun
    refine ⟨w', hpart.trans (bind_of_ok hrun), hcontents ▸ List.prefix_rfl, fun hlive => ?_⟩
    cases hverdict with
    | stays hw ho =>
      exact ⟨⟨hw.attached h.toAttached, hw.bound h.toBound, ho.valid⟩, hfits,
        honRecv.trans h.onRecv, (congrArg Buffer.bytes hbuffer).trans h.unread, hcontents, hstreams⟩
    | goes hg _ => exact absurd hlive (by simp [hg.freed])
  · exact ⟨w, hpart, h.contents ▸ List.prefix_rfl, fun _ => h⟩

theorem Serving.polled (h : Serving r n p w) (mask : Mask) : Serving r n p (w.polled mask) :=
  ⟨⟨h.toAttached.polled mask, h.toBound.polled mask, h.valid⟩, h.fits, h.onRecv, h.unread, h.contents, h.streams⟩

/-- Every event is handled to its end. -/
theorem Serving.event (h : Serving r n p w) (e : FileEvent) :
    ∃ w', e.handle w = .ok ⟨⟩ w' ∧ Served r (n + e.file.toList.length) (p ++ fileBytes e.file) w' := by
  have hp := h.polled e.mask
  have hrun : e.handle w = handleGeneral e.burst (trivialFile e.disk) (w.polled e.mask) := by
    rw [FileEvent.handle, loopEntry, bind_of_ok (setRevents_run h.live h.reactor e.mask)]
  have hgeneral := handleGeneral_bound e.burst (trivialFile e.disk) hp.toAttached hp.toBound
  rw [hrun, hgeneral]
  have hbit : ((w.polled e.mask).context.ioContext.revents &&& epollin != 0) = true ↔
      (e.mask &&& epollin) ≠ 0 := by simp [World.polled]
  split
  · rename_i hin
    rw [hbit] at hin
    obtain ⟨ret, w₁, hread, hserved, hfreed⟩ := hp.readable e.burst e.disk
    rw [FileEvent.file, if_pos hin, bind_of_ok hread]
    split
    · exact ⟨w₁, rfl, hserved⟩
    · rename_i hret
      exact (hserved.serving (by simpa using mt hfreed.1 hret)).writePart _ _
  · rename_i hin
    rw [hbit, not_ne_iff] at hin
    simpa [FileEvent.file, hin, fileBytes] using hp.writePart e.burst (trivialFile e.disk)

/-- However the kernel cuts input and output, a client of the example server gets what is read of
the files that its messages name, in their order: what it has been sent is always a part of it
from the start, and as long as its connection exists the rest is waiting, the server can go on,
and the files that were sent are all still open. -/
theorem files_served {w' : World UInt8} {es : List FileEvent} (h0 : Fresh w r) (hf : w.Fits)
    (honRecv : w.context.onRecv = true) (hunread : w.context.buffer.bytes = [])
    (h : Run FileStep w es w') :
    w'.wire.accepted <+: (es.filterMap FileEvent.file).flatMap FileStream.content ∧
      (w'.freed = false →
        w'.wire.accepted ++ w'.context.wbuffer.bytes =
          (es.filterMap FileEvent.file).flatMap FileStream.content ∧
        w'.kernel.files = w.kernel.files + (es.filterMap FileEvent.file).length ∧
        ∀ e, ∃ w'', FileStep w' e w'') := by
  have hstart : Served r w.kernel.files [] w := by
    have hcontents : w.output.contents = [] := by
      simp [World.output, Channel.contents, h0.accepted, h0.wbuffer]
    exact ⟨hcontents ▸ List.prefix_rfl, fun _ => ⟨h0.toReady, hf, honRecv, hunread, hcontents, rfl⟩⟩
  have hend : Served r (w.kernel.files + (es.filterMap FileEvent.file).length)
      ((es.filterMap FileEvent.file).flatMap FileStream.content) w' := by
    refine h.history (I := fun es w' => Served r (w.kernel.files + (es.filterMap FileEvent.file).length)
      ((es.filterMap FileEvent.file).flatMap FileStream.content) w') hstart ?_
    rintro es v e v' hv ⟨hlive, hrun⟩
    obtain ⟨v'', hrun', hserved⟩ := (hv.serving hlive).event e
    rw [hrun] at hrun'
    cases hrun'
    have hfiles : (es ++ [e]).filterMap FileEvent.file = es.filterMap FileEvent.file ++ e.file.toList := by
      cases he : e.file <;> simp [List.filterMap_append, he]
    rw [hfiles, List.length_append, List.flatMap_append, ← Nat.add_assoc]
    exact hserved
  refine ⟨(List.prefix_append _ _).trans hend.sent, fun hlive => ?_⟩
  have hserving := hend.serving hlive
  refine ⟨hserving.contents, hserving.streams, fun e => ?_⟩
  obtain ⟨w'', hrun, _⟩ := hserving.event e
  exact ⟨w'', hlive, hrun⟩

/-- A message with the name of a file of one byte, and a line feed. -/
def oneFile : FileEvent where
  mask := epollin
  burst := ⟨[⟨[97, 10], by simp, by simp [readBufSize]⟩], .failed .eagain⟩
  disk := fun name => if name = [97] then some ⟨[⟨[7], by simp, by simp [readBufSize]⟩]⟩ else none

/-- The socket is full at first, so that the file has to wait. -/
theorem oneFile_served : ∃ w, FileStep (World.setUp 0 5 true fullOnce) oneFile w ∧
    w.wire.accepted <+: [7] ∧ (w.freed = false →
      w.wire.accepted ++ w.context.wbuffer.bytes = [7] ∧ w.kernel.files = 1 ∧
        ∀ e, ∃ w', FileStep w e w') := by
  have h0 : Fresh (World.setUp 0 5 true fullOnce : World UInt8) 0 := setUp_fresh (by decide) true fullOnce
  have hf : (World.setUp 0 5 true fullOnce : World UInt8).Fits := fullOnce_fits 0 5 true
  obtain ⟨w, hstep⟩ := ((files_served h0 hf rfl rfl (.nil _)).2 rfl).2.2 oneFile
  exact ⟨w, hstep, files_served h0 hf rfl rfl (Run.single hstep)⟩

end Callback
end Netier
