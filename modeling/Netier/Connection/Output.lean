import Netier.Connection.Frame
import Netier.Lib.Channel

/-! The output calls seen as operations on a channel: the bytes the kernel has accepted
are the channel's, `__wbuffer` is the queue in front of it. -/
namespace Netier
open Lib
variable {α : Type} {w w' : World α}

def World.output (w : World α) : Channel α := ⟨w.wire.accepted, w.context.wbuffer.bytes⟩

/-- How much of a request the kernel takes. -/
def WriteAnswer.count : WriteAnswer → Nat
  | .room n => n
  | .failed _ => 0

section SysWrite

theorem sysWrite_accepted (w : World α) (buf : List α) :
    (w.sysWrite buf).2.wire.accepted = w.wire.accepted ++ buf.take (w.wire.answers 0).count := by
  cases h : w.wire.answers 0 <;> simp [World.sysWrite, h, WriteAnswer.count]

/-- Whatever the conversion makes of the count, it is no more than was asked for. -/
theorem sysWrite_toNat_le (w : World α) (buf : List α) : (w.sysWrite buf).1.toNat ≤ buf.length := by
  cases h : w.wire.answers 0 with
  | room n =>
    have hle := toInt_le (n := (min n buf.length : Nat)) (by omega)
    simp only [World.sysWrite, h]
    omega
  | failed e => simp [World.sysWrite, h]

/-- A count that survives its conversion to `int`. -/
theorem sysWrite_toNat {buf : List α} (hc : w.Counts buf.length) :
    (w.sysWrite buf).1.toNat = min (w.wire.answers 0).count buf.length := by
  cases h : w.wire.answers 0 with
  | room n =>
    have hn := hc 0 n h
    have hcount : toInt (min n buf.length : Nat) = (min n buf.length : Nat) := by
      apply toInt_of_lt <;> omega
    simp only [World.sysWrite, h, WriteAnswer.count, hcount]
    omega
  | failed e => simp [World.sysWrite, h, WriteAnswer.count]

theorem sysWrite_stuck (hf : w.Fits) {buf : List α} (hr : ¬ 0 < (w.sysWrite buf).1) :
    buf.take (w.wire.answers 0).count = [] := by
  have hmin := sysWrite_toNat (hf.counts buf.length)
  rw [List.take_eq_take_min, ← hmin, Int.toNat_of_nonpos (by omega), List.take_zero]

theorem sysWrite_output_stuck (hf : w.Fits) {buf : List α} (hr : ¬ 0 < (w.sysWrite buf).1) :
    (w.sysWrite buf).2.output = w.output := by
  rw [World.output, sysWrite_accepted, sysWrite_stuck hf hr, List.append_nil,
    World.sysWrite_context]
  rfl

end SysWrite

section Flush

/-- `flushWriteBuffer` after a write of which `n` bytes count as sent. -/
def World.flushed (w : World α) : World α :=
  (w.sysWrite w.context.wbuffer.bytes).2.assign { w.context with
    wbuffer := ⟨w.context.wbuffer.bytes.drop (w.sysWrite w.context.wbuffer.bytes).1.toNat⟩ }

theorem flushed_open (h : Open w) : Open w.flushed := ⟨by simp [World.flushed, h.live], h.valid⟩

theorem flushed_output (hf : w.Fits) :
    w.flushed.output = w.output.drain (w.wire.answers 0).count := by
  simp only [World.flushed, World.output, World.assign_wire, World.assign_context,
    sysWrite_accepted, sysWrite_toNat (hf.counts _), ← List.drop_eq_drop_min, Channel.drain]

theorem flushed_fits (hf : w.Fits) : w.flushed.Fits := hf.sysWrite _

theorem flushLoop_sent {fuel : Nat} (h : Open w) (hsize : 0 < w.context.wbuffer.size)
    (hr : 0 < (w.sysWrite w.context.wbuffer.bytes).1) :
    flushLoop (fuel + 1) w = flushLoop fuel w.flushed := by
  have ho := h.sysWrite w.context.wbuffer.bytes
  have hcut : (w.sysWrite w.context.wbuffer.bytes).2.context.wbuffer.moveReadCursor
      (w.sysWrite w.context.wbuffer.bytes).1.toNat =
        some ⟨w.context.wbuffer.bytes.drop (w.sysWrite w.context.wbuffer.bytes).1.toNat⟩ := by
    rw [World.sysWrite_context]
    exact Buffer.moveReadCursor_of_le _ (sysWrite_toNat_le w _)
  rw [flushLoop, bind_of_ok (this_run h.live), if_pos hsize, bind_of_ok (sysWrite_run _ _),
    if_pos hr, bind_of_ok (onWbuffer_run ho.live hcut), World.sysWrite_context]
  rfl

/-- The loop ends where nothing was sent; the state it leaves may have changed. -/
theorem flushLoop_stuck (fuel : Nat) (h : Open w) (hsize : 0 < w.context.wbuffer.size)
    (hr : ¬ 0 < (w.sysWrite w.context.wbuffer.bytes).1) :
    ∃ w', flushLoop (fuel + 1) w = .ok ⟨⟩ w' ∧
      w'.output = (w.sysWrite w.context.wbuffer.bytes).2.output := by
  have ho := h.sysWrite w.context.wbuffer.bytes
  rw [flushLoop, bind_of_ok (this_run h.live), if_pos hsize, bind_of_ok (sysWrite_run _ _),
    if_neg hr, bind_of_ok (errno_run _)]
  split
  · exact ⟨_, rfl, rfl⟩
  · split
    · exact ⟨_, setState_run ho.live _, rfl⟩
    · exact ⟨_, setState_run ho.live _, rfl⟩

theorem flushLoop_done {fuel : Nat} (h : Open w) (hsize : ¬ 0 < w.context.wbuffer.size) :
    flushLoop (fuel + 1) w = .ok ⟨⟩ w := by
  rw [flushLoop, bind_of_ok (this_run h.live), if_neg hsize]
  rfl

/-- Every pass that goes on shortens `__wbuffer`, so the loop ends; what it takes off
the front of `__wbuffer` is what the kernel accepted. -/
theorem flushLoop_run (fuel : Nat) (h : Open w) (hfuel : w.context.wbuffer.size < fuel) :
    ∃ w', flushLoop fuel w = .ok ⟨⟩ w' ∧ (w.Fits → ∃ n, w'.output = w.output.drain n) := by
  induction fuel generalizing w with
  | zero => omega
  | succ fuel ih =>
    by_cases hsize : 0 < w.context.wbuffer.size
    · by_cases hr : 0 < (w.sysWrite w.context.wbuffer.bytes).1
      · have hsmaller : w.flushed.context.wbuffer.size < fuel := by
          simp only [World.flushed, World.assign_context, Buffer.size, List.length_drop] at hfuel ⊢
          simp only [Buffer.size] at hsize
          omega
        obtain ⟨w', hrun, hout⟩ := ih (flushed_open h) hsmaller
        refine ⟨w', (flushLoop_sent h hsize hr).trans hrun, fun hf => ?_⟩
        obtain ⟨n, hn⟩ := hout (flushed_fits hf)
        exact ⟨_, by rw [hn, flushed_output hf, Channel.drain_drain]⟩
      · obtain ⟨w', hrun, hout⟩ := flushLoop_stuck fuel h hsize hr
        refine ⟨w', hrun, fun hf => ⟨0, ?_⟩⟩
        rw [hout, sysWrite_output_stuck hf hr, Channel.drain_zero]
    · exact ⟨w, flushLoop_done h hsize, fun _ => ⟨0, (Channel.drain_zero _).symm⟩⟩

end Flush

section Guard
variable {β : Type} {b : β} {x : Exec α β}

/-- What stands at the head of every output call: on an open object the rest runs. -/
theorem guarded_open (h : Open w) :
    (do
      requireNotMoved
      if (← readState) ≠ .valid then pure b
      else x : Exec α β) w = x w := by
  rw [bind_of_ok (requireNotMoved_run h.live h.valid (by decide)),
    bind_of_ok (readState_run h.live h.valid)]
  rfl

theorem guarded_shut {s : State} (h : w.freed = false) (hs : w.context.state = some s)
    (hm : s ≠ .moved) (hv : s ≠ .valid) :
    (do
      requireNotMoved
      if (← readState) ≠ .valid then pure b
      else x : Exec α β) w = .ok b w := by
  rw [bind_of_ok (requireNotMoved_run h hs hm), bind_of_ok (readState_run h hs), if_pos hv]
  rfl

/-- On any other object the call returns at once, or faults, and changes nothing. -/
theorem guarded_final (h : ¬ Open w) :
    final ((do
      requireNotMoved
      if (← readState) ≠ .valid then pure b
      else x : Exec α β) w) = w := by
  cases hm : requireNotMoved w with
  | error e w₁ =>
    have hw := congrArg final hm
    rw [requireNotMoved_final] at hw
    rw [bind_of_error hm]
    exact hw.symm
  | ok u w₁ =>
    obtain rfl := requireNotMoved_inv hm
    rw [bind_of_ok hm]
    cases hs : readState w with
    | error e w₁ =>
      have hw := congrArg final hs
      rw [readState_final] at hw
      rw [bind_of_error hs]
      exact hw.symm
    | ok s w₁ =>
      obtain ⟨hlive, hstate, rfl⟩ := readState_inv hs
      have hv : s ≠ .valid := by
        rintro rfl
        exact h ⟨hlive, hstate⟩
      rw [bind_of_ok hs, if_pos hv]
      rfl

end Guard

/-- `direct` went to the kernel past the queue, `queued` joined the queue, and then a
part of the queue was sent. -/
def Emitted (w w' : World α) (direct queued : List α) : Prop :=
  ∃ n, w'.output = ((w.output.overtake direct).enqueue queued).drain n

theorem Emitted.refl (w : World α) : Emitted w w [] [] := ⟨0, by simp⟩

theorem Emitted.of_drain {n : Nat} (h : w'.output = w.output.drain n) : Emitted w w' [] [] :=
  ⟨n, by simp [h]⟩

theorem flushWriteBuffer_open (h : Open w) (hfd : 0 < w.context.socket.fd) :
    flushWriteBuffer w = flushLoop (w.context.wbuffer.size + 1) w := by
  rw [flushWriteBuffer, guarded_open h, bind_of_ok (getFd_run h.live hfd),
    bind_of_ok (this_run h.live)]

theorem flushWriteBuffer_run (h : Open w) (hfd : 0 < w.context.socket.fd) :
    ∃ w', flushWriteBuffer w = .ok ⟨⟩ w' ∧ (w.Fits → Emitted w w' [] []) := by
  obtain ⟨w', hrun, hout⟩ := flushLoop_run (w.context.wbuffer.size + 1) h (Nat.lt_succ_self _)
  refine ⟨w', (flushWriteBuffer_open h hfd).trans hrun, fun hf => ?_⟩
  obtain ⟨n, hn⟩ := hout hf
  exact .of_drain hn

theorem getFd_error (h : w.freed = false) (hfd : ¬ 0 < w.context.socket.fd) :
    getFd w = .error .assertion w := by
  rw [getFd, bind_of_ok (this_run h), bind_run, assert_run]
  simp [hfd]

theorem flushWriteBuffer_emitted (hf : w.Fits) : Emitted w (final (flushWriteBuffer w)) [] [] := by
  by_cases h : Open w
  · by_cases hfd : 0 < w.context.socket.fd
    · obtain ⟨w', hrun, hout⟩ := flushWriteBuffer_run h hfd
      rw [hrun]
      exact hout hf
    · rw [flushWriteBuffer, guarded_open h, bind_of_error (getFd_error h.live hfd)]
      exact .refl w
  · rw [flushWriteBuffer, guarded_final h]
    exact .refl w

/-- The state `asyncWrite` flushes from. -/
def World.queued (w : World α) (buf : List α) : World α :=
  w.assign { w.context with wbuffer := w.context.wbuffer.put buf }

theorem queued_open (h : Open w) (buf : List α) : Open (w.queued buf) := h.assign rfl

theorem asyncWrite_open (h : Open w) (buf : List α) :
    asyncWrite buf w = flushWriteBuffer (w.queued buf) := by
  rw [asyncWrite, guarded_open h, bind_of_ok (onWbuffer_some h.live fun b => b.put buf)]
  rfl

theorem queued_output (w : World α) (buf : List α) :
    (w.queued buf).output = w.output.enqueue buf := rfl

/-- Flushing what has just been queued. -/
theorem Emitted.of_enqueue {w₁ : World α} {data : List α} (h : Emitted w₁ w' [] [])
    (ho : w₁.output = w.output.enqueue data) : Emitted w w' [] data := by
  obtain ⟨n, hn⟩ := h
  exact ⟨n, by rw [hn, ho]; simp⟩

theorem asyncWrite_run (h : Open w) (hfd : 0 < w.context.socket.fd) (buf : List α) :
    ∃ w', asyncWrite buf w = .ok ⟨⟩ w' ∧ (w.Fits → Emitted w w' [] buf) := by
  obtain ⟨w', hrun, hout⟩ := flushWriteBuffer_run (queued_open h buf) hfd
  exact ⟨w', (asyncWrite_open h buf).trans hrun, fun hf => (hout hf).of_enqueue (queued_output w buf)⟩

theorem asyncWrite_emitted (h : Open w) (hf : w.Fits) (buf : List α) :
    Emitted w (final (asyncWrite buf w)) [] buf := by
  rw [asyncWrite_open h]
  exact (flushWriteBuffer_emitted (w := w.queued buf) hf).of_enqueue (queued_output w buf)

/-- `data` joined the queue and nothing was sent. -/
structure Queued (w w' : World α) (data : List α) : Prop where
  «open» : Open w'
  output : w'.output = w.output.enqueue data
  answers : w'.wire.answers = w.wire.answers
  socket : w'.context.socket = w.context.socket

theorem Queued.fits {data : List α} (h : Queued w w' data) (hf : w.Fits) : w'.Fits := by
  unfold World.Fits
  rw [h.answers]
  exact hf

section File
variable [Zero α]

theorem freadOnce_run (h : Open w) {piece : List α} (hlen : piece.length ≤ readBufSize) :
    ∃ w', freadOnce piece w = .ok ⟨⟩ w' ∧ Queued w w' piece := by
  have ho := h.assign (c := { w.context with
    wbuffer := ⟨w.context.wbuffer.bytes ++ List.replicate readBufSize 0⟩ }) rfl
  have hcut := Buffer.shrink_store_window w.context.wbuffer.bytes piece readBufSize
  rw [freadOnce, bind_of_ok (this_run h.live)]
  simp only [Buffer.getWriter_pos _ (show 0 < readBufSize by decide)]
  rw [bind_of_ok (assign_run h.live _), bind_of_ok (onWbuffer_some ho.live fun b => b.store _ piece)]
  split
  · exact ⟨_, onWbuffer_run ho.live hcut, ⟨h.live, h.valid⟩, rfl, rfl, rfl⟩
  · -- a full piece leaves no room to cut back, and the source skips the call
    have hfull : readBufSize - piece.length = 0 := by omega
    rw [hfull, Buffer.shrink_zero, Option.some.injEq] at hcut
    refine ⟨_, rfl, ⟨h.live, h.valid⟩, ?_, rfl, rfl⟩
    exact congrArg (Channel.mk w.wire.accepted) (congrArg Buffer.bytes hcut)

theorem freadLoop_run (h : Open w) (pieces : List (Block α)) :
    ∃ w', freadLoop pieces w = .ok ⟨⟩ w' ∧ Queued w w' (pieces.flatMap Block.bytes) := by
  induction pieces generalizing w with
  | nil => exact freadOnce_run h (Nat.zero_le _)
  | cons p ps ih =>
    obtain ⟨w₁, hrun, hq⟩ := freadOnce_run h p.length_le
    obtain ⟨w', hrun', hq'⟩ := ih hq.open
    refine ⟨w', ?_, hq'.open, ?_, hq'.answers.trans hq.answers, hq'.socket.trans hq.socket⟩
    · rw [freadLoop, bind_of_ok hrun, hrun']
    · rw [hq'.output, hq.output]
      simp [Channel.enqueue]

/-- The file is read into `__wbuffer` before anything of it is sent. -/
theorem writeFile_open (h : Open w) (f : FileStream α) :
    ∃ w₁, Queued w w₁ f.content ∧
      writeFile (some f) w = (do flushWriteBuffer; pure .success : Exec α ER) w₁ := by
  have ho : Open w.fopen := ⟨h.live, h.valid⟩
  obtain ⟨w₁, hrun, hq⟩ := freadLoop_run ho f.pieces
  refine ⟨w₁, ⟨hq.open, hq.output, hq.answers, hq.socket⟩, ?_⟩
  rw [writeFile, guarded_open h, bind_of_ok (modify_run _ _), bind_of_ok hrun]

theorem writeFile_run (h : Open w) (hfd : 0 < w.context.socket.fd) (f : FileStream α) :
    ∃ w', writeFile (some f) w = .ok .success w' ∧ (w.Fits → Emitted w w' [] f.content) := by
  obtain ⟨w₁, hq, hrun⟩ := writeFile_open h f
  obtain ⟨w', hflush, hout⟩ := flushWriteBuffer_run hq.open (by rwa [hq.socket])
  refine ⟨w', by rw [hrun, bind_of_ok hflush]; rfl, fun hf => ?_⟩
  exact (hout (hq.fits hf)).of_enqueue hq.output

theorem writeFile_emitted (h : Open w) (hf : w.Fits) (f : FileStream α) :
    Emitted w (final (writeFile (some f) w)) [] f.content := by
  obtain ⟨w₁, hq, hrun⟩ := writeFile_open h f
  rw [hrun, final_bind_pure]
  exact (flushWriteBuffer_emitted (hq.fits hf)).of_enqueue hq.output

theorem writeFile_missing (h : Open w) : writeFile none w = .ok .fileError w := by
  rw [writeFile, guarded_open h]
  rfl

end File

section Sync
variable {buf : List α} {remaining : Int} {fuel : Nat}

/-- `direct` went to the kernel past the queue. -/
structure Direct (w w' : World α) (direct : List α) : Prop where
  «open» : Open w'
  socket : w'.context.socket = w.context.socket
  fits : w.Fits → w'.Fits
  output : w.Fits → w'.output = w.output.overtake direct

theorem Direct.refl (h : Open w) : Direct w w [] :=
  ⟨h, rfl, id, fun _ => by simp⟩

theorem Direct.trans {w'' : World α} {xs ys : List α} (h : Direct w w' xs) (h' : Direct w' w'' ys) :
    Direct w w'' (xs ++ ys) where
  «open» := h'.open
  socket := h'.socket.trans h.socket
  fits := h'.fits ∘ h.fits
  output := fun hf => by rw [h'.output (h.fits hf), h.output hf, Channel.overtake_overtake]

theorem Direct.emitted {w'' : World α} {direct tail : List α} (h : Direct w w' direct)
    (hf : w.Fits) (h' : Emitted w' w'' [] tail) : Emitted w w'' direct tail := by
  obtain ⟨n, hn⟩ := h'
  exact ⟨n, by rw [hn, h.output hf]; simp⟩

theorem sysWrite_direct (h : Open w) (xs : List α) :
    Direct w (w.sysWrite xs).2 (xs.take (w.wire.answers 0).count) where
  «open» := h.sysWrite xs
  socket := by rw [World.sysWrite_context]
  fits := fun hf => hf.sysWrite xs
  output := fun _ => by
    rw [World.output, sysWrite_accepted, World.sysWrite_context]
    rfl

theorem syncLoop_sent (hrem : 0 < remaining) (hr : 0 < (w.sysWrite (buf.take remaining.toNat)).1) :
    syncLoop buf (fuel + 1) remaining w =
      syncLoop buf fuel (remaining - (w.sysWrite (buf.take remaining.toNat)).1)
        (w.sysWrite (buf.take remaining.toNat)).2 := by
  rw [syncLoop, if_pos hrem, bind_of_ok (sysWrite_run _ _), if_pos hr]

theorem syncLoop_done (hrem : ¬ 0 < remaining) :
    syncLoop buf (fuel + 1) remaining w = .ok .success w := by
  rw [syncLoop, if_neg hrem]
  rfl

/-- Where nothing was sent the loop hands the rest to `asyncWrite` or gives up. -/
theorem syncLoop_stuck (fuel : Nat) (h : Open w) (hrem : 0 < remaining)
    (hr : ¬ 0 < (w.sysWrite (buf.take remaining.toNat)).1) :
    (∃ tail, tail ⊆ buf ∧ syncLoop buf (fuel + 1) remaining w =
      (do asyncWrite tail; pure .success : Exec α ER) (w.sysWrite (buf.take remaining.toNat)).2) ∨
    ∃ w', syncLoop buf (fuel + 1) remaining w = .ok .socketError w' ∧
      w'.output = (w.sysWrite (buf.take remaining.toNat)).2.output := by
  have ho := h.sysWrite (buf.take remaining.toNat)
  rw [syncLoop, if_pos hrem, bind_of_ok (sysWrite_run _ _), if_neg hr, bind_of_ok (errno_run _)]
  split
  · exact .inl ⟨_, List.Subset.trans (List.take_subset _ _) (List.drop_subset _ _), rfl⟩
  · split
    · exact .inr ⟨_, bind_of_ok (setState_run ho.live _), rfl⟩
    · exact .inr ⟨_, bind_of_ok (setState_run ho.live _), rfl⟩

/-- `direct` is what the loop wrote itself; it is empty exactly if the first pass
wrote nothing. -/
theorem syncLoop_cases (fuel : Nat) (buf : List α) (remaining : Int) (h : Open w)
    (hfuel : remaining.toNat < fuel) :
    ∃ w₁ direct, Direct w w₁ direct ∧ direct ⊆ buf ∧
      (w.Fits → (direct = [] ↔ (buf.take remaining.toNat).take (w.wire.answers 0).count = [])) ∧
      ((∃ tail, tail ⊆ buf ∧ syncLoop buf fuel remaining w =
        (do asyncWrite tail; pure .success : Exec α ER) w₁) ∨
      ∃ ret w', syncLoop buf fuel remaining w = .ok ret w' ∧ w'.output = w₁.output) := by
  induction fuel generalizing w remaining with
  | zero => omega
  | succ fuel ih =>
    have hpiece : (buf.take remaining.toNat).take (w.wire.answers 0).count ⊆ buf :=
      List.Subset.trans (List.take_subset _ _) (List.take_subset _ _)
    by_cases hrem : 0 < remaining
    · have hd := sysWrite_direct h (buf.take remaining.toNat)
      by_cases hr : 0 < (w.sysWrite (buf.take remaining.toNat)).1
      · obtain ⟨w₁, direct, hdirect, hsub, _, hend⟩ :=
          ih (remaining - (w.sysWrite (buf.take remaining.toNat)).1) hd.open (by omega)
        refine ⟨w₁, _, hd.trans hdirect, List.append_subset.2 ⟨hpiece, hsub⟩, fun hf => ?_, ?_⟩
        · have hcount := sysWrite_toNat (hf.counts (buf.take remaining.toNat).length)
          have hne : (buf.take remaining.toNat).take (w.wire.answers 0).count ≠ [] := by
            rw [← List.length_pos_iff, List.length_take]
            omega
          simp [hne]
        · rw [syncLoop_sent hrem hr]
          exact hend
      · refine ⟨_, _, hd, hpiece, fun _ => Iff.rfl, ?_⟩
        rcases syncLoop_stuck fuel h hrem hr with ht | ⟨w', hrun, hout⟩
        · exact .inl ht
        · exact .inr ⟨_, w', hrun, hout⟩
    · refine ⟨w, [], .refl h, List.nil_subset _, fun _ => ?_, .inr ⟨_, w, syncLoop_done hrem, rfl⟩⟩
      simp [Int.toNat_of_nonpos (not_lt.1 hrem)]

theorem syncWrite_open (h : Open w) (hfd : 0 < w.context.socket.fd) :
    syncWrite buf w = syncLoop buf ((toInt buf.length).toNat + 1) (toInt buf.length) w := by
  rw [syncWrite, guarded_open h, bind_of_ok (getFd_run h.live hfd)]

/-- The state and the kernel's answer for which `syncWrite` writes past the queue. -/
def Overtakes (w : World α) (buf : List α) : Prop :=
  Open w ∧ 0 < w.context.socket.fd ∧ w.context.wbuffer.bytes ≠ [] ∧ 0 < toInt buf.length ∧
    0 < (w.wire.answers 0).count

theorem syncWrite_run (h : Open w) (hfd : 0 < w.context.socket.fd) (buf : List α) :
    ∃ ret w', syncWrite buf w = .ok ret w' := by
  obtain ⟨w₁, direct, hd, _, _, ⟨tail, _, hrun⟩ | ⟨ret, w', hrun, _⟩⟩ :=
    syncLoop_cases _ buf (toInt buf.length) h (Nat.lt_succ_self _)
  · obtain ⟨w', hasync, _⟩ := asyncWrite_run hd.open (by rwa [hd.socket]) tail
    exact ⟨.success, w', by rw [syncWrite_open h hfd, hrun, bind_of_ok hasync]; rfl⟩
  · exact ⟨ret, w', (syncWrite_open h hfd).trans hrun⟩

theorem syncWrite_emitted (buf : List α) (hf : w.Fits) :
    ∃ direct tail, Emitted w (final (syncWrite buf w)) direct tail ∧ direct ⊆ buf ∧ tail ⊆ buf ∧
      (w.context.wbuffer.bytes ≠ [] → (direct ≠ [] ↔ Overtakes w buf)) := by
  by_cases h : Open w
  · by_cases hfd : 0 < w.context.socket.fd
    · obtain ⟨w₁, direct, hd, hsub, hempty, hend⟩ :=
        syncLoop_cases _ buf (toInt buf.length) h (Nat.lt_succ_self _)
      have hiff (hq : w.context.wbuffer.bytes ≠ []) : direct ≠ [] ↔ Overtakes w buf := by
        have hle := toInt_le (n := buf.length) (by omega)
        rw [ne_eq, hempty hf, ← ne_eq, ← List.length_pos_iff, List.length_take, List.length_take]
        constructor
        · intro hlen
          exact ⟨h, hfd, hq, by omega, by omega⟩
        · rintro ⟨_, _, _, hlen, hcount⟩
          omega
      rw [syncWrite_open h hfd]
      rcases hend with ⟨tail, htail, hrun⟩ | ⟨ret, w', hrun, hout⟩
      · refine ⟨direct, tail, ?_, hsub, htail, hiff⟩
        rw [hrun, final_bind_pure]
        exact hd.emitted hf (asyncWrite_emitted hd.open (hd.fits hf) tail)
      · refine ⟨direct, [], ?_, hsub, List.nil_subset _, hiff⟩
        rw [hrun]
        exact hd.emitted hf ⟨0, by simpa using hout⟩
    · refine ⟨[], [], ?_, List.nil_subset _, List.nil_subset _, fun _ => ?_⟩
      · rw [syncWrite, guarded_open h, bind_of_error (getFd_error h.live hfd)]
        exact .refl w
      · simp [Overtakes, hfd]
  · refine ⟨[], [], ?_, List.nil_subset _, List.nil_subset _, fun _ => ?_⟩
    · rw [syncWrite, guarded_final h]
      exact .refl w
    · simp [Overtakes, h]

end Sync

end Netier
