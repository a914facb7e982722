import Netier.Connection.Effects

/-! The read loop: a pass grows `__buffer` by a window of zeros and leaves exactly the
bytes that arrived, and the last answer decides the state. -/
namespace Netier
open Lib
variable {α : Type} {w w' : World α}

/-- The state the read loop ends in. -/
def ReadEnd.state : ReadEnd → State
  | .eof => .closed
  | .failed e => if e.again then .valid else .invalid

theorem ReadEnd.state_ne_moved (last : ReadEnd) : last.state ≠ .moved := by
  cases last with
  | eof => simp [state]
  | failed e => by_cases he : e.again = true <;> simp [state, he]

/-- From `w` to `w'` the bytes `data` were read and appended to `__buffer`, the state
became `s`, and nothing else changed but `errno` and the record. -/
structure Received (w w' : World α) (data : List α) (s : State) : Prop where
  context : w'.context = { w.context with
    buffer := ⟨w.context.buffer.bytes ++ data⟩
    state := some s }
  delivered : w'.wire.delivered = w.wire.delivered ++ data
  accepted : w'.wire.accepted = w.wire.accepted
  answers : w'.wire.answers = w.wire.answers
  taken : w'.taken = w.taken
  freed : w'.freed = w.freed
  inserted : w'.inserted = w.inserted
  kernel : w'.kernel = w.kernel

theorem Received.open (h : Received w w' data .valid) (ho : Open w) : Open w' :=
  ⟨h.freed.trans ho.live, by rw [h.context]⟩

theorem Received.trans {w'' : World α} {data data' : List α} {s s' : State}
    (h : Received w w' data s) (h' : Received w' w'' data' s') :
    Received w w'' (data ++ data') s' where
  context := by rw [h'.context, h.context, List.append_assoc]
  delivered := by rw [h'.delivered, h.delivered, List.append_assoc]
  accepted := h'.accepted.trans h.accepted
  answers := h'.answers.trans h.answers
  taken := h'.taken.trans h.taken
  freed := h'.freed.trans h.freed
  inserted := h'.inserted.trans h.inserted
  kernel := h'.kernel.trans h.kernel

theorem Block.toInt_length (b : Block α) : toInt b.bytes.length = b.bytes.length := by
  have h := b.length_le
  rw [toInt_of_lt] <;> simp only [readBufSize] at h <;> omega

variable [Zero α]

theorem getWriter_readBuf (b : Buffer α) :
    b.getWriter readBufSize = some (b.size, ⟨b.bytes ++ List.replicate readBufSize 0⟩) :=
  b.getWriter_pos (by decide)

theorem shrink_window (bytes data : List α) :
    ((⟨bytes ++ List.replicate readBufSize 0⟩ : Buffer α).store bytes.length data).shrink
      (readBufSize - data.length) = some ⟨bytes ++ data⟩ :=
  Buffer.shrink_store_window bytes data readBufSize

/-- A window cut back by its whole size leaves the buffer as it was. -/
theorem shrink_window_all (bytes : List α) :
    (⟨bytes ++ List.replicate readBufSize 0⟩ : Buffer α).shrink readBufSize = some ⟨bytes⟩ := by
  simp [Buffer.shrink, Buffer.size]

/-- The state a pass reaches when `read(2)` has returned. -/
def World.fetched (w : World α) (answer : ReadAnswer α) : World α :=
  ((w.assign { w.context with
    buffer := ⟨w.context.buffer.bytes ++ List.replicate readBufSize 0⟩ }).sysRead
      w.context.buffer.size answer).2

theorem readPass_run (answer : ReadAnswer α) (h : w.freed = false) :
    readPass answer w = readOutcome ((w.assign { w.context with
      buffer := ⟨w.context.buffer.bytes ++ List.replicate readBufSize 0⟩ }).sysRead
        w.context.buffer.size answer).1 (w.fetched answer) := by
  rw [readPass, bind_of_ok (this_run h)]
  simp only [getWriter_readBuf]
  rw [bind_of_ok (assign_run h _), bind_of_ok (sysRead_run _ _ _)]
  rfl

section Outcome
variable {u : Unit}

omit [Zero α] in
theorem readOutcome_again (he : w.wire.errno.again = true)
    (hb : onBuffer (fun b => b.shrink readBufSize) w = .ok u w') :
    readOutcome (-1) w = .ok false w' := by
  simp [readOutcome, bind_run, map_run, he, hb]

omit [Zero α] in
theorem readOutcome_eof (hb : onBuffer (fun b => b.shrink readBufSize) w = .ok u w')
    (hf : w'.freed = false) :
    readOutcome 0 w = .ok false (w'.assign { w'.context with state := some .closed }) := by
  simp [readOutcome, bind_run, map_run, hb, setState_run hf]

omit [Zero α] in
theorem readOutcome_failed (he : ¬ w.wire.errno.again = true)
    (hb : onBuffer (fun b => b.shrink readBufSize) w = .ok u w') (hf : w'.freed = false) :
    readOutcome (-1) w = .ok false (w'.assign { w'.context with state := some .invalid }) := by
  simp [readOutcome, bind_run, map_run, he, hb, setState_run hf]

end Outcome

theorem readPass_block (b : Block α) (h : Open w) :
    ∃ w', readPass (.block b) w = .ok true w' ∧ Received w w' b.bytes .valid := by
  have hn := b.toInt_length
  have hpos := List.length_pos_iff.mpr b.nonempty
  have hle := b.length_le
  have hlive : (w.fetched (.block b)).freed = false := h.live
  have hcut := shrink_window w.context.buffer.bytes b.bytes
  rw [readPass_run _ h.live, readOutcome]
  simp only [World.sysRead, hn]
  rw [if_pos (by omega)]
  split
  · rw [bind_of_ok (onBuffer_run hlive hcut)]
    refine ⟨_, rfl, ?_, rfl, rfl, rfl, rfl, rfl, rfl, rfl⟩
    simp [World.fetched, World.sysRead, World.assign, World.log, h.valid]
  · -- a full block leaves no room to cut back, and the source skips the call
    rename_i hnot
    have hfull : b.bytes.length = readBufSize := by
      simp only [readBufSize, toInt] at hnot hle ⊢
      omega
    refine ⟨_, rfl, ?_, rfl, rfl, rfl, rfl, rfl, rfl, rfl⟩
    rw [hfull, Nat.sub_self, Buffer.shrink_zero, Option.some.injEq] at hcut
    simp [World.fetched, World.sysRead, World.assign, World.log, h.valid, Buffer.size, hcut]

theorem readPass_last (last : ReadEnd) (h : Open w) :
    ∃ w', readPass (last.answer (α := α)) w = .ok false w' ∧ Received w w' [] last.state := by
  have hcut := shrink_window_all w.context.buffer.bytes
  have hlive : (w.fetched last.answer).freed = false := by
    cases last <;> exact h.live
  have hbuf : onBuffer (fun b => b.shrink readBufSize) (w.fetched last.answer) =
      .ok ⟨⟩ ((w.fetched last.answer).assign { (w.fetched last.answer).context with
        buffer := w.context.buffer }) := by
    apply onBuffer_run hlive
    cases last <;> exact hcut
  rw [readPass_run _ h.live]
  cases last with
  | eof =>
    refine ⟨_, readOutcome_eof hbuf h.live, ?_, ?_, rfl, rfl, rfl, rfl, rfl, rfl⟩
    · simp [ReadEnd.answer, World.fetched, World.sysRead, World.assign, World.log, ReadEnd.state]
    · simp [ReadEnd.answer, World.fetched, World.sysRead, World.assign, World.log]
  | failed e =>
    by_cases he : e.again = true
    · refine ⟨_, readOutcome_again he hbuf, ?_, ?_, rfl, rfl, rfl, rfl, rfl, rfl⟩
      · simp [ReadEnd.answer, World.fetched, World.sysRead, World.assign, World.log, ReadEnd.state, he,
          h.valid]
      · simp [ReadEnd.answer, World.fetched, World.sysRead, World.assign, World.log]
    · refine ⟨_, readOutcome_failed he hbuf h.live, ?_, ?_, rfl, rfl, rfl, rfl, rfl, rfl⟩
      · simp [ReadEnd.answer, World.fetched, World.sysRead, World.assign, World.log, ReadEnd.state, he]
      · simp [ReadEnd.answer, World.fetched, World.sysRead, World.assign, World.log]

/-- The read loop appends all the blocks in order, whatever ends it. -/
theorem readLoop_run (blocks : List (Block α)) (last : ReadEnd) (h : Open w) :
    ∃ w', readLoop blocks last w = .ok ⟨⟩ w' ∧
      Received w w' (blocks.flatMap Block.bytes) last.state := by
  induction blocks generalizing w with
  | nil =>
    obtain ⟨w', hr, hw⟩ := readPass_last last h
    exact ⟨w', by rw [readLoop, bind_of_ok hr]; rfl, hw⟩
  | cons b bs ih =>
    obtain ⟨w₁, hr, hw₁⟩ := readPass_block b h
    obtain ⟨w', hr', hw'⟩ := ih (hw₁.open h)
    refine ⟨w', ?_, hw₁.trans hw'⟩
    rw [readLoop, bind_of_ok hr]
    exact hr'

end Netier
