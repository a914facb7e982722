import Netier.Connection.Output

/-! The loops around `write(2)` as functions of the kernel's answers: how many bytes each
pass sends, and what ends the loop. -/
namespace Netier
open Lib
variable {α : Type} {w w' : World α}

/-- What ends a loop around `write(2)`: nothing is left to send, or an answer. -/
inductive Stop where
  | done
  | again
  | eof
  | error
  deriving DecidableEq, Repr

/-- The state the loop leaves the connection in. -/
def Stop.state : Stop → State
  | .done | .again => .valid
  | .eof => .closed
  | .error => .invalid

/-- The answers that sent nothing. -/
def Stop.answers : Stop → Nat
  | .done => 0
  | _ => 1

/-- A loop that has ended: the bytes sent by each pass, and what ended it. -/
structure Passes where
  counts : List Nat
  stop : Stop

namespace Passes

def sent (p : Passes) : Nat := p.counts.sum

/-- How many answers the loop took. -/
def used (p : Passes) : Nat := p.counts.length + p.stop.answers

def after (k : Nat) (p : Passes) : Passes := ⟨k :: p.counts, p.stop⟩

@[simp] theorem sent_after (k : Nat) (p : Passes) : (p.after k).sent = k + p.sent := List.sum_cons

@[simp] theorem used_after (k : Nat) (p : Passes) : (p.after k).used = p.used + 1 := by
  simp only [used, after, List.length_cons]
  omega

end Passes

/-- At most so many passes over `n` bytes. -/
def passesUpTo : Nat → (Nat → WriteAnswer) → Nat → Passes
  | 0, _, _ => ⟨[], .done⟩
  | fuel + 1, answers, n =>
    if n = 0 then ⟨[], .done⟩
    else match answers 0 with
      | .room 0 => ⟨[], .eof⟩
      | .room (k + 1) =>
        (passesUpTo fuel (fun i => answers (i + 1)) (n - min (k + 1) n)).after (min (k + 1) n)
      | .failed e => ⟨[], if e.again then .again else .error⟩

/-- The passes over `n` bytes; every one but the last sends a byte. -/
def passes (answers : Nat → WriteAnswer) (n : Nat) : Passes := passesUpTo (n + 1) answers n

section Counts
variable {answers : Nat → WriteAnswer} {fuel n : Nat}

theorem passesUpTo_sent_le (fuel : Nat) (answers : Nat → WriteAnswer) (n : Nat) :
    (passesUpTo fuel answers n).sent ≤ n := by
  induction fuel generalizing answers n with
  | zero => exact Nat.zero_le _
  | succ fuel ih =>
    unfold passesUpTo
    split
    · exact Nat.zero_le _
    · split
      · exact Nat.zero_le _
      · rename_i k _
        have hrest := ih (fun i => answers (i + 1)) (n - min (k + 1) n)
        rw [Passes.sent_after]
        omega
      · exact Nat.zero_le _

theorem passesUpTo_done (hfuel : n < fuel) (h : (passesUpTo fuel answers n).stop = .done) :
    (passesUpTo fuel answers n).sent = n := by
  induction fuel generalizing answers n with
  | zero => omega
  | succ fuel ih =>
    unfold passesUpTo at h ⊢
    split
    · rename_i hn
      rw [hn]
      rfl
    · rename_i hn
      rw [if_neg hn] at h
      split
      · rename_i ha
        rw [ha] at h
        cases h
      · rename_i k ha
        rw [ha] at h
        have hrest := ih (n := n - min (k + 1) n) (by omega) h
        rw [Passes.sent_after, hrest]
        omega
      · rename_i e ha
        rw [ha] at h
        cases he : e.again <;> simp [he] at h

theorem passes_sent_le (answers : Nat → WriteAnswer) (n : Nat) : (passes answers n).sent ≤ n :=
  passesUpTo_sent_le _ _ _

theorem passes_done (h : (passes answers n).stop = .done) : (passes answers n).sent = n :=
  passesUpTo_done (Nat.lt_succ_self n) h

end Counts

section Answer
variable {buf : List α}

theorem sysWrite_answers (w : World α) (buf : List α) :
    (w.sysWrite buf).2.wire.answers = fun i => w.wire.answers (i + 1) := by
  cases h : w.wire.answers 0 <;> simp [World.sysWrite, h]

theorem sysWrite_eof (buf : List α) (h : w.wire.answers 0 = .room 0) : (w.sysWrite buf).1 = 0 := by
  simp [World.sysWrite, h, toInt]

theorem sysWrite_failed (buf : List α) {e : Errno} (h : w.wire.answers 0 = .failed e) :
    (w.sysWrite buf).1 = -1 ∧ (w.sysWrite buf).2.wire.errno = e := by
  simp [World.sysWrite, h]

theorem sysWrite_room (buf : List α) {k : Nat} (h : w.wire.answers 0 = .room (k + 1)) (hc : w.Counts buf.length) :
    (w.sysWrite buf).1 = (min (k + 1) buf.length : Nat) := by
  have hlt := hc 0 (k + 1) h
  have hint : toInt (min (k + 1) buf.length : Nat) = (min (k + 1) buf.length : Nat) := by
    apply toInt_of_lt <;> omega
  simp only [World.sysWrite, h]
  exact hint

/-- An answer that sends nothing leaves only its errno and the record. -/
theorem sysWrite_nothing (h : (w.wire.answers 0).count = 0) :
    (w.sysWrite buf).2.wire.accepted = w.wire.accepted := by
  rw [sysWrite_accepted, h, List.take_zero, List.append_nil]

end Answer

/-- The last thing that happened is that `write(2)` answered to try again. -/
def Blocked (w : World α) : Prop :=
  ∃ n e c rest, w.history = ⟨.write n (.failed e), c⟩ :: rest ∧ e.again = true

theorem sysWrite_blocked {buf : List α} {e : Errno} (h : w.wire.answers 0 = .failed e)
    (he : e.again = true) : Blocked (w.sysWrite buf).2 := by
  refine ⟨buf.length, e, w.context, w.history, ?_, he⟩
  simp [World.sysWrite, h, World.log]

/-- The passes `p` were over the front of `__wbuffer`. -/
structure Flushed (w w' : World α) (p : Passes) : Prop where
  accepted : w'.wire.accepted = w.wire.accepted ++ w.context.wbuffer.bytes.take p.sent
  wbuffer : w'.context.wbuffer.bytes = w.context.wbuffer.bytes.drop p.sent
  answers : w'.wire.answers = fun i => w.wire.answers (i + p.used)
  state : w'.context.state = some p.stop.state
  blocked : p.stop = .again → Blocked w'

theorem Flushed.after {w₁ : World α} {k : Nat} {p : Passes} (h : Flushed w₁ w' p)
    (haccepted : w₁.wire.accepted = w.wire.accepted ++ w.context.wbuffer.bytes.take k)
    (hwbuffer : w₁.context.wbuffer.bytes = w.context.wbuffer.bytes.drop k)
    (hanswers : w₁.wire.answers = fun i => w.wire.answers (i + 1)) :
    Flushed w w' (p.after k) where
  accepted := by
    rw [h.accepted, haccepted, hwbuffer, Passes.sent_after, List.take_add, List.append_assoc]
  wbuffer := by rw [h.wbuffer, hwbuffer, List.drop_drop, Passes.sent_after]
  answers := by
    rw [h.answers, hanswers]
    funext i
    show w.wire.answers (i + p.used + 1) = _
    rw [Passes.used_after, Nat.add_assoc]
  state := h.state
  blocked := h.blocked

section Flush
variable {fuel : Nat}

/-- A pass that sends nothing is the last. -/
theorem Flushed.stopped {stop : Stop} (hs : stop.answers = 1) (hnone : (w.wire.answers 0).count = 0)
    (hstate : w'.context.state = some stop.state)
    (hwire : w'.wire = (w.sysWrite w.context.wbuffer.bytes).2.wire)
    (hwbuffer : w'.context.wbuffer = w.context.wbuffer) (hblocked : stop = .again → Blocked w') :
    Flushed w w' ⟨[], stop⟩ where
  accepted := by
    rw [hwire, sysWrite_nothing hnone]
    simp [Passes.sent]
  wbuffer := by
    rw [hwbuffer]
    simp [Passes.sent]
  answers := by
    rw [hwire, sysWrite_answers]
    simp [Passes.used, hs]
  state := hstate
  blocked := hblocked

theorem flushLoop_eof (h : Open w) (hsize : 0 < w.context.wbuffer.size)
    (ha : w.wire.answers 0 = .room 0) :
    ∃ w', flushLoop (fuel + 1) w = .ok ⟨⟩ w' ∧ Flushed w w' ⟨[], .eof⟩ := by
  have ho := h.sysWrite w.context.wbuffer.bytes
  have hret := sysWrite_eof w.context.wbuffer.bytes ha
  rw [flushLoop, bind_of_ok (this_run h.live), if_pos hsize, bind_of_ok (sysWrite_run _ _),
    if_neg (by omega), bind_of_ok (errno_run _), if_neg (by omega), if_pos hret]
  refine ⟨_, setState_run ho.live _, .stopped rfl (by rw [ha]; rfl) rfl rfl ?_ (by simp)⟩
  simp

theorem flushLoop_failed (h : Open w) (hsize : 0 < w.context.wbuffer.size) {e : Errno}
    (ha : w.wire.answers 0 = .failed e) :
    ∃ w', flushLoop (fuel + 1) w = .ok ⟨⟩ w' ∧
      Flushed w w' ⟨[], if e.again then .again else .error⟩ := by
  have ho := h.sysWrite w.context.wbuffer.bytes
  have hnone : (w.wire.answers 0).count = 0 := by rw [ha]; rfl
  obtain ⟨hret, herrno⟩ := sysWrite_failed w.context.wbuffer.bytes ha
  rw [flushLoop, bind_of_ok (this_run h.live), if_pos hsize, bind_of_ok (sysWrite_run _ _),
    if_neg (by omega), bind_of_ok (errno_run _), herrno]
  by_cases he : e.again = true
  · rw [if_pos ⟨hret, he⟩, if_pos he]
    refine ⟨_, rfl, .stopped rfl hnone ho.valid rfl ?_ fun _ => sysWrite_blocked ha he⟩
    simp
  · rw [if_neg fun hand => he hand.2, if_neg (by omega), if_neg he]
    refine ⟨_, setState_run ho.live _, .stopped rfl hnone rfl rfl ?_ (by simp)⟩
    simp

/-- The loop of `flushWriteBuffer`, for every course the kernel's answers can take. -/
theorem flushLoop_passes (fuel : Nat) (h : Open w) (hc : w.Counts w.context.wbuffer.size)
    (hfuel : w.context.wbuffer.size < fuel) :
    ∃ w', flushLoop fuel w = .ok ⟨⟩ w' ∧
      Flushed w w' (passesUpTo fuel w.wire.answers w.context.wbuffer.size) := by
  induction fuel generalizing w with
  | zero => omega
  | succ fuel ih =>
    by_cases hsize : 0 < w.context.wbuffer.size
    · unfold passesUpTo
      rw [if_neg hsize.ne']
      cases ha : w.wire.answers 0 with
      | room k =>
        cases k with
        | zero => exact flushLoop_eof h hsize ha
        | succ k =>
          have hret := sysWrite_room w.context.wbuffer.bytes ha hc
          have hk : 0 < min (k + 1) w.context.wbuffer.bytes.length := by
            simp only [Buffer.size] at hsize
            omega
          have hsmaller : w.flushed.context.wbuffer.size =
              w.context.wbuffer.size - min (k + 1) w.context.wbuffer.size := by
            simp only [World.flushed, World.assign_context, Buffer.size, List.length_drop, hret,
              Int.toNat_natCast]
          have hanswers : w.flushed.wire.answers = fun i => w.wire.answers (i + 1) :=
            sysWrite_answers w _
          obtain ⟨w', hrun, hflush⟩ := ih (flushed_open h)
            ((hc.later hanswers).mono (by omega)) (by simp only [Buffer.size] at *; omega)
          rw [hsmaller, hanswers] at hflush
          refine ⟨w', (flushLoop_sent h hsize (by omega)).trans hrun, hflush.after ?_ ?_ hanswers⟩
          · have haccepted : w.flushed.wire.accepted =
              (w.sysWrite w.context.wbuffer.bytes).2.wire.accepted := rfl
            rw [haccepted, sysWrite_accepted, ha, Buffer.size, WriteAnswer.count,
              List.take_eq_take_min]
          · simp only [World.flushed, World.assign_context, hret, Int.toNat_natCast, Buffer.size]
      | failed e => exact flushLoop_failed h hsize ha
    · refine ⟨w, flushLoop_done h hsize, ?_⟩
      have hzero : w.context.wbuffer.size = 0 := by omega
      rw [passesUpTo, if_pos hzero]
      exact ⟨by simp [Passes.sent], by simp [Passes.sent], by simp [Passes.used, Stop.answers],
        h.valid, by simp⟩

end Flush

section Calls

theorem flushWriteBuffer_passes (h : Open w) (hfd : 0 < w.context.socket.fd)
    (hc : w.Counts w.context.wbuffer.size) :
    ∃ w', flushWriteBuffer w = .ok ⟨⟩ w' ∧
      Flushed w w' (passes w.wire.answers w.context.wbuffer.size) := by
  rw [flushWriteBuffer_open h hfd]
  exact flushLoop_passes _ h hc (Nat.lt_succ_self _)

theorem size_queued (w : World α) (buf : List α) :
    (w.queued buf).context.wbuffer.size = w.context.wbuffer.size + buf.length :=
  List.length_append

theorem asyncWrite_passes (h : Open w) (hfd : 0 < w.context.socket.fd) (buf : List α)
    (hc : w.Counts (w.context.wbuffer.size + buf.length)) :
    ∃ w', asyncWrite buf w = .ok ⟨⟩ w' ∧
      Flushed (w.queued buf) w' (passes w.wire.answers (w.context.wbuffer.size + buf.length)) := by
  rw [← size_queued] at hc ⊢
  rw [asyncWrite_open h]
  exact flushWriteBuffer_passes (queued_open h buf) hfd hc

theorem writeFile_passes [Zero α] (h : Open w) (hfd : 0 < w.context.socket.fd) (f : FileStream α)
    (hc : w.Counts (w.context.wbuffer.size + f.content.length)) :
    ∃ w', writeFile (some f) w = .ok .success w' ∧ w'.context.state =
      some (passes w.wire.answers (w.context.wbuffer.size + f.content.length)).stop.state := by
  obtain ⟨w₁, hq, hrun⟩ := writeFile_open h f
  have hsize : w₁.context.wbuffer.size = w.context.wbuffer.size + f.content.length := by
    have hbytes := congrArg (fun o : Channel α => o.queue.length) hq.output
    simpa [World.output, Channel.enqueue, Buffer.size] using hbytes
  have hc₁ : w₁.Counts w₁.context.wbuffer.size := by
    unfold World.Counts
    rw [hsize, hq.answers]
    exact hc
  obtain ⟨w', hflush, hpasses⟩ := flushWriteBuffer_passes hq.open (by rwa [hq.socket]) hc₁
  refine ⟨w', by rw [hrun, bind_of_ok hflush]; rfl, ?_⟩
  rw [hpasses.state, hq.answers, hsize]

end Calls

/-- The result `syncWrite` returns where its own loop ends. -/
def Stop.result : Stop → ER
  | .done | .again => .success
  | .eof | .error => .socketError

/-- The passes `p` were over `buf`, each from its start. -/
structure Wrote (w w' : World α) (buf : List α) (p : Passes) : Prop where
  accepted : w'.wire.accepted = w.wire.accepted ++ p.counts.flatMap buf.take
  context : w'.context = { w.context with state := some p.stop.state }
  answers : w'.wire.answers = fun i => w.wire.answers (i + p.used)
  live : w'.freed = false

theorem Wrote.after {w₁ : World α} {buf : List α} {k : Nat} {p : Passes} (h : Wrote w₁ w' buf p)
    (haccepted : w₁.wire.accepted = w.wire.accepted ++ buf.take k)
    (hcontext : w₁.context = w.context)
    (hanswers : w₁.wire.answers = fun i => w.wire.answers (i + 1)) :
    Wrote w w' buf (p.after k) where
  accepted := by
    rw [h.accepted, haccepted, List.append_assoc]
    rfl
  context := by
    rw [h.context, hcontext]
    rfl
  answers := by
    rw [h.answers, hanswers]
    funext i
    show w.wire.answers (i + p.used + 1) = _
    rw [Passes.used_after, Nat.add_assoc]
  live := h.live

section Sync
variable {buf : List α} {remaining : Int} {fuel : Nat}

theorem Wrote.stopped {stop : Stop} (hs : stop.answers = 1) (hnone : (w.wire.answers 0).count = 0)
    (hcontext : w'.context = { w.context with state := some stop.state })
    (hwire : w'.wire = (w.sysWrite (buf.take remaining.toNat)).2.wire) (hlive : w'.freed = false) :
    Wrote w w' buf ⟨[], stop⟩ where
  accepted := by
    rw [hwire, sysWrite_nothing hnone]
    simp
  context := hcontext
  answers := by
    rw [hwire, sysWrite_answers]
    simp [Passes.used, hs]
  live := hlive

theorem syncLoop_eof (h : Open w) (hrem : 0 < remaining) (ha : w.wire.answers 0 = .room 0) :
    ∃ w', Wrote w w' buf ⟨[], .eof⟩ ∧ syncLoop buf (fuel + 1) remaining w = .ok .socketError w' := by
  have ho := h.sysWrite (buf.take remaining.toNat)
  have hret := sysWrite_eof (buf.take remaining.toNat) ha
  rw [syncLoop, if_pos hrem, bind_of_ok (sysWrite_run _ _), if_neg (by omega),
    bind_of_ok (errno_run _), if_neg (by omega), if_pos hret, bind_of_ok (setState_run ho.live _),
    World.sysWrite_context]
  refine ⟨_, ?_, rfl⟩
  exact .stopped rfl (by rw [ha]; rfl) rfl rfl ho.live

theorem syncLoop_error (h : Open w) (hrem : 0 < remaining) {e : Errno}
    (ha : w.wire.answers 0 = .failed e) (he : ¬ e.again = true) :
    ∃ w', Wrote w w' buf ⟨[], .error⟩ ∧ syncLoop buf (fuel + 1) remaining w = .ok .socketError w' := by
  have ho := h.sysWrite (buf.take remaining.toNat)
  obtain ⟨hret, herrno⟩ := sysWrite_failed (buf.take remaining.toNat) ha
  rw [syncLoop, if_pos hrem, bind_of_ok (sysWrite_run _ _), if_neg (by omega),
    bind_of_ok (errno_run _), herrno, if_neg fun hand => he hand.2, if_neg (by omega),
    bind_of_ok (setState_run ho.live _), World.sysWrite_context]
  refine ⟨_, ?_, rfl⟩
  exact .stopped rfl (by rw [ha]; rfl) rfl rfl ho.live

/-- Told to try again, the loop hands on all that it has not sent. -/
theorem syncLoop_again (h : Open w) (hrem : 0 < remaining) (hle : remaining.toNat ≤ buf.length)
    {e : Errno} (ha : w.wire.answers 0 = .failed e) (he : e.again = true) :
    ∃ w', Wrote w w' buf ⟨[], .again⟩ ∧ syncLoop buf (fuel + 1) remaining w = (do
      asyncWrite (buf.drop (buf.length - remaining.toNat))
      pure .success : Exec α ER) w' := by
  have ho := h.sysWrite (buf.take remaining.toNat)
  obtain ⟨hret, herrno⟩ := sysWrite_failed (buf.take remaining.toNat) ha
  rw [syncLoop, if_pos hrem, bind_of_ok (sysWrite_run _ _), if_neg (by omega),
    bind_of_ok (errno_run _), herrno, if_pos ⟨hret, he⟩, if_pos hrem]
  refine ⟨_, .stopped rfl (by rw [ha]; rfl) ?_ rfl ho.live, ?_⟩
  · rw [World.sysWrite_context, Stop.state, ← h.valid]
  · rw [List.take_of_length_le (by rw [List.length_drop]; omega)]

/-- The loop of `syncWrite`, for every course the kernel's answers can take. -/
theorem syncLoop_passes (fuel : Nat) (remaining : Int) (h : Open w)
    (hc : w.Counts remaining.toNat) (hle : remaining.toNat ≤ buf.length)
    (hfuel : remaining.toNat < fuel) {p : Passes}
    (hp : p = passesUpTo fuel w.wire.answers remaining.toNat) :
    ∃ w', Wrote w w' buf p ∧ syncLoop buf fuel remaining w =
      (if p.stop = .again then (do
        asyncWrite (buf.drop (buf.length - (remaining.toNat - p.sent)))
        pure .success)
      else pure p.stop.result : Exec α ER) w' := by
  induction fuel generalizing w remaining p with
  | zero => omega
  | succ fuel ih =>
    by_cases hrem : 0 < remaining
    · have hpos : remaining.toNat ≠ 0 := by omega
      have hlength : (buf.take remaining.toNat).length = remaining.toNat :=
        List.length_take_of_le hle
      unfold passesUpTo at hp
      rw [if_neg hpos] at hp
      cases ha : w.wire.answers 0 with
      | room k =>
        simp only [ha] at hp
        subst hp
        cases k with
        | zero => exact syncLoop_eof h hrem ha
        | succ k =>
          have hcount := sysWrite_room (buf.take remaining.toNat) ha (by rwa [hlength])
          rw [hlength] at hcount
          have hless : (remaining - (w.sysWrite (buf.take remaining.toNat)).1).toNat =
              remaining.toNat - min (k + 1) remaining.toNat := by omega
          obtain ⟨w', hwrote, hrun⟩ := ih (remaining - (w.sysWrite (buf.take remaining.toNat)).1)
            (h.sysWrite (buf.take remaining.toNat)) ((hc.later (sysWrite_answers w _)).mono (by omega))
            (by omega) (by omega) rfl
          rw [hless, sysWrite_answers] at hwrote hrun
          refine ⟨w', hwrote.after ?_ (by simp) (sysWrite_answers w _), ?_⟩
          · rw [sysWrite_accepted, ha, WriteAnswer.count, List.take_take]
          · rw [syncLoop_sent hrem (by omega), hrun, Passes.sent_after, Nat.sub_add_eq]
            rfl
      | failed e =>
        simp only [ha] at hp
        by_cases he : e.again = true
        · rw [if_pos he] at hp
          subst hp
          exact syncLoop_again h hrem hle ha he
        · rw [if_neg he] at hp
          subst hp
          exact syncLoop_error h hrem ha he
    · have hzero : remaining.toNat = 0 := by omega
      rw [hzero, passesUpTo, if_pos rfl] at hp
      subst hp
      refine ⟨w, ⟨by simp, ?_, by simp [Passes.used, Stop.answers], h.live⟩, syncLoop_done hrem⟩
      rw [Stop.state, ← h.valid]

end Sync

theorem syncWrite_passes (h : Open w) (hfd : 0 < w.context.socket.fd) (buf : List α)
    (hc : w.Counts (toInt buf.length).toNat) {p : Passes}
    (hp : p = passes w.wire.answers (toInt buf.length).toNat) :
    ∃ w', Wrote w w' buf p ∧ syncWrite buf w =
      (if p.stop = .again then (do
        asyncWrite (buf.drop (buf.length - ((toInt buf.length).toNat - p.sent)))
        pure .success)
      else pure p.stop.result : Exec α ER) w' := by
  have hle := toInt_le (n := buf.length) (by omega)
  rw [syncWrite_open h hfd]
  exact syncLoop_passes _ _ h hc (by omega) (Nat.lt_succ_self _) hp

end Netier
