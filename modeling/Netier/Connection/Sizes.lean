import Netier.Connection.Fate
import Netier.Connection.Record
import Netier.Connection.ShortWrites

/-! `syncWrite` at every size: what becomes of the bytes where the kernel never refuses one
for good, and how much each pass of its loop asks for. -/
namespace Netier
open Lib
variable {α : Type} {w w' : World α} {buf direct queued : List α}

/-- The kernel takes at least a byte, or says to try again. -/
def WriteAnswer.Willing : WriteAnswer → Prop
  | .room n => 0 < n ∧ n ≤ writeMax
  | .failed e => e.again = true

def World.Willing (w : World α) : Prop := ∀ i, (w.wire.answers i).Willing

/-- The calls of `write(2)` at the start of a record, oldest first: what each requested and
what the kernel took. -/
def directWrites : List (Moment α) → List (Nat × Nat)
  | ⟨.write n answer, _⟩ :: rest => (n, min answer.count n) :: directWrites rest
  | _ => []

/-- No call requests more than the calls before it have left of so many bytes. -/
def Within : Nat → List (Nat × Nat) → Prop
  | _, [] => True
  | left, (requested, taken) :: rest => requested ≤ left ∧ Within (left - taken) rest

/-- A call that succeeds has written or queued every byte, and no call of `write(2)` that
`syncWrite` makes itself asks for more than is left. -/
structure Accounts (w : World α) (buf : List α) : Prop where
  bytes : ∀ w', syncWrite buf w = .ok .success w' → ∃ direct queued, direct ⊆ buf ∧ queued <:+ buf ∧
    Emitted w w' direct queued ∧ direct.length + queued.length = buf.length
  requests : ∀ log, (final (syncWrite buf w)).history = log ++ w.history →
    Within buf.length (directWrites log.reverse)

namespace World.Willing

theorem fits (h : w.Willing) : w.Fits := by
  intro i n hn
  have hi := h i
  rw [hn] at hi
  exact hi.2

theorem later (h : w.Willing) {used : Nat}
    (hw : w'.wire.answers = fun i => w.wire.answers (i + used)) : w'.Willing := by
  intro i
  rw [hw]
  exact h (i + used)

end World.Willing

section Bytes

/-- The bytes of a call, sent or still queued, are as many as the output has gained. -/
theorem Emitted.length (h : Emitted w w' direct queued) :
    w'.output.contents.length = w.output.contents.length + (direct.length + queued.length) := by
  obtain ⟨n, hn⟩ := h
  rw [hn, Channel.contents_drain, Channel.contents_enqueue]
  simp only [Channel.contents, Channel.overtake, List.length_append]
  omega

theorem Emitted.length_unique {direct' queued' : List α} (h : Emitted w w' direct queued)
    (h' : Emitted w w' direct' queued') :
    direct.length + queued.length = direct'.length + queued'.length := by
  have hl := h.length
  have hl' := h'.length
  omega

theorem passesUpTo_willing (fuel : Nat) (answers : Nat → WriteAnswer) (n : Nat)
    (hw : ∀ i, (answers i).Willing) :
    (passesUpTo fuel answers n).stop = .done ∨ (passesUpTo fuel answers n).stop = .again := by
  induction fuel generalizing answers n with
  | zero => exact .inl rfl
  | succ fuel ih =>
    have h0 := hw 0
    unfold passesUpTo
    split
    · exact .inl rfl
    · split
      · rename_i ha
        rw [ha] at h0
        exact absurd h0.1 (by omega)
      · exact ih _ _ fun i => hw (i + 1)
      · rename_i e ha
        rw [ha] at h0
        exact .inr (if_pos h0)

theorem passes_willing (n : Nat) (hw : w.Willing) :
    (passes w.wire.answers n).stop = .done ∨ (passes w.wire.answers n).stop = .again :=
  passesUpTo_willing _ _ n hw

theorem flatMap_take_subset (buf : List α) (counts : List Nat) : counts.flatMap buf.take ⊆ buf := by
  intro b hb
  obtain ⟨k, _, hk⟩ := List.mem_flatMap.1 hb
  exact List.take_subset k buf hk

/-- What the loop wrote itself, seen as an operation on the output. -/
theorem Wrote.emitted {p : Passes} {w₁ : World α} {tail : List α} (h : Wrote w w₁ buf p)
    (h' : Emitted w₁ w' [] tail) : Emitted w w' (p.counts.flatMap buf.take) tail := by
  obtain ⟨n, hn⟩ := h'
  refine ⟨n, ?_⟩
  rw [hn, Channel.overtake_nil]
  simp only [World.output, Channel.overtake, h.accepted, h.context]

/-- With such a kernel the call succeeds, and it writes or queues as many bytes as the
conversion of the size to `int` has left of them. -/
theorem syncWrite_total (h : Open w) (hfd : 0 < w.context.socket.fd) (hw : w.Willing)
    (buf : List α) :
    ∃ w' direct queued, syncWrite buf w = .ok .success w' ∧ direct ⊆ buf ∧ queued <:+ buf ∧
      Emitted w w' direct queued ∧ direct.length + queued.length = (toInt buf.length).toNat := by
  have hle := toInt_le (n := buf.length) (by omega)
  obtain ⟨w₁, hwrote, hrun⟩ := syncWrite_passes h hfd buf (hw.fits.counts _) rfl
  have hsent := passes_sent_le w.wire.answers (toInt buf.length).toNat
  have hdone : (passes w.wire.answers (toInt buf.length).toNat).stop = .done → _ := passes_done
  have hstop := passes_willing (toInt buf.length).toNat hw
  generalize passes w.wire.answers (toInt buf.length).toNat = p at *
  have hdirect : (p.counts.flatMap buf.take).length = p.sent :=
    length_flatMap_take (by simp only [Passes.sent] at hsent; omega)
  have hsub := flatMap_take_subset buf p.counts
  rcases hstop with hstop | hstop
  · rw [hstop] at hrun
    refine ⟨w₁, _, [], hrun, hsub, List.nil_suffix, hwrote.emitted (.refl w₁), ?_⟩
    rw [hdirect, hdone hstop, List.length_nil, Nat.add_zero]
  · rw [if_pos hstop] at hrun
    have ho : Open w₁ := ⟨hwrote.live, by rw [hwrote.context, hstop]; rfl⟩
    have hw₁ : w₁.Willing := hw.later hwrote.answers
    obtain ⟨w', hasync, hqueued⟩ := asyncWrite_run ho (by rw [hwrote.context]; exact hfd)
      (buf.drop (buf.length - ((toInt buf.length).toNat - p.sent)))
    rw [bind_of_ok hasync] at hrun
    refine ⟨w', _, _, hrun, hsub, List.drop_suffix _ _, hwrote.emitted (hqueued hw₁.fits), ?_⟩
    rw [hdirect, List.length_drop]
    omega

end Bytes

section Requests
variable {fuel : Nat} {remaining : Int} {left : Nat}

/-- The record of a part of a call: its writes stay within what is left. -/
def Asks (left : Nat) (w w' : World α) : Prop :=
  ∃ log, w'.history = log ++ w.history ∧ Within left (directWrites log.reverse)

theorem Asks.refl (left : Nat) (w : World α) : Asks left w w := ⟨[], rfl, trivial⟩

/-- A record that goes on with an assignment has no more direct writes. -/
theorem Asks.of_assign {c : Context α} (h : Grew (fun _ => True) (w.assign c) w') :
    Asks left w w' := by
  obtain ⟨log, hlog, _⟩ := h
  refine ⟨log ++ [⟨.assign, c⟩], ?_, ?_⟩
  · rw [hlog, List.append_assoc]
    rfl
  · rw [List.reverse_append]
    trivial

theorem sysWrite_history (w : World α) (buf : List α) :
    (w.sysWrite buf).2.history = ⟨.write buf.length (w.wire.answers 0), w.context⟩ :: w.history := by
  cases h : w.wire.answers 0 <;> simp [World.sysWrite, h, World.log]

theorem Asks.sysWrite {xs : List α} (hle : xs.length ≤ left)
    (h : Asks (left - min (w.wire.answers 0).count xs.length) (w.sysWrite xs).2 w') :
    Asks left w w' := by
  obtain ⟨log, hlog, hwithin⟩ := h
  refine ⟨log ++ [⟨.write xs.length (w.wire.answers 0), w.context⟩], ?_, ?_⟩
  · rw [hlog, sysWrite_history, List.append_assoc]
    rfl
  · rw [List.reverse_append]
    exact ⟨hle, hwithin⟩

theorem asyncWrite_asks (h : Open w) (buf : List α) : Asks left w (final (asyncWrite buf w)) := by
  rw [asyncWrite_open h]
  exact .of_assign (grew_of_effect (fun _ _ _ _ _ => trivial) flushWriteBuffer_effect)

/-- The induction follows the loop: `remaining` is never more than is left. -/
theorem syncLoop_asks (fuel : Nat) (remaining : Int) (h : Open w) (hf : w.Fits)
    (hle : remaining.toNat ≤ left) :
    Asks left w (final (syncLoop buf fuel remaining w)) := by
  induction fuel generalizing w remaining left with
  | zero => exact .refl left w
  | succ fuel ih =>
    by_cases hrem : 0 < remaining
    · have ho := h.sysWrite (buf.take remaining.toNat)
      have hcount := sysWrite_toNat (hf.counts (buf.take remaining.toNat).length)
      have hlength : (buf.take remaining.toNat).length ≤ left := by
        rw [List.length_take]
        omega
      apply Asks.sysWrite hlength
      by_cases hr : 0 < (w.sysWrite (buf.take remaining.toNat)).1
      · rw [syncLoop_sent hrem hr]
        exact ih _ ho (hf.sysWrite _) (by omega)
      · rw [syncLoop, if_pos hrem, bind_of_ok (sysWrite_run _ _), if_neg hr, bind_of_ok (errno_run _)]
        split
        · rw [final_bind_pure]
          exact asyncWrite_asks ho _
        · split
          · rw [final_bind_pure, setState_run ho.live]
            exact .of_assign (.refl _)
          · rw [final_bind_pure, setState_run ho.live]
            exact .of_assign (.refl _)
    · rw [syncLoop_done hrem]
      exact .refl left w

theorem syncWrite_asks (h : Open w) (hfd : 0 < w.context.socket.fd) (hf : w.Fits) (buf : List α) :
    Asks buf.length w (final (syncWrite buf w)) := by
  have hle := toInt_le (n := buf.length) (by omega)
  rw [syncWrite_open h hfd]
  exact syncLoop_asks _ _ h hf (by omega)

end Requests

/-- Every byte is accounted for exactly at the sizes that an `int` holds. -/
theorem syncWrite_accounts_iff (h : Open w) (hfd : 0 < w.context.socket.fd) (hw : w.Willing)
    (buf : List α) : Accounts w buf ↔ buf.length < 2147483648 := by
  obtain ⟨w', direct, queued, hrun, hdirect, hqueued, hemitted, htotal⟩ := syncWrite_total h hfd hw buf
  constructor
  · intro hacc
    obtain ⟨direct', queued', _, _, hemitted', hall⟩ := hacc.bytes w' hrun
    have hsame := hemitted.length_unique hemitted'
    have hint : (toInt buf.length).toNat < 2147483648 := by
      unfold toInt
      omega
    omega
  · intro hlt
    refine ⟨fun w'' hrun' => ?_, fun log hlog => ?_⟩
    · rw [hrun] at hrun'
      cases hrun'
      refine ⟨direct, queued, hdirect, hqueued, hemitted, ?_⟩
      rw [htotal, toInt_of_lt (by omega) (by omega), Int.toNat_natCast]
    · obtain ⟨log', hlog', hwithin⟩ := syncWrite_asks h hfd hw.fits buf
      rw [hlog', List.append_cancel_right_eq] at hlog
      rwa [← hlog]

/-- A buffer of 2³¹ bytes: the count of what remains is negative from the start. -/
theorem huge_buffer_is_not_written :
    ¬ ∀ (w : World UInt8) (buf : List UInt8), Open w → 0 < w.context.socket.fd → w.Willing →
      buf.length < 18446744073709551616 → Accounts w buf := by
  intro h
  have h0 : Ready (World.setUp 0 5 true fun _ => .room 1 : World UInt8) 0 :=
    setUp_ready (by decide) true _
  have hsize : (List.replicate 2147483648 (0 : UInt8)).length = 2147483648 := List.length_replicate
  have hacc := h _ (List.replicate 2147483648 0) h0.open h0.positive
    (fun _ => ⟨by decide, by decide⟩) (by rw [hsize]; decide)
  have hnone : ¬ 0 < toInt (List.replicate 2147483648 (0 : UInt8)).length := by
    rw [hsize]
    decide
  have hrun : syncWrite (List.replicate 2147483648 0) (World.setUp 0 5 true fun _ => .room 1) =
      .ok .success (World.setUp 0 5 true fun _ => .room 1 : World UInt8) := by
    rw [syncWrite_open h0.open h0.positive]
    exact syncLoop_done hnone
  obtain ⟨direct, queued, _, _, hemitted, hall⟩ := hacc.bytes _ hrun
  have hsame := hemitted.length_unique (.refl _)
  rw [hall, hsize] at hsame
  cases hsame

theorem syncWrite_accounts_for_two :
    Accounts (World.setUp 0 5 true fun _ => .room 2 : World UInt8) [1, 2] ↔
      ([1, 2] : List UInt8).length < 2147483648 := by
  have h0 : Ready (World.setUp 0 5 true fun _ => .room 2 : World UInt8) 0 :=
    setUp_ready (by decide) true _
  exact syncWrite_accounts_iff h0.open h0.positive (fun _ => ⟨by decide, by decide⟩) _

end Netier
