import Netier.Connection.Overloads
import Netier.Connection.Passes

/-! What the result of an output call says about the connection. `syncWrite` reports where
its own loop gave up, and nothing of what its nested flush met. -/
namespace Netier
open Lib
variable {α : Type} {w : World α}

/-- The call returns, with SUCCESS where it leaves the connection VALID and SOCKET_ERROR
elsewhere. -/
def Tells (x : Exec α ER) (w : World α) : Prop :=
  ∃ w', x w = .ok (if w'.context.state = some .valid then .success else .socketError) w'

/-- The call returns SUCCESS exactly where it leaves the connection VALID. -/
def TellsSuccess (x : Exec α ER) (w : World α) : Prop :=
  ∃ ret w', x w = .ok ret w' ∧ (ret = .success ↔ w'.context.state = some .valid)

/-- The loop ended without giving the connection up. -/
def Stop.Survives (s : Stop) : Prop := s.state = .valid

instance (s : Stop) : Decidable s.Survives := inferInstanceAs (Decidable (s.state = .valid))

/-- The passes of the flush that follows when the loop of `syncWrite`, over the first `n`
bytes, is told to try again. -/
def nested (answers : Nat → WriteAnswer) (pending n : Nat) : Passes :=
  passes (fun i => answers (i + (passes answers n).used)) (pending + (n - (passes answers n).sent))

/-- The loop is told to try again, and the flush of what it queued gives the connection up. -/
def LateFailure (w : World α) (n : Nat) : Prop :=
  (passes w.wire.answers n).stop = .again ∧
    ¬ (nested w.wire.answers w.context.wbuffer.size n).stop.Survives

theorem tells_iff {x : Exec α ER} {w' : World α} {ret : ER} (h : x w = .ok ret w') :
    Tells x w ↔ ret = if w'.context.state = some .valid then .success else .socketError := by
  constructor
  · rintro ⟨w'', hrun⟩
    rw [h] at hrun
    cases hrun
    rfl
  · intro hret
    exact ⟨w', by rw [h, hret]⟩

theorem tells_of_eq {x y : Exec α ER} (h : x w = y w) : Tells x w ↔ Tells y w := by
  simp only [Tells, h]

theorem success_iff {s : Stop} :
    .success = (if some s.state = some State.valid then ER.success else .socketError) ↔ s.Survives := by
  by_cases hs : s.state = .valid
  · rw [if_pos (congrArg some hs)]
    exact iff_of_true rfl hs
  · rw [if_neg fun h => hs (Option.some.inj h)]
    exact iff_of_false (by decide) hs

/-- Whatever ends the loop itself, the result agrees with the state. -/
theorem Stop.result_tells {s : Stop} (h : s ≠ .again) :
    s.result = if some s.state = some State.valid then .success else .socketError := by
  cases s with
  | again => exact absurd rfl h
  | done | eof | error => rfl

theorem syncWrite_tells_iff (h : Open w) (hfd : 0 < w.context.socket.fd) (hf : w.Fits)
    (buf : List α) : Tells (syncWrite buf) w ↔ ¬ LateFailure w (toInt buf.length).toNat := by
  have hle := toInt_le (n := buf.length) (by omega)
  obtain ⟨w₁, hwrote, hrun⟩ := syncWrite_passes h hfd buf (hf.counts _) rfl
  have hstate : w₁.context.state = some (passes w.wire.answers (toInt buf.length).toNat).stop.state := by
    rw [hwrote.context]
  by_cases hagain : (passes w.wire.answers (toInt buf.length).toNat).stop = .again
  · have ho : Open w₁ := ⟨hwrote.live, by rw [hstate, hagain]; rfl⟩
    have hf₁ : w₁.Fits := fun i k hk => hf _ k (by rwa [hwrote.answers] at hk)
    have hpending : w₁.context.wbuffer = w.context.wbuffer := by rw [hwrote.context]
    rw [if_pos hagain] at hrun
    obtain ⟨w', hasync, hflush⟩ := asyncWrite_passes ho (by rw [hwrote.context]; exact hfd)
      (buf.drop (buf.length - ((toInt buf.length).toNat -
        (passes w.wire.answers (toInt buf.length).toNat).sent))) (hf₁.counts _)
    have hlength : (buf.drop (buf.length - ((toInt buf.length).toNat -
        (passes w.wire.answers (toInt buf.length).toNat).sent))).length =
          (toInt buf.length).toNat - (passes w.wire.answers (toInt buf.length).toNat).sent := by
      rw [List.length_drop]
      omega
    rw [hlength, hpending, hwrote.answers] at hflush
    rw [bind_of_ok hasync] at hrun
    rw [tells_iff hrun, hflush.state, LateFailure, not_and, not_not, imp_iff_right hagain]
    exact success_iff
  · rw [if_neg hagain] at hrun
    rw [tells_iff hrun, hstate]
    exact iff_of_true (Stop.result_tells hagain) fun hlate => hagain hlate.1

theorem writeFile_tells_iff [Zero α] (h : Open w) (hfd : 0 < w.context.socket.fd) (hf : w.Fits)
    (f : FileStream α) : TellsSuccess (writeFile (some f)) w ↔
      (passes w.wire.answers (w.context.wbuffer.size + f.content.length)).stop.Survives := by
  obtain ⟨w', hrun, hstate⟩ := writeFile_passes h hfd f (hf.counts _)
  constructor
  · rintro ⟨ret, w'', hrun', hiff⟩
    rw [hrun] at hrun'
    cases hrun'
    have hvalid := hiff.1 rfl
    rw [hstate] at hvalid
    exact Option.some.inj hvalid
  · intro hsurvives
    exact ⟨_, w', hrun, iff_of_true rfl (hstate.trans (congrArg some hsurvives))⟩

/-- The result tells the connection's fate exactly where no flush inside the call gave the
connection up. -/
theorem output_result_tells_iff [Zero α] (h : Open w) (hfd : 0 < w.context.socket.fd) (hf : w.Fits) :
    (∀ buf : List α, Tells (syncWrite buf) w ↔ ¬ LateFailure w (toInt buf.length).toNat) ∧
    (∀ data : StdString α, Tells (writeString data) w ↔
      ¬ LateFailure w (toInt (data.chars.length + 1 : Nat)).toNat) ∧
    (∀ data : List α, Tells (writeVector data) w ↔ ¬ LateFailure w (toInt data.length).toNat) ∧
    ∀ f : FileStream α, TellsSuccess (writeFile (some f)) w ↔
      (passes w.wire.answers (w.context.wbuffer.size + f.content.length)).stop.Survives := by
  refine ⟨syncWrite_tells_iff h hfd hf, fun data => ?_, fun data => ?_, writeFile_tells_iff h hfd hf⟩
  · rw [tells_of_eq (writeString_open h data), syncWrite_tells_iff h hfd hf, List.length_append,
      List.length_singleton]
  · rw [tells_of_eq (writeVector_open h data), syncWrite_tells_iff h hfd hf]

/-- The kernel is full at the first call of `write(2)`, and refuses the second for good. -/
def fullThenReset : Nat → WriteAnswer
  | 0 => .failed .eagain
  | _ => .failed (.other 104)

theorem fullThenReset_fits (r : Nat) (fd : Fd) (onRecv : Bool) :
    (World.setUp r fd onRecv fullThenReset : World α).Fits := by
  intro i n h
  cases i <;> cases h

/-- One byte is refused for now, and its flush finds the peer gone. -/
theorem late_failure_reported_as_success :
    ¬ ∀ (w : World UInt8) (buf : List UInt8), Open w → 0 < w.context.socket.fd → w.Fits →
      Tells (syncWrite buf) w := by
  intro h
  have h0 : Ready (World.setUp 0 5 true fullThenReset : World UInt8) 0 :=
    setUp_ready (by decide) true _
  have hlate := (syncWrite_tells_iff h0.open h0.positive (fullThenReset_fits 0 5 true) [1]).1
    (h _ [1] h0.open h0.positive (fullThenReset_fits 0 5 true))
  exact hlate ⟨rfl, by decide⟩

theorem output_result_tells_on_full_socket :
    Tells (syncWrite ([1] : List UInt8)) (World.setUp 0 5 true fullOnce) ↔
      ¬ LateFailure (World.setUp 0 5 true fullOnce : World UInt8) 1 := by
  have h0 : Ready (World.setUp 0 5 true fullOnce : World UInt8) 0 :=
    setUp_ready (by decide) true _
  exact (output_result_tells_iff h0.open h0.positive (fullOnce_fits 0 5 true)).1 [1]

end Netier
