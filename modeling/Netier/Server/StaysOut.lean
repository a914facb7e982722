import Netier.Server.Staging

/-! A destroyed connection stays out of the registry exactly if its destroyer is not called
before `contextCreator` has put it there. -/
namespace Netier
open Lib
variable {α : Type} {w w₀ : World α} {r : Nat} {onRecv : Bool}

namespace Setup

/-- Once `contextCreator` has returned, a connection whose destroyer has been called is out
of the map, and its descriptor is closed and in no interest set of its reactor. -/
def StaysOut (r : Nat) (s : Setup α) : Prop :=
  s.phase = .returned → s.world.destroyerCalls ≠ 0 →
    s.world.inserted = false ∧ s.world.freed = true ∧ s.world.context.socket.fd ∉ s.world.kernel.fds ∧
      s.world.kernel.interest r s.world.context.socket.fd = none

/-- The connection is not put into the map after its destroyer has been called. -/
def Timely (s : Setup α) : SetupLabel α → Prop
  | .advance => s.phase = .insert → s.world.destroyerCalls = 0
  | _ => True

instance (s : Setup α) (l : SetupLabel α) : Decidable (s.Timely l) :=
  match l with
  | .advance => inferInstanceAs (Decidable (s.phase = .insert → s.world.destroyerCalls = 0))
  | .onConn _ | .poll _ | .handle _ _ => inferInstanceAs (Decidable True)

/-- The creation is on its way, or done with the connection alive, or it was torn down. -/
inductive Sound (r : Nat) (s : Setup α) : Prop where
  | creating : Staged r s.phase s.world → (s.phase = .returned → s.world.destroyerCalls = 0) → Sound r s
  | torn : s.phase = .returned → s.world.inserted = false → s.world.freed = true →
      s.world.context.socket.fd ∉ s.world.kernel.fds →
      s.world.kernel.interest r s.world.context.socket.fd = none → Sound r s

variable {s s' : Setup α} {l : SetupLabel α}

theorem Sound.staysOut (h : Sound r s) : s.StaysOut r := by
  intro hp hcalls
  cases h with
  | creating _ hzero => exact absurd (hzero hp) hcalls
  | torn _ hin hfreed hfds hnone => exact ⟨hin, hfreed, hfds, hnone⟩

variable [Zero α]

/-- A torn connection takes no further step. -/
theorem step_torn (hp : s.phase = .returned) (hfreed : s.world.freed = true) :
    s.step r onRecv l = none := by
  cases l with
  | advance => simp [step, advance, hp]
  | onConn c => simp [step, onConn, hp]
  | poll mask => simp [step, poll, hfreed]
  | handle burst callback =>
    have hfault : handleGeneral burst (runCalls callback) s.world = .error .useAfterFree s.world := by
      rw [handleGeneral, bind_of_error]
      simp [isReadable, this, bind_run, hfreed]
    simp [step, handle, hfault, completed]

theorem Sound.step (h : Sound r s) (hs : s.step r onRecv l = some s') (ht : s.Timely l) :
    Sound r s' := by
  cases h with
  | torn hp _ hfreed _ _ =>
    rw [step_torn hp hfreed] at hs
    cases hs
  | creating hstaged hzero =>
    rcases hstaged.step hs with ⟨hstaged', hcalls⟩ | ⟨_, hp', hg, _⟩
    · refine .creating hstaged' fun hp' => ?_
      obtain ⟨hsame, hp | ⟨rfl, hp⟩⟩ := hcalls hp'
      · exact hsame.trans (hzero hp)
      · exact hsame.trans (ht hp)
    · refine .torn hp' hg.inserted hg.freed ?_ ?_
      · rw [hg.fds, hg.socket]
        exact Finset.notMem_erase _ _
      · rw [hg.socket]
        exact hg.interest r

/-- An insertion that comes after a call of the destroyer puts the connection back. -/
theorem late_insertion (hs : s.step r onRecv l = some s') (hl : ¬ s.Timely l) : ¬ s'.StaysOut r := by
  cases l with
  | onConn | poll | handle => exact absurd trivial hl
  | advance =>
    obtain ⟨hp, hcalls⟩ := Classical.not_imp.1 hl
    obtain ⟨_, w, hrun, rfl⟩ := advance_inv hs
    rw [hp] at hrun
    cases hrun
    intro hout
    have hnot := (hout (by simp [hp, Phase.next]) hcalls).1
    cases hnot

end Setup

/-- In every run of the two threads, all states keep a destroyed connection out of the
registry exactly if no step inserts it after its destroyer has been called. -/
theorem destroyed_stays_out [Zero α] {ls : List (SetupLabel α)} {s : Setup α} (h0 : Allocated r w₀) :
    Run (fun a l b => a.step r onRecv l = some b ∧ b.StaysOut r) (.start w₀) ls s ↔
      Run (fun a l b => a.step r onRecv l = some b ∧ a.Timely l) (.start w₀) ls s := by
  constructor
  · refine fun h => h.mono fun a l b ⟨hs, hout⟩ => ⟨hs, ?_⟩
    by_contra hl
    exact Setup.late_insertion hs hl hout
  · refine fun h => h.mono_of_invariant (I := Setup.Sound r) ?_ fun a l b ha ⟨hs, ht⟩ => ?_
    · exact .creating h0.toStaged fun hp => by cases hp
    · have hsound := ha.step hs ht
      exact ⟨hsound, hs, hsound.staysOut⟩

/-- Descriptor 5 just accepted for reactor 0. -/
def accepted : World UInt8 := ⟨Conn.create 0 0 5 none fullOnce, ⟨{5}, fun _ _ => none, 0⟩⟩

theorem accepted_allocated : Allocated 0 accepted := Conn.create_allocated (by decide) (by decide) rfl

/-- The connection is created, and then its peer closes it. -/
def closedByPeer : List (SetupLabel UInt8) :=
  List.replicate 9 .advance ++ [.poll epollin, .handle ⟨[], .eof⟩ [.read]]

theorem closed_stays_out : ∃ s : Setup UInt8, s.phase = .returned ∧ s.world.destroyerCalls = 1 ∧
    Run (fun a l b => a.step 0 true l = some b ∧ b.StaysOut 0) (.start accepted) closedByPeer s := by
  have hend : ((runAll (guarded (Setup.step 0 true) Setup.Timely) (.start accepted) closedByPeer).map
      fun s => (s.phase, s.world.destroyerCalls)) = some (.returned, 1) := by decide +kernel
  obtain ⟨s, hs, hfacts⟩ := Option.map_eq_some_iff.1 hend
  simp only [Prod.mk.injEq] at hfacts
  obtain ⟨hp, hcalls⟩ := hfacts
  exact ⟨s, hp, hcalls, (destroyed_stays_out accepted_allocated).2 (run_of_guarded hs)⟩

/-- The `onConn` callback destroys the connection, and then `contextCreator` inserts it. -/
def destroyedInOnConn : List (SetupLabel UInt8) :=
  List.replicate 6 .advance ++ [.onConn (.call .destroy)] ++ List.replicate 3 .advance

theorem destroyed_in_onConn_inserted :
    ¬ ∀ (w : World UInt8) (r : Nat) (onRecv : Bool) (ls : List (SetupLabel UInt8)) (s : Setup UInt8),
      Allocated r w → Run (fun a l b => a.step r onRecv l = some b) (.start w) ls s → s.StaysOut r := by
  intro h
  have hend : ((runAll (Setup.step 0 true) (.start accepted) destroyedInOnConn).map
      fun s => (s.phase, s.world.destroyerCalls, s.world.inserted)) = some (.returned, 1, true) := by
    decide +kernel
  obtain ⟨s, hs, hfacts⟩ := Option.map_eq_some_iff.1 hend
  simp only [Prod.mk.injEq] at hfacts
  obtain ⟨hp, hcalls, hin⟩ := hfacts
  have hout := (h accepted 0 true _ s accepted_allocated (run_of_runAll hs) hp (by simp [hcalls])).1
  rw [hin] at hout
  cases hout

end Netier
