import Netier.Server.Registry
import Netier.Connection.Streams

/-! The descriptors a server has open: one for every connection of the registry, and one more
for every file that `writeFile` has opened. -/
namespace Netier
open Lib
variable {α : Type} {w w' : World α}

/-- The constructor of `Context` up to its `onConn` callback. -/
def construct : Exec α Unit := do
  onIoContext IoContext.enableRead
  onIoContext IoContext.enableWrite
  onIoContext IoContext.setET
  onIoContext (IoContext.setReadCallback .handleReadableEvent)
  onIoContext (IoContext.setWriteCallback .handleWritableEvent)
  setState .valid

theorem construct_streams {n : Nat} : Keeps (World.Streams n) (construct (α := α)) := by
  refine (onIoContext_streams (enable_streams _)).bind fun _ => ?_
  refine (onIoContext_streams (enable_streams _)).bind fun _ => ?_
  refine (onIoContext_streams (enable_streams _)).bind fun _ => ?_
  refine (onIoContext_streams (setIoContext_checked_streams fun c =>
    { c with readableCb := some .handleReadableEvent })).bind fun _ => ?_
  refine (onIoContext_streams (setIoContext_checked_streams fun c =>
    { c with writableCb := some .handleWritableEvent })).bind fun _ => ?_
  exact assign_keeps (fun _ _ => id) _

variable [Zero α]

/-- The creation of a connection opens a stream exactly if its `onConn` callback does. -/
theorem contextCreator_opened {onRecv : Bool} {cs : List (Call α)} {u : Unit}
    (h : contextCreator onRecv (runCalls cs) w = .ok u w') :
    Opened (∃ v, construct w = .ok ⟨⟩ v ∧ OpensFile cs v) w w' := by
  obtain ⟨_, w₁, h₁, h⟩ := bind_inv h
  obtain ⟨_, w₂, h₂, h⟩ := bind_inv h
  obtain ⟨_, w₃, h₃, h⟩ := bind_inv h
  obtain ⟨_, w₄, h₄, h⟩ := bind_inv h
  obtain ⟨_, w₅, h₅, h⟩ := bind_inv h
  obtain ⟨_, w₆, h₆, h⟩ := bind_inv h
  obtain ⟨_, w₇, h₇, h⟩ := bind_inv h
  have hrun : construct w = .ok ⟨⟩ w₆ :=
    (bind_of_ok h₁).trans <| (bind_of_ok h₂).trans <| (bind_of_ok h₃).trans <|
      (bind_of_ok h₄).trans <| (bind_of_ok h₅).trans h₆
  have hsame : w₆.kernel.files = w.kernel.files := construct_streams _ _ _ rfl hrun
  have hlast : w'.kernel.files = w₇.kernel.files := by
    have hinsert : Keeps (World.Streams w₇.kernel.files)
        (modify fun v => { v with inserted := true } : Exec α Unit) := by
      rintro v _ _ hv ⟨⟩
      exact hv
    cases onRecv with
    | false => exact hinsert _ _ _ rfl h
    | true =>
      have hset : Keeps (World.Streams w₇.kernel.files) (setOnRecv (α := α) true) :=
        keeps_streams (S := (· ≠ Act.fopen)) (fun _ => setOnRecv_effect (by simp)) (by simp)
      exact hset.bind (fun _ => hinsert) _ _ _ rfl h
  have hopened := runCalls_opened h₇
  refine ⟨?_, ?_⟩
  · have hle := hopened.le
    omega
  · rw [hlast, ← hsame, hopened.same]
    simp [hrun]

namespace Server
variable {s s' : Server α} {l : ServerLabel α} {n : Nat} {onRecv : Bool}

/-- How many descriptors are open, beyond those of the listening socket and of the reactors. -/
def descriptors (s : Server α) : Nat := s.kernel.fds.card + s.kernel.files

/-- As many descriptors are open as at the start and one more for each context in the map. -/
def Conserved (s₀ s : Server α) : Prop :=
  ∃ live : Finset Fd, (∀ fd, fd ∈ live ↔ (s.contextes fd).isSome) ∧
    s.descriptors = s₀.descriptors + live.card

/-- A callback of this step calls `writeFile` on a VALID connection with a path that `fopen`
can open. -/
def Leaks (s : Server α) : ServerLabel α → Prop
  | .accept a => ∃ v, construct ⟨Conn.create a.address (s.schedule a.fd) a.fd a.state a.answers,
      s.kernel.accept a.fd⟩ = .ok ⟨⟩ v ∧ OpensFile a.onConn v
  | .event fd mask burst callback => ∃ c, s.contextes fd = some c ∧ (mask &&& epollin) ≠ 0 ∧
      Reaches ((⟨c, s.kernel⟩ : World α).polled mask) burst ∧
        OpensFile callback (((⟨c, s.kernel⟩ : World α).polled mask).atOnRecv burst)

theorem Sound.step_opened (h : Sound s) (hstep : Step s l s') :
    s.kernel.files ≤ s'.kernel.files ∧ (s'.kernel.files = s.kernel.files ↔ ¬ s.Leaks l) := by
  obtain ⟨hadm, hrun⟩ := hstep
  cases l with
  | accept a =>
    have hcalm := hadm.2.2.2
    rcases accept_cases h hadm fun c hc _ hw => c.calm_ensures (hcalm c hc) hw with
      ⟨e, herr, _⟩ | ⟨w, hok, _, _, hcreate⟩
    · have hboth := hrun.symm.trans herr
      cases hboth
    · have hboth := hrun.symm.trans hok
      cases hboth
      have hopened := contextCreator_opened hcreate
      exact ⟨hopened.le, hopened.same⟩
  | event fd mask burst callback =>
    obtain ⟨hsome, hcalm⟩ := hadm
    obtain ⟨c, hc⟩ := Option.isSome_iff_exists.1 hsome
    have hstaged := h.staged fd c hc
    have hcalms := calms_of_works fun c hc _ hw => Call.calm_ensures c (hcalm c hc) hw
    rcases event_cases h hc fun _ _ => hcalms with ⟨e, herr, _⟩ | ⟨w, hentry, hends⟩
    · have hboth := hrun.symm.trans herr
      cases hboth
    · have hkernel : s'.kernel = w.kernel := by
        rcases hends with ⟨hok, _⟩ | ⟨hok, _⟩
        all_goals
          have hboth := hrun.symm.trans hok
          cases hboth
          rfl
      have hopened := loopEntry_opened hstaged.attached hstaged.bound hentry
      rw [hkernel]
      refine ⟨hopened.le, hopened.same.trans (not_congr ?_)⟩
      simp [Leaks, hc]

omit [Zero α] in
/-- Over a registry in step with the kernel, what is not conserved are the streams. -/
theorem Sound.conserved_iff (h : Sound s) : Conserved (create n onRecv) s ↔ s.kernel.files = 0 := by
  constructor
  · rintro ⟨live, hlive, hcount⟩
    have hsame : live = s.kernel.fds := Finset.ext fun fd => (hlive fd).trans (h.keys fd).symm
    simp only [descriptors, create, Finset.card_empty, hsame] at hcount
    omega
  · intro hzero
    refine ⟨s.kernel.fds, h.keys, ?_⟩
    simp [descriptors, create, hzero]

omit [Zero α] in
/-- With no connection left nothing is open that was not open at the start. -/
theorem Conserved.released {s₀ : Server α} (h : Conserved s₀ s) (hnone : ∀ fd, s.contextes fd = none) :
    s.descriptors = s₀.descriptors := by
  obtain ⟨live, hlive, hcount⟩ := h
  have hempty : live = ∅ := Finset.eq_empty_of_forall_notMem fun fd hmem => by
    have hsome := (hlive fd).1 hmem
    rw [hnone fd] at hsome
    cases hsome
  simpa [hempty] using hcount

theorem Sound.of_step (h : Sound s) (hstep : Step s l s') : Sound s' := by
  have hsound := h.step hstep.1
  rwa [hstep.2] at hsound

/-- In every run of a server, as many descriptors are open after each step as there are
connections, beyond those open at the start, exactly if no callback calls `writeFile` on a
VALID connection with a path that can be opened. -/
theorem descriptors_conserved_iff {ls : List (ServerLabel α)} :
    Run (fun a l b => Step a l b ∧ Conserved (create n onRecv) b) (create n onRecv) ls s ↔
      Run (fun a l b => Step a l b ∧ ¬ a.Leaks l) (create n onRecv) ls s := by
  have hstart : Sound (create n onRecv : Server α) := create_sound n onRecv
  constructor
  · refine fun h => h.mono_of_invariant (I := Sound) hstart fun a l b ha ⟨hstep, hcons⟩ => ?_
    have hb := ha.of_step hstep
    obtain ⟨hle, hsame⟩ := ha.step_opened hstep
    have hzero := hb.conserved_iff.1 hcons
    exact ⟨hb, hstep, hsame.1 (by omega)⟩
  · refine fun h => h.mono_of_invariant (I := fun a => Sound a ∧ a.kernel.files = 0) ⟨hstart, rfl⟩
      fun a l b ⟨ha, hzero⟩ ⟨hstep, hleaks⟩ => ?_
    have hb := ha.of_step hstep
    have hfiles := ((ha.step_opened hstep).2.2 hleaks).trans hzero
    exact ⟨⟨hb, hfiles⟩, hstep, hb.conserved_iff.2 hfiles⟩

/-- The connection of descriptor 5 asks for a file of one byte, and is answered with it. -/
def fiveServed : ServerLabel UInt8 :=
  .event 5 epollin ⟨[⟨[71], by simp, by decide⟩], .failed .eagain⟩
    [.readString, .output (.writeFile (some ⟨[⟨[65], by simp, by decide⟩]⟩))]

/-- One file is served, and its stream stays open. -/
theorem served_file_stays_open :
    ¬ ∀ (ls : List (ServerLabel UInt8)) (s : Server UInt8), Run Step (create 2 true) ls s →
      Conserved (create 2 true) s := by
  intro h
  have hopens : ((create 2 true).step fiveAccepted).toOption.map (fun s => (s.contextes 5).isSome) =
      some true := by decide +kernel
  have hserves : (((create 2 true).step fiveAccepted).toOption.bind fun s =>
      (s.step fiveServed).toOption.map fun s => s.kernel.files) = some 1 := by decide +kernel
  obtain ⟨s₁, h₁, hsome⟩ := Option.map_eq_some_iff.1 hopens
  rw [h₁] at hserves
  obtain ⟨s₂, h₂, hfiles⟩ := Option.map_eq_some_iff.1 hserves
  have hrun : Run Step (create 2 true) [fiveAccepted, fiveServed] s₂ :=
    (fiveAccepted_run h₁).snoc ⟨⟨hsome, by simp [Call.Calm]⟩, ok_of_toOption h₂⟩
  have hzero := (run_sound hrun).1.conserved_iff.1 (h _ _ hrun)
  omega

end Server
end Netier
