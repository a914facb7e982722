import Netier.Connection.Locality
import Netier.Lib.Projection
import Netier.Server.Dispatch

/-! The connections of a server are independent: what becomes of one is decided by what is
accepted on its descriptor and by the events of that descriptor. -/
namespace Netier
open Lib
variable {α : Type}

/-- The descriptor that a step of the server is about. -/
def ServerLabel.fd : ServerLabel α → Fd
  | .accept a => a.fd
  | .event fd _ _ _ => fd

namespace Server
variable {s s' t t' : Server α} {fd : Fd}

/-- The same connection under a descriptor, or none, and tables that agree about it. -/
structure SameAt (fd : Fd) (s t : Server α) : Prop where
  reactors : s.reactors = t.reactors
  onRecv : s.onRecv = t.onRecv
  conn : s.contextes fd = t.contextes fd
  kernel : Kernel.SameAt fd s.kernel t.kernel

theorem sameAt_equivalence (fd : Fd) : Equivalence (SameAt (α := α) fd) where
  refl _ := ⟨rfl, rfl, rfl, .rfl, fun _ => rfl⟩
  symm h := ⟨h.reactors.symm, h.onRecv.symm, h.conn.symm, h.kernel.opened.symm,
    fun ep => (h.kernel.interest ep).symm⟩
  trans h h' := ⟨h.reactors.trans h'.reactors, h.onRecv.trans h'.onRecv, h.conn.trans h'.conn,
    h.kernel.opened.trans h'.kernel.opened,
    fun ep => (h.kernel.interest ep).trans (h'.kernel.interest ep)⟩

theorem SameAt.schedule_eq (h : SameAt fd s t) (fd' : Fd) : s.schedule fd' = t.schedule fd' := by
  unfold Server.schedule
  rw [h.reactors]

theorem Sound.unused (h : Sound s) (hclosed : fd ∉ s.kernel.fds) : s.contextes fd = none := by
  rw [← Option.not_isSome_iff_eq_none, ← h.keys]
  exact hclosed

/-- The entry of the descriptor is replaced, in servers that were the same for it. -/
theorem SameAt.put (h : SameAt fd s t) {o : Option (Conn α)} {k k' : Kernel}
    (hk : Kernel.SameAt fd k k') : SameAt fd (s.put fd o k) (t.put fd o k') :=
  ⟨h.reactors, h.onRecv, by rw [put_self, put_self], hk⟩

/-- The entry of another descriptor is replaced. -/
theorem sameAt_put {fd' : Fd} {o : Option (Conn α)} {k : Kernel} (hne : fd ≠ fd')
    (hk : Kernel.SameAt fd s.kernel k) : SameAt fd s (s.put fd' o k) :=
  ⟨rfl, rfl, (put_other s o k hne).symm, hk⟩

/-- Live connections are over the descriptor of their key. -/
theorem Sound.sameAt {c : Conn α} (h : Sound s) (hsame : SameAt fd s t) (hc : s.contextes fd = some c) :
    World.SameAt fd (⟨c, s.kernel⟩ : World α) ⟨c, t.kernel⟩ :=
  ⟨rfl, h.owner fd c hc, (h.staged fd c hc).fd.trans (h.owner fd c hc), hsame.kernel⟩

variable [Zero α]

theorem accept_others {a : Acceptance α} (h : Sound s) (ha : s.Admits (.accept a)) (hne : a.fd ≠ fd)
    (hs : s.accept a = .ok s') : SameAt fd s s' := by
  have hcalm := ha.2.2.2
  rcases accept_cases h ha fun c hc _ hw => c.calm_ensures (hcalm c hc) hw with
    ⟨e, hrun, _⟩ | ⟨w, hrun, _, hbeside, _⟩
  · rw [hrun] at hs
    cases hs
  · rw [hrun] at hs
    cases hs
    refine sameAt_put hne.symm ⟨?_, fun ep => ?_⟩
    · rw [hbeside.fds]
      simp [Kernel.accept, hne.symm]
    · exact (hbeside.others ep fd fun hc => hne hc.2.symm).symm

theorem event_others {fd' : Fd} {mask : Mask} {burst : Burst α} {callback : List (Call α)} (h : Sound s)
    (ha : s.Admits (.event fd' mask burst callback)) (hne : fd' ≠ fd)
    (hs : s.event fd' mask burst callback = .ok s') : SameAt fd s s' := by
  obtain ⟨hsome, hcalm⟩ := ha
  obtain ⟨c, hc⟩ := Option.isSome_iff_exists.1 hsome
  have hcalms := calms_of_works fun c hc _ hw => Call.calm_ensures c (hcalm c hc) hw
  have hfd := h.owner fd' c hc
  rcases event_cases h hc fun _ _ => hcalms with
    ⟨e, hrun, _⟩ | ⟨w, _, ⟨hrun, hw⟩ | ⟨hrun, hg⟩⟩
  · rw [hrun] at hs
    cases hs
  · rw [hrun] at hs
    cases hs
    refine sameAt_put hne.symm ⟨?_, fun ep => ?_⟩
    · rw [hw.fds]
      rfl
    · rw [hw.interest]
      rfl
  · rw [hrun] at hs
    cases hs
    have hother : fd ≠ c.context.socket.fd := hfd.symm ▸ hne.symm
    refine sameAt_put hne.symm ⟨?_, fun ep => (hg.others ep fd hother).symm⟩
    rw [hg.fds]
    exact (Finset.mem_erase.trans ⟨And.right, fun hmem => ⟨hother, hmem⟩⟩).symm

/-- An acceptance has the same outcome for its descriptor in servers that are the same for it. -/
theorem accept_own {a : Acceptance α} (h : Sound s) (ha : s.Admits (.accept a)) (hsame : SameAt a.fd s t)
    (hs : s.accept a = .ok s') : ∃ t', t.accept a = .ok t' ∧ SameAt a.fd s' t' := by
  have hnone := h.unused ha.2.1
  have hnone' := hsame.conn.symm.trans hnone
  have hkernel : Kernel.SameAt a.fd (s.kernel.accept a.fd) (t.kernel.accept a.fd) :=
    ⟨by simp [Kernel.accept], hsame.kernel.interest⟩
  have hw : World.SameAt a.fd
      (⟨Conn.create a.address (s.schedule a.fd) a.fd a.state a.answers, s.kernel.accept a.fd⟩ : World α)
      ⟨Conn.create a.address (t.schedule a.fd) a.fd a.state a.answers, t.kernel.accept a.fd⟩ :=
    ⟨by rw [hsame.schedule_eq], rfl, rfl, hkernel⟩
  have halike := contextCreator_local s.onRecv (runCalls_local a.onConn) _ _ hw
  simp only [accept, hnone] at hs
  simp only [accept, hnone', ← hsame.onRecv]
  cases hrun : contextCreator s.onRecv (runCalls a.onConn)
      ⟨Conn.create a.address (s.schedule a.fd) a.fd a.state a.answers, s.kernel.accept a.fd⟩ with
  | error e w =>
    rw [hrun] at hs
    cases hs
  | ok u w =>
    rw [hrun] at hs halike
    obtain ⟨w', hrun', hend⟩ := halike.ok_inv
    cases hs
    refine ⟨t.put a.fd (some w'.toConn) w'.kernel, by rw [hrun'], ?_⟩
    rw [hend.conn]
    exact hsame.put hend.kernel

/-- And so has the handling of an event. -/
theorem event_own {mask : Mask} {burst : Burst α} {callback : List (Call α)} (h : Sound s)
    (hsame : SameAt fd s t) (hs : s.event fd mask burst callback = .ok s') :
    ∃ t', t.event fd mask burst callback = .ok t' ∧ SameAt fd s' t' := by
  cases hc : s.contextes fd with
  | none =>
    have hc' := hsame.conn.symm.trans hc
    simp only [event, hc] at hs
    cases hs
    exact ⟨t, by simp only [event, hc'], hsame⟩
  | some c =>
    have hc' := hsame.conn.symm.trans hc
    have halike := loopEntry_local burst (runCalls_local callback) mask _ _ (h.sameAt hsame hc)
    simp only [event, hc] at hs
    simp only [event, hc']
    cases hrun : loopEntry mask burst (runCalls callback) (⟨c, s.kernel⟩ : World α) with
    | error e w =>
      rw [hrun] at hs
      cases hs
    | ok u w =>
      rw [hrun] at hs halike
      obtain ⟨w', hrun', hend⟩ := halike.ok_inv
      have hfreed : w.freed = w'.freed := congrArg Conn.freed hend.conn
      have hsocket : w.context.socket.fd = w'.context.socket.fd :=
        congrArg (fun c => c.context.socket.fd) hend.conn
      rw [hrun']
      simp only at hs ⊢
      rw [hfreed] at hs
      by_cases hf : w'.freed = true
      · rw [if_pos hf] at hs ⊢
        cases hs
        refine ⟨_, rfl, ?_⟩
        rw [← hsocket, hend.socket]
        exact hsame.put hend.kernel
      · rw [if_neg hf] at hs ⊢
        cases hs
        refine ⟨_, rfl, ?_⟩
        rw [hend.conn]
        exact hsame.put hend.kernel

/-- The step of a server in step. -/
def SoundStep (s : Server α) (l : ServerLabel α) (s' : Server α) : Prop := Sound s ∧ Step s l s'

theorem soundStep_of_run {ls : List (ServerLabel α)} (h : Run Step s ls s') (hs : Sound s) :
    Run SoundStep s ls s' :=
  h.mono_of_invariant hs fun a l b ha hl => by
    have hb := ha.step hl.1
    rw [hl.2] at hb
    exact ⟨hb, ha, hl⟩

theorem step_own {l : ServerLabel α} (h : SoundStep s l s') (hsame : SameAt l.fd s t) :
    ∃ t', t.step l = .ok t' ∧ SameAt l.fd s' t' := by
  obtain ⟨hs, hadm, hstep⟩ := h
  cases l with
  | accept a => exact accept_own hs hadm hsame hstep
  | event fd mask burst callback => exact event_own hs hsame hstep

theorem separate : Separate (SoundStep (α := α)) ServerLabel.fd SameAt where
  equiv := sameAt_equivalence
  own := by
    rintro s s' t t' l hsame hs ht
    obtain ⟨u, hu, hend⟩ := step_own hs hsame
    rw [ht.2.2] at hu
    cases hu
    exact hend
  others := by
    rintro s s' l k hne ⟨hs, hadm, hstep⟩
    cases l with
    | accept a => exact accept_others hs hadm hne hstep
    | event fd mask burst callback => exact event_others hs hadm hne hstep

/-- What one server allows, another that is the same for the descriptor and has no other
connection allows too. -/
theorem step_allowed {l : ServerLabel α} (hfd : l.fd = fd) (hsame : SameAt fd s t)
    (ht : Sound t ∧ ∀ fd', fd' ≠ fd → t.contextes fd' = none) (h : SoundStep s l s') :
    ∃ t', SoundStep t l t' ∧ Sound t' ∧ ∀ fd', fd' ≠ fd → t'.contextes fd' = none := by
  obtain ⟨htsound, hnone⟩ := ht
  have hadm : t.Admits l := by
    obtain ⟨hs, hadm, _⟩ := h
    cases l with
    | accept a =>
      subst hfd
      obtain ⟨hpos, hclosed, _, hcalm⟩ := hadm
      refine ⟨hpos, fun hopen => hclosed (hsame.kernel.opened.2 hopen), fun fd' c hc => ?_, hcalm⟩
      by_cases hne : fd' = a.fd
      · have hconn : s.contextes a.fd = t.contextes a.fd := hsame.conn
        rw [hne, ← hconn, hs.unused hclosed] at hc
        cases hc
      · rw [hnone fd' hne] at hc
        cases hc
    | event fd' mask burst callback =>
      subst hfd
      exact ⟨hsame.conn ▸ hadm.1, hadm.2⟩
  subst hfd
  obtain ⟨t', hstep, _⟩ := step_own h hsame
  have hsound := htsound.step hadm
  rw [hstep] at hsound
  refine ⟨t', ⟨htsound, hadm, hstep⟩, hsound, fun fd' hne => ?_⟩
  rw [← (separate.others hne.symm ⟨htsound, hadm, hstep⟩).conn]
  exact hnone fd' hne

section Runs
variable {n : Nat} {onRecv : Bool} {ls ks : List (ServerLabel α)}

/-- Two runs of a server in which a descriptor sees the same acceptances and events leave it
with the same connection, in the same state; and runs that differ only in how the steps of
different descriptors are interleaved end in the same server. -/
theorem connections_independent (h : Run Step (create n onRecv) ls s)
    (h' : Run Step (create n onRecv) ks t) :
    (∀ fd, stepsOf ServerLabel.fd fd ls = stepsOf ServerLabel.fd fd ks → SameAt fd s t) ∧
    ((∀ fd, stepsOf ServerLabel.fd fd ls = stepsOf ServerLabel.fd fd ks) →
      s.contextes = t.contextes ∧ s.kernel.fds = t.kernel.fds ∧ s.kernel.interest = t.kernel.interest) := by
  have hs := soundStep_of_run h (create_sound n onRecv)
  have ht := soundStep_of_run h' (create_sound n onRecv)
  have hsame fd (hsteps : stepsOf ServerLabel.fd fd ls = stepsOf ServerLabel.fd fd ks) : SameAt fd s t :=
    separate.same_of_steps hs ht ((sameAt_equivalence fd).refl _) hsteps
  refine ⟨hsame, fun hall => ⟨funext fun fd => (hsame fd (hall fd)).conn, ?_, ?_⟩⟩
  · ext fd
    exact (hsame fd (hall fd)).kernel.opened
  · funext ep fd
    exact (hsame fd (hall fd)).kernel.interest ep

/-- Every connection is as if it were the only one: its own steps alone are a run of the
server, and leave it in the same state. -/
theorem connection_alone (h : Run Step (create n onRecv) ls s) (fd : Fd) :
    ∃ t, Run Step (create n onRecv) (stepsOf ServerLabel.fd fd ls) t ∧ SameAt fd s t ∧
      ∀ fd', fd' ≠ fd → t.contextes fd' = none := by
  have hs := soundStep_of_run h (create_sound n onRecv)
  obtain ⟨t, ht, hsame, _, hnone⟩ := separate.alone
    (J := fun t => Sound t ∧ ∀ fd', fd' ≠ fd → t.contextes fd' = none)
    (fun hown hsame hJ hstep => step_allowed hown hsame hJ hstep) hs
    ⟨create_sound n onRecv, fun _ _ => rfl⟩
  exact ⟨t, ht.mono fun _ _ _ hl => hl.2, hsame, hnone⟩

end Runs

/-- One byte comes in on a descriptor and is read. -/
def byteRead (fd : Fd) : ServerLabel UInt8 := .event fd epollin (oneByte fd .done).burst [.read]

/-- Both descriptors have been accepted; then their events come in one order or the other. -/
def pairReads (first second : Fd) : Option (Server UInt8 × Server UInt8 × Server UInt8) :=
  pairAccepted.bind fun s => (s.step (byteRead first)).toOption.bind fun s₁ =>
    (s₁.step (byteRead second)).toOption.map fun s₂ => (s, s₁, s₂)

theorem pairReads_run {first second : Fd} {s s₁ s₂ : Server UInt8}
    (h : pairReads first second = some (s, s₁, s₂)) (hfirst : (s.contextes first).isSome)
    (hsecond : (s₁.contextes second).isSome) :
    Run Step (create 2 true) [fiveAccepted, sevenAccepted, byteRead first, byteRead second] s₂ := by
  obtain ⟨s', hpair, h⟩ := Option.bind_eq_some_iff.1 h
  obtain ⟨s₁', h₁, h⟩ := Option.bind_eq_some_iff.1 h
  obtain ⟨s₂', h₂, h⟩ := Option.map_eq_some_iff.1 h
  cases h
  have hadm : s.Admits (byteRead first) := ⟨hfirst, by simp [Call.Calm]⟩
  have hadm₁ : s₁.Admits (byteRead second) := ⟨hsecond, by simp [Call.Calm]⟩
  exact ((pairAccepted_run hpair).snoc ⟨hadm, ok_of_toOption h₁⟩).snoc ⟨hadm₁, ok_of_toOption h₂⟩

theorem pairReads_exists (first second : Fd)
    (h : (pairReads first second).map (fun p =>
      ((p.1.contextes first).isSome, (p.2.1.contextes second).isSome)) = some (true, true)) :
    ∃ s, Run Step (create 2 true) [fiveAccepted, sevenAccepted, byteRead first, byteRead second] s := by
  obtain ⟨⟨s, s₁, s₂⟩, hp, h⟩ := Option.map_eq_some_iff.1 h
  rw [Prod.mk.injEq] at h
  exact ⟨s₂, pairReads_run hp h.1 h.2⟩

theorem reads_commute : ∃ s t : Server UInt8,
    Run Step (create 2 true) [fiveAccepted, sevenAccepted, byteRead 5, byteRead 7] s ∧
    Run Step (create 2 true) [fiveAccepted, sevenAccepted, byteRead 7, byteRead 5] t ∧
    s.contextes = t.contextes := by
  obtain ⟨s, hs⟩ := pairReads_exists 5 7 (by decide +kernel)
  obtain ⟨t, ht⟩ := pairReads_exists 7 5 (by decide +kernel)
  refine ⟨s, t, hs, ht, ((connections_independent hs ht).2 fun fd => ?_).1⟩
  by_cases h5 : fd = 5
  · subst h5
    rfl
  · by_cases h7 : fd = 7
    · subst h7
      rfl
    · simp [stepsOf, ServerLabel.fd, fiveAccepted, sevenAccepted, byteRead, eq_comm, h5, h7]

theorem five_alone : ∃ s t : Server UInt8,
    Run Step (create 2 true) [fiveAccepted, sevenAccepted, byteRead 5, byteRead 7] s ∧
    Run Step (create 2 true) [fiveAccepted, byteRead 5] t ∧ SameAt 5 s t := by
  obtain ⟨s, hs⟩ := pairReads_exists 5 7 (by decide +kernel)
  obtain ⟨t, ht, hsame, _⟩ := connection_alone hs 5
  exact ⟨s, t, hs, ht, hsame⟩

end Server
end Netier
