import Netier.Pool.Draining

/-! A submission that throws: `asyncRunJob` has put its job into the queue by then, and any
worker that has not exited may still run it. -/
namespace Netier.ThreadPool
open Lib
variable {n : Nat} {s s' : ThreadPool n} {c : Caller n} {i : Fin n} {job : Nat}

/-- The steps of any parties, from any state on. -/
abbrev Continues (s : ThreadPool n) (ls : List (PoolLabel n)) (s' : ThreadPool n) : Prop :=
  Run (fun a l b => a.step l = some b) s ls s'

/-- The call finds `__stop` set and throws. -/
def Throws (s : ThreadPool n) (c : Caller n) : Prop := s.mayCall c = true ∧ s.stop = true

/-- The call leaves the queue as it was, and its job is never started. -/
def NoEffect (s : ThreadPool n) (c : Caller n) : Prop :=
  ∀ s', s.asyncRunJob c = some s' →
    s'.jobs = s.jobs ∧ ∀ ls s'', Continues s' ls s'' → s.next ∉ s''.started

theorem asyncRunJob_run (h : s.mayCall c = true) : ∃ s', s.asyncRunJob c = some s' := by
  simp only [asyncRunJob, h, if_true]
  split
  · exact ⟨_, rfl⟩
  · exact ⟨_, rfl⟩

section Continuation

/-- A pending call can notify, and wakes a waiting worker where there is one. -/
theorem notifyOne_run {t : Nat} (hp : (c, t) ∈ s.pending) (hi : s.worker i = .running job) :
    ∃ woken s', s.notifyOne c t woken = some s' ∧ s'.worker i = .running job ∧ s'.jobs = s.jobs ∧
      s'.pending = s.pending.erase (c, t) := by
  by_cases hw : ∃ j, s.worker j = .waiting
  · obtain ⟨j, hj⟩ := hw
    have hne : i ≠ j := by
      rintro rfl
      rw [hi] at hj
      cases hj
    refine ⟨some j, { s with
      pending := s.pending.erase (c, t), returned := s.returned ++ [t]
      worker := Function.update s.worker j .awake }, ?_, ?_, rfl, rfl⟩
    · simp [notifyOne, hp, hj]
    · simp [hne, hi]
  · refine ⟨none, { s with
      pending := s.pending.erase (c, t), returned := s.returned ++ [t] }, ?_, hi, rfl, rfl⟩
    simp [notifyOne, hp, hw]

/-- The call a running job is inside of, if any, can notify and return. -/
theorem settles_calls (hi : s.worker i = .running job) :
    ∃ ls s', Continues s ls s' ∧ s'.worker i = .running job ∧ s'.jobs = s.jobs ∧
      ∀ p ∈ s'.pending, p.1 ≠ .worker i := by
  induction hn : s.pending.length generalizing s with
  | zero => exact ⟨[], s, .nil s, hi, rfl, by simp [List.length_eq_zero_iff.1 hn]⟩
  | succ k ih =>
    by_cases hnone : ∀ p ∈ s.pending, p.1 ≠ .worker i
    · exact ⟨[], s, .nil s, hi, rfl, hnone⟩
    · obtain ⟨⟨c, t⟩, hp, hc⟩ : ∃ p ∈ s.pending, p.1 = .worker i := by
        simpa using hnone
      have hlen : (s.pending.erase (c, t)).length = k := by
        rw [List.length_erase_of_mem hp, hn, Nat.add_sub_cancel]
      obtain ⟨woken, s₁, hstep, hi₁, hjobs₁, hpending⟩ := notifyOne_run hp hi
      obtain ⟨ls, s', hrun, hi', hjobs, hnone'⟩ := ih hi₁ (by rw [hpending, hlen])
      exact ⟨.notifyOne c t woken :: ls, s', .cons hstep hrun, hi', hjobs.trans hjobs₁, hnone'⟩

/-- A worker that has not exited can come back to the head of its loop. -/
theorem comes_back (hi : s.worker i ≠ .exited) :
    ∃ ls s', Continues s ls s' ∧ s'.worker i = .awake ∧ s'.jobs = s.jobs := by
  cases hw : s.worker i with
  | awake => exact ⟨[], s, .nil s, hw, rfl⟩
  | waiting =>
    have hstep : s.step (.spurious i) =
        some { s with worker := Function.update s.worker i .awake } := by
      simp [step, spurious, hw]
    exact ⟨_, _, .single hstep, Function.update_self _ _ _, rfl⟩
  | running t =>
    obtain ⟨ls, s₁, hrun, hi₁, hjobs, hnone⟩ := settles_calls hw
    have hstep : s₁.step (.finish i) = some { s₁ with
        worker := Function.update s₁.worker i .awake, finished := s₁.finished ++ [t] } := by
      have hall : s₁.pending.all (fun p => p.1 ≠ .worker i) = true := by
        rw [List.all_eq_true]
        exact fun p hp => decide_eq_true (hnone p hp)
      simp only [step, finish, hi₁, hall, if_true]
    exact ⟨_, _, hrun.snoc hstep, Function.update_self _ _ _, hjobs⟩
  | exited => exact absurd hw hi

/-- Such a worker can get to every job in the queue. -/
theorem can_start {before after : List Nat} (hi : s.worker i ≠ .exited)
    (hjobs : s.jobs = before ++ job :: after) :
    ∃ ls s', Continues s ls s' ∧ job ∈ s'.started := by
  induction before generalizing s with
  | nil =>
    obtain ⟨ls, s₁, hrun, hi₁, hjobs₁⟩ := comes_back hi
    have hstep : s₁.step (.takeJob i) = some { s₁ with
        jobs := after, worker := Function.update s₁.worker i (.running job)
        started := s₁.started ++ [job] } := by
      simp [step, takeJob, hi₁, hjobs₁, hjobs]
    exact ⟨_, _, hrun.snoc hstep, by simp⟩
  | cons t before ih =>
    obtain ⟨ls, s₁, hrun, hi₁, hjobs₁⟩ := comes_back hi
    have hstep : s₁.step (.takeJob i) = some { s₁ with
        jobs := before ++ job :: after, worker := Function.update s₁.worker i (.running t)
        started := s₁.started ++ [t] } := by
      simp [step, takeJob, hi₁, hjobs₁, hjobs]
    have hi₂ : Function.update s₁.worker i (.running t) i ≠ .exited := by simp
    obtain ⟨ls', s', hrun', hstarted⟩ := ih (s := { s₁ with
      jobs := before ++ job :: after, worker := Function.update s₁.worker i (.running t)
      started := s₁.started ++ [t] }) hi₂ rfl
    exact ⟨_, s', (hrun.snoc hstep).append hrun', hstarted⟩

theorem step_exited {l : PoolLabel n} (h : ∀ i, s.worker i = .exited) (hs : s.step l = some s') :
    (∀ i, s'.worker i = .exited) ∧ s'.started = s.started := by
  cases l with
  | asyncRunJob c => rw [asyncRunJob_inv hs]; exact ⟨h, rfl⟩
  | notifyOne c t woken =>
    obtain ⟨_, ⟨j, hj, _⟩ | ⟨_, rfl⟩⟩ := notifyOne_inv hs
    · rw [h j] at hj
      cases hj
    · exact ⟨h, rfl⟩
  | takeJob j =>
    have hj := (takeJob_inv hs).1
    rw [h j] at hj
    cases hj
  | spurious j =>
    have hj := (spurious_inv hs).1
    rw [h j] at hj
    cases hj
  | finish j =>
    obtain ⟨_, hj, _⟩ := finish_inv hs
    rw [h j] at hj
    cases hj
  | setStop => rw [setStop_inv hs]; exact ⟨h, rfl⟩
  | notifyAll =>
    obtain ⟨_, rfl⟩ := notifyAll_inv hs
    exact ⟨fun j => by simp [h j], rfl⟩

end Continuation

/-- The job of a call, also of one that throws, is started in some continuation exactly if a
worker is left to start it. -/
theorem submitted_job_starts {ls : List (PoolLabel n)} (h : Reaches ls s)
    (hs : s.asyncRunJob c = some s') :
    (∃ ks s'', Continues s' ks s'' ∧ s.next ∈ s''.started) ↔ ∃ i, s.worker i ≠ .exited := by
  have hinv := asyncRunJob_inv hs
  constructor
  · rintro ⟨ks, s'', hrun, hmem⟩
    by_contra hall
    have hexited : ∀ i, s'.worker i = .exited := by
      rw [hinv]
      simpa using hall
    have hend := hrun.invariant (I := fun t => (∀ i, t.worker i = .exited) ∧ t.started = s'.started)
      ⟨hexited, rfl⟩ fun a l b ha hstep => by
        obtain ⟨hb, hsame⟩ := step_exited ha.1 hstep
        exact ⟨hb, hsame.trans ha.2⟩
    rw [hend.2, hinv] at hmem
    have hlt : s.next ∈ List.range s.next := h.books.order ▸ List.mem_append_left _ hmem
    exact absurd (List.mem_range.1 hlt) (Nat.lt_irrefl _)
  · rintro ⟨i, hi⟩
    have hw : s'.worker i ≠ .exited := by rwa [hinv]
    have hjobs : s'.jobs = s.jobs ++ s.next :: [] := by rw [hinv]
    exact can_start hw hjobs

/-- A call of `asyncRunJob` has no effect when it throws exactly if it does not throw. Its job
is in the queue either way, and a worker can start it unless all have exited. -/
theorem rejected_submission {ls : List (PoolLabel n)} (h : Reaches ls s) (hc : s.mayCall c = true) :
    ((Throws s c → NoEffect s c) ↔ s.stop = false) ∧
      ∀ s', s.asyncRunJob c = some s' → s'.jobs = s.jobs ++ [s.next] ∧
        ((∃ ks s'', Continues s' ks s'' ∧ s.next ∈ s''.started) ↔ ∃ i, s.worker i ≠ .exited) := by
  refine ⟨⟨fun hno => ?_, ?_⟩, fun s' hs => ⟨by rw [asyncRunJob_inv hs], submitted_job_starts h hs⟩⟩
  · by_contra hstop
    have hthrows : Throws s c := ⟨hc, by simpa using hstop⟩
    obtain ⟨s', hs'⟩ := asyncRunJob_run hc
    have hsame := (hno hthrows s' hs').1
    rw [asyncRunJob_inv hs'] at hsame
    simp at hsame
  · rintro hstop ⟨_, hthrows⟩
    rw [hstop] at hthrows
    cases hthrows

/-- One worker runs the job of an external thread when the destructor sets `__stop`. -/
def stoppedMidJob : Option (ThreadPool 1) :=
  runAll step (create 1)
    [.asyncRunJob (.thread 0), .notifyOne (.thread 0) 0 none, .takeJob 0, .setStop]

/-- That job calls `asyncRunJob`, the call throws, and the job it was to submit is run. -/
theorem rejected_job_runs :
    ¬ ∀ (n : Nat) (ls : List (PoolLabel n)) (s : ThreadPool n) (c : Caller n), Reaches ls s →
      Throws s c → NoEffect s c := by
  intro h
  obtain ⟨s, hs, hthrows⟩ : ∃ s, stoppedMidJob = some s ∧ s.mayCall (.worker 0) = true ∧
      s.stop = true := ⟨_, rfl, rfl, rfl⟩
  obtain ⟨s', hcall, s'', hrest, hmem⟩ : ∃ s', s.asyncRunJob (.worker 0) = some s' ∧
      ∃ s'', runAll step s' [.finish 0, .takeJob 0] = some s'' ∧ s.next ∈ s''.started := by
    cases hs
    exact ⟨_, rfl, _, rfl, by decide⟩
  exact (h 1 _ s (.worker 0) (run_of_runAll hs) hthrows s' hcall).2 _ s'' (run_of_runAll hrest) hmem

/-- The same call has an effect. -/
theorem rejected_submission_mid_job :
    ∃ s : ThreadPool 1, stoppedMidJob = some s ∧ ¬ (Throws s (.worker 0) → NoEffect s (.worker 0)) := by
  obtain ⟨s, hs, hcall, hstop⟩ : ∃ s, stoppedMidJob = some s ∧ s.mayCall (.worker 0) = true ∧
      s.stop = true := ⟨_, rfl, rfl, rfl⟩
  refine ⟨s, hs, fun h => ?_⟩
  have hno := (rejected_submission (run_of_runAll hs) hcall).1.1 h
  rw [hstop] at hno
  cases hno

end Netier.ThreadPool
