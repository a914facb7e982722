import Mathlib.Data.List.FinRange
import Mathlib.Data.List.Perm.Subperm
import Netier.Lib.Census
import Netier.Pool.Draining

/-! No job is stranded while a worker sleeps: every queued job beyond the pending
notifications has an awake worker that has yet to test the queue. -/
namespace Netier

@[simp] def PoolLabel.isSubmit {n : Nat} : PoolLabel n → Bool
  | .asyncRunJob _ => true
  | _ => false

namespace ThreadPool
open Lib
variable {n : Nat} {s s' : ThreadPool n} {ls : List (PoolLabel n)}

structure Watched (s : ThreadPool n) : Prop where
  covered : s.stop = false → (∃ i, s.worker i = .waiting) →
    s.jobs.length ≤ s.pending.length + census s.worker .awake
  quiet : s.notified = true → s.stop = true ∧ ∀ i, s.worker i ≠ .waiting

namespace Watched

theorem create : Watched (create n) := by
  constructor <;> simp [ThreadPool.create]

theorem asyncRunJob {c : Caller n} (h : Watched s) (hs : s.asyncRunJob c = some s') :
    Watched s' := by
  rw [asyncRunJob_inv hs]
  refine ⟨fun hstop hw => ?_, h.quiet⟩
  have hcov := h.covered hstop hw
  have hstop : s.stop = false := hstop
  simp only [hstop, List.length_append, List.length_singleton, Bool.false_eq_true, if_false]
  omega

/-- A worker leaves the wait, or comes back from a job: one more is awake. -/
theorem woken {i : Fin n} (h : Watched s) (hi : s.worker i ≠ .awake) :
    Watched { s with worker := Function.update s.worker i .awake } ∧
      (s.stop = false → (∃ j, Function.update s.worker i .awake j = .waiting) →
        s.jobs.length + 1 ≤
          s.pending.length + census (Function.update s.worker i .awake) .awake) := by
  have hlift : ∀ j, Function.update s.worker i .awake j = .waiting → s.worker j = .waiting := by
    intro j hj
    rcases update_cases hj with ⟨_, hj⟩ | ⟨_, hj⟩
    · cases hj
    · exact hj
  have hcov : s.stop = false → (∃ j, Function.update s.worker i .awake j = .waiting) →
      s.jobs.length + 1 ≤
        s.pending.length + census (Function.update s.worker i .awake) .awake := by
    rintro hstop ⟨j, hj⟩
    have hle := h.covered hstop ⟨j, hlift j hj⟩
    rw [census_join hi]
    omega
  refine ⟨⟨fun hstop hw => Nat.le_of_succ_le (hcov hstop hw), fun hn => ?_⟩, hcov⟩
  exact ⟨(h.quiet hn).1, fun j hj => (h.quiet hn).2 j (hlift j hj)⟩

theorem notifyOne {c : Caller n} {job : Nat} {woken : Option (Fin n)} (h : Watched s)
    (hs : s.notifyOne c job woken = some s') : Watched s' := by
  obtain ⟨hp, ⟨i, hi, rfl⟩ | ⟨hnone, rfl⟩⟩ := notifyOne_inv hs
  · -- the notification that is no longer pending has woken the worker
    obtain ⟨hw, hcov⟩ := h.woken (i := i) (by simp [hi])
    refine ⟨fun hstop hex => ?_, hw.quiet⟩
    have hle := hcov hstop hex
    have hlen := List.length_erase_of_mem hp
    have hpos := List.length_pos_of_mem hp
    simp only [hlen]
    omega
  · exact ⟨fun _ hex => hex.elim fun i hi => absurd hi (hnone i), h.quiet⟩

theorem takeJob {i : Fin n} (h : Watched s) (hs : s.takeJob i = some s') : Watched s' := by
  obtain ⟨hi, ⟨hjobs, hstop, rfl⟩ | ⟨_, hstop, rfl⟩ | ⟨job, jobs, hjobs, rfl⟩⟩ := takeJob_inv hs
  · refine ⟨fun _ _ => by simp [hjobs], fun hn => ?_⟩
    rw [(h.quiet hn).1] at hstop
    cases hstop
  · refine ⟨fun hf => ?_, fun hn => ⟨hstop, fun j hj => ?_⟩⟩
    · rw [hstop] at hf
      cases hf
    · rcases update_cases hj with ⟨_, hj⟩ | ⟨_, hj⟩
      · cases hj
      · exact (h.quiet hn).2 j hj
  · have hlift : ∀ j, Function.update s.worker i (.running job) j = .waiting →
        s.worker j = .waiting := by
      intro j hj
      rcases update_cases hj with ⟨_, hj⟩ | ⟨_, hj⟩
      · cases hj
      · exact hj
    refine ⟨?_, fun hn => ⟨(h.quiet hn).1, fun j hj => (h.quiet hn).2 j (hlift j hj)⟩⟩
    rintro hstop ⟨j, hj⟩
    have hle := h.covered hstop ⟨j, hlift j hj⟩
    have hleave := census_leave (p := .running job) hi (by simp)
    rw [hjobs, List.length_cons] at hle
    simp only
    omega

theorem step {l : PoolLabel n} (h : Watched s) (hs : s.step l = some s') : Watched s' := by
  cases l with
  | asyncRunJob c => exact h.asyncRunJob hs
  | notifyOne c job woken => exact h.notifyOne hs
  | takeJob i => exact h.takeJob hs
  | spurious i =>
    obtain ⟨hi, rfl⟩ := spurious_inv hs
    exact (h.woken (by simp [hi])).1
  | finish i =>
    obtain ⟨job, hi, rfl⟩ := finish_inv hs
    obtain ⟨hw, _⟩ := h.woken (i := i) (by simp [hi])
    exact ⟨hw.covered, hw.quiet⟩
  | setStop =>
    rw [setStop_inv hs]
    exact ⟨by simp, fun hn => ⟨rfl, (h.quiet hn).2⟩⟩
  | notifyAll =>
    obtain ⟨hstop, rfl⟩ := notifyAll_inv hs
    refine ⟨fun hf => ?_, fun _ => ⟨hstop, fun i => ?_⟩⟩
    · have hf : s.stop = false := hf
      rw [hstop] at hf
      cases hf
    · by_cases hi : s.worker i = .waiting <;> simp [hi]

end Watched

theorem Reaches.watched (h : Reaches ls s) : Watched s :=
  Run.invariant h .create fun _ _ _ ha hs => ha.step hs

/-- Only a submission draws a job number, only the destructor stops the pool. -/
theorem step_counts {l : PoolLabel n} (hs : s.step l = some s') :
    s'.next = s.next + (if l.isSubmit then 1 else 0) ∧
      s'.stop = (s.stop || l = .setStop) := by
  cases l with
  | asyncRunJob c => rw [asyncRunJob_inv hs]; simp
  | notifyOne c job woken => obtain ⟨_, ⟨_, _, rfl⟩ | ⟨_, rfl⟩⟩ := notifyOne_inv hs <;> simp
  | takeJob i =>
    obtain ⟨_, ⟨_, _, rfl⟩ | ⟨_, _, rfl⟩ | ⟨_, _, _, rfl⟩⟩ := takeJob_inv hs <;> simp
  | spurious i => obtain ⟨_, rfl⟩ := spurious_inv hs; simp
  | finish i => obtain ⟨_, _, rfl⟩ := finish_inv hs; simp
  | setStop => rw [setStop_inv hs]; simp
  | notifyAll => obtain ⟨_, rfl⟩ := notifyAll_inv hs; simp

theorem Reaches.counts (h : Reaches ls s) :
    s.next = ls.countP (·.isSubmit) ∧ s.stop = ls.any (· = .setStop) := by
  unfold Reaches at h
  induction h with
  | nil => exact ⟨rfl, rfl⟩
  | snoc _ hs ih =>
    obtain ⟨hnext, hstop⟩ := step_counts hs
    constructor
    · rw [hnext, ih.1, List.countP_append, List.countP_singleton]
    · rw [hstop, ih.2]
      simp [List.any_append]

/-- Workers that are all running a job have started as many jobs as there are workers. -/
theorem Books.length_le_started (h : Books s) (hrun : ∀ i, ∃ job, s.worker i = .running job) :
    n ≤ s.started.length := by
  choose f hf using hrun
  have hinj : Function.Injective f := fun i j hij => h.distinct i j (f i) (hf i) (hij ▸ hf j)
  have hsub : (List.finRange n).map f ⊆ s.started := by
    intro job hjob
    obtain ⟨i, _, rfl⟩ := List.mem_map.1 hjob
    exact h.running i _ (hf i)
  have hnodup : ((List.finRange n).map f).Nodup := (List.nodup_finRange n).map hinj
  simpa using (List.subperm_of_subset hnodup hsub).length_le

/-- The pool as `Server::serve` uses it: no more jobs than workers, and no destructor. The
loops never return, which the bound below does not even need. -/
structure Serves (ls : List (PoolLabel n)) : Prop where
  submits : ls.countP (·.isSubmit) ≤ n
  alive : .setStop ∉ ls

/-- Under `serve` no loop stays queued once every notification is out and nobody is about
to test the queue. -/
theorem serve_leaves_no_loop (h : Reaches ls s) (hls : Serves ls) (hp : s.pending = [])
    (hawake : ∀ i, s.worker i ≠ .awake) : s.jobs = [] := by
  have hstop : s.stop = false := by
    rw [h.counts.2, List.any_eq_false]
    intro l hl
    have hne : l ≠ .setStop := fun he => hls.alive (he ▸ hl)
    simp [hne]
  by_cases hw : ∃ i, s.worker i = .waiting
  · have hle := h.watched.covered hstop hw
    rw [hp, census_eq_zero.2 hawake] at hle
    exact List.length_eq_zero_iff.1 (Nat.le_zero.1 hle)
  · have hb := h.books
    have hrun : ∀ i, ∃ job, s.worker i = .running job := by
      intro i
      cases hi : s.worker i with
      | awake => exact absurd hi (hawake i)
      | waiting => exact absurd ⟨i, hi⟩ hw
      | running job => exact ⟨job, rfl⟩
      | exited =>
        rw [(hb.exited i hi).1] at hstop
        cases hstop
    have hlen := congrArg List.length hb.order
    have hle := hb.length_le_started hrun
    have hnext := h.counts.1
    have hsub := hls.submits
    rw [List.length_append, List.length_range] at hlen
    exact List.length_eq_zero_iff.1 (by omega)

/-- In every reachable state: while a worker waits and the pool is not stopped, the queued
jobs are covered by pending notifications and awake workers; after `notify_all` nobody
waits; and under `serve` a quiet pool has no loop left in its queue. -/
theorem no_job_stranded (h : Reaches ls s) :
    (s.stop = false → (∃ i, s.worker i = .waiting) →
      s.jobs.length ≤ s.pending.length + census s.worker .awake) ∧
    (s.notified = true → ∀ i, s.worker i ≠ .waiting) ∧
    (Serves ls → s.pending = [] → (∀ i, s.worker i ≠ .awake) → s.jobs = []) :=
  ⟨h.watched.covered, fun hn => (h.watched.quiet hn).2, serve_leaves_no_loop h⟩

/-- Two loops are submitted while the first of two workers sleeps. -/
def twoLoops {n : Nat} (i j : Fin n) : List (PoolLabel n) :=
  [.takeJob i, .asyncRunJob (.thread 0), .notifyOne (.thread 0) 0 (some i), .asyncRunJob (.thread 0),
    .notifyOne (.thread 0) 1 none, .takeJob j, .takeJob i]

theorem sleeping_worker_takes_loop :
    ∃ s, Reaches (twoLoops (0 : Fin 2) 1) s ∧ Serves (twoLoops (0 : Fin 2) 1) ∧ s.pending = [] ∧
      (∀ i, s.worker i ≠ .awake) ∧ s.worker 0 = .running 1 ∧ s.jobs = [] := by
  obtain ⟨s, hs, hp, hawake, hworker⟩ : ∃ s, runAll step (create 2) (twoLoops 0 1) = some s ∧ s.pending = [] ∧
      (∀ i, s.worker i ≠ .awake) ∧ s.worker 0 = .running 1 := ⟨_, rfl, rfl, by decide, rfl⟩
  have hserves : Serves (twoLoops (0 : Fin 2) 1) := ⟨by decide, by decide⟩
  obtain ⟨_, _, hserve⟩ := no_job_stranded (run_of_runAll hs)
  exact ⟨s, run_of_runAll hs, hserves, hp, hawake, hworker, hserve hserves hp hawake⟩

end ThreadPool
end Netier
