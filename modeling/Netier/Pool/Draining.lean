import Mathlib.Data.List.Nodup
import Mathlib.Data.List.Range
import Netier.Pool.ThreadPool

/-! Every job is started at most once, in the order of the queue, and a pool whose
workers have all exited has finished every job whose submission returned. -/
namespace Netier.ThreadPool
open Lib
variable {n : Nat} {s s' : ThreadPool n}

theorem update_cases {ι σ : Type} [DecidableEq ι] {f : ι → σ} {i k : ι} {p q : σ}
    (h : Function.update f k p i = q) : i = k ∧ p = q ∨ i ≠ k ∧ f i = q := by
  by_cases hi : i = k
  · subst hi
    exact .inl ⟨rfl, by simpa using h⟩
  · exact .inr ⟨hi, by simpa [hi] using h⟩

/-- Where every job is: queued, running on one worker, or finished. -/
structure Books (s : ThreadPool n) : Prop where
  order : s.started ++ s.jobs = List.range s.next
  pending : ∀ p ∈ s.pending, p.2 < s.next
  returned : ∀ job ∈ s.returned, job < s.next
  running : ∀ i job, s.worker i = .running job → job ∈ s.started
  distinct : ∀ i j job, s.worker i = .running job → s.worker j = .running job → i = j
  finished : ∀ job ∈ s.finished, job ∈ s.started
  unfinished : ∀ i job, s.worker i = .running job → job ∉ s.finished
  once : s.finished.Nodup
  done : ∀ job ∈ s.started, job ∈ s.finished ∨ ∃ i, s.worker i = .running job
  exited : ∀ i, s.worker i = .exited → s.stop = true ∧
    (∀ p ∈ s.pending, p.2 ∈ s.started) ∧ ∀ job ∈ s.returned, job ∈ s.started

namespace Books

theorem create : Books (create n) := by
  constructor <;> simp [ThreadPool.create]

theorem started_nodup (h : Books s) : s.started.Nodup :=
  (List.nodup_append.1 (h.order ▸ List.nodup_range)).1

theorem asyncRunJob {c : Caller n} (h : Books s) (hs : s.asyncRunJob c = some s') : Books s' := by
  rw [asyncRunJob_inv hs]
  refine ⟨?_, ?_, ?_, h.running, h.distinct, h.finished, h.unfinished, h.once, h.done, ?_⟩
  · rw [← List.append_assoc, h.order, List.range_succ]
  · intro p hp
    split at hp
    · exact Nat.lt_succ_of_lt (h.pending p hp)
    · rcases List.mem_append.1 hp with hp | hp
      · exact Nat.lt_succ_of_lt (h.pending p hp)
      · rw [List.mem_singleton.1 hp]
        exact Nat.lt_succ_self _
  · exact fun job hj => Nat.lt_succ_of_lt (h.returned job hj)
  · intro i hi
    obtain ⟨hstop, hp, hr⟩ := h.exited i hi
    refine ⟨hstop, ?_, hr⟩
    simpa [hstop] using hp

/-- What changes neither the queue nor what runs keeps the books. -/
theorem of_workers {w : Fin n → Worker} (h : Books s)
    (hrun : ∀ i job, w i = .running job ↔ s.worker i = .running job)
    (hexit : ∀ i, w i = .exited → s.stop = true ∧ s.jobs = [] ∨ s.worker i = .exited) :
    Books { s with worker := w } := by
  refine ⟨h.order, h.pending, h.returned, ?_, ?_, h.finished, ?_, h.once, ?_, ?_⟩
  · exact fun i job hi => h.running i job ((hrun i job).1 hi)
  · exact fun i j job hi hj => h.distinct i j job ((hrun i job).1 hi) ((hrun j job).1 hj)
  · exact fun i job hi => h.unfinished i job ((hrun i job).1 hi)
  · exact fun job hj => (h.done job hj).imp_right fun ⟨i, hi⟩ => ⟨i, (hrun i job).2 hi⟩
  · intro i hi
    rcases hexit i hi with ⟨hstop, hjobs⟩ | hi'
    · -- with an empty queue everything submitted so far has been started
      have hall : s.started = List.range s.next := by simpa [hjobs] using h.order
      refine ⟨hstop, fun p hp => ?_, fun job hj => ?_⟩
      · rw [hall]
        exact List.mem_range.2 (h.pending p hp)
      · rw [hall]
        exact List.mem_range.2 (h.returned job hj)
    · exact h.exited i hi'

theorem notified {c : Caller n} {job : Nat} (h : Books s) (hp : (c, job) ∈ s.pending) :
    Books { s with pending := s.pending.erase (c, job), returned := s.returned ++ [job] } := by
  refine ⟨h.order, ?_, ?_, h.running, h.distinct, h.finished, h.unfinished, h.once, h.done, ?_⟩
  · exact fun p hp' => h.pending p (List.mem_of_mem_erase hp')
  · intro j hj
    rcases List.mem_append.1 hj with hj | hj
    · exact h.returned j hj
    · rw [List.mem_singleton.1 hj]
      exact h.pending _ hp
  · intro i hi
    obtain ⟨hstop, hpend, hret⟩ := h.exited i hi
    refine ⟨hstop, fun p hp' => hpend p (List.mem_of_mem_erase hp'), fun j hj => ?_⟩
    rcases List.mem_append.1 hj with hj | hj
    · exact hret j hj
    · rw [List.mem_singleton.1 hj]
      exact hpend _ hp

/-- A worker moves between two places of its loop outside a job. -/
theorem move {i : Fin n} {p : Worker} (h : Books s) (hi : ∀ job, s.worker i ≠ .running job)
    (hp : ∀ job, p ≠ .running job) (hexit : p = .exited → s.stop = true ∧ s.jobs = []) :
    Books { s with worker := Function.update s.worker i p } := by
  refine h.of_workers (fun j job => ⟨fun hj => ?_, fun hj => ?_⟩) fun j hj => ?_
  · rcases update_cases hj with ⟨_, hj⟩ | ⟨_, hj⟩
    · exact absurd hj (hp job)
    · exact hj
  · have hne : j ≠ i := by
      rintro rfl
      exact hi job hj
    simpa [hne] using hj
  · rcases update_cases hj with ⟨_, hj⟩ | ⟨_, hj⟩
    · exact .inl (hexit hj)
    · exact .inr hj

theorem notifyOne {c : Caller n} {job : Nat} {woken : Option (Fin n)} (h : Books s)
    (hs : s.notifyOne c job woken = some s') : Books s' := by
  obtain ⟨hp, ⟨i, hi, rfl⟩ | ⟨_, rfl⟩⟩ := notifyOne_inv hs
  · exact (h.notified hp).move (fun job hj => by simp [hi] at hj) (by simp) (by simp)
  · exact h.notified hp

theorem order_cons {job : Nat} {jobs : List Nat} (h : Books s) (hjobs : s.jobs = job :: jobs) :
    (s.started ++ [job]) ++ jobs = List.range s.next := by
  rw [← h.order, hjobs, List.append_assoc]
  rfl

/-- The job at the front of the queue has not been started. -/
theorem fresh {job : Nat} {jobs : List Nat} (h : Books s) (hjobs : s.jobs = job :: jobs) :
    job ∉ s.started := by
  have hnodup : (s.started ++ [job]).Nodup :=
    (List.nodup_append.1 (h.order_cons hjobs ▸ List.nodup_range)).1
  intro hmem
  exact (List.nodup_append.1 hnodup).2.2 job hmem job (by simp) rfl

/-- A worker takes the job at the front of the queue. -/
theorem start {i : Fin n} {job : Nat} {jobs : List Nat} (h : Books s) (hi : s.worker i = .awake)
    (hjobs : s.jobs = job :: jobs) :
    Books { s with jobs, started := s.started ++ [job]
                   worker := Function.update s.worker i (.running job) } := by
  have hfresh := h.fresh hjobs
  refine ⟨h.order_cons hjobs, h.pending, h.returned, ?_, ?_, ?_, ?_, h.once, ?_, ?_⟩
  · intro j t hj
    rcases update_cases hj with ⟨_, hj⟩ | ⟨_, hj⟩
    · cases hj
      simp
    · exact List.mem_append_left _ (h.running j t hj)
  · intro j k t hj hk
    rcases update_cases hj with ⟨hji, hj⟩ | ⟨_, hj⟩
    · cases hj
      rcases update_cases hk with ⟨hki, _⟩ | ⟨_, hk⟩
      · exact hji.trans hki.symm
      · exact absurd (h.running k job hk) hfresh
    · rcases update_cases hk with ⟨_, hk⟩ | ⟨_, hk⟩
      · cases hk
        exact absurd (h.running j job hj) hfresh
      · exact h.distinct j k t hj hk
  · exact fun t ht => List.mem_append_left _ (h.finished t ht)
  · intro j t hj hfin
    rcases update_cases hj with ⟨_, hj⟩ | ⟨_, hj⟩
    · cases hj
      exact hfresh (h.finished job hfin)
    · exact h.unfinished j t hj hfin
  · intro t ht
    rcases List.mem_append.1 ht with ht | ht
    · refine (h.done t ht).imp_right fun ⟨j, hj⟩ => ⟨j, ?_⟩
      have hne : j ≠ i := by
        rintro rfl
        simp [hi] at hj
      simpa [hne] using hj
    · rw [List.mem_singleton.1 ht]
      exact .inr ⟨i, by simp⟩
  · intro j hj
    rcases update_cases hj with ⟨_, hj⟩ | ⟨_, hj⟩
    · cases hj
    · obtain ⟨hstop, hp, hr⟩ := h.exited j hj
      exact ⟨hstop, fun p hp' => List.mem_append_left _ (hp p hp'),
        fun t ht => List.mem_append_left _ (hr t ht)⟩

theorem takeJob {i : Fin n} (h : Books s) (hs : s.takeJob i = some s') : Books s' := by
  obtain ⟨hi, ⟨_, _, rfl⟩ | ⟨hjobs, hstop, rfl⟩ | ⟨job, jobs, hjobs, rfl⟩⟩ := takeJob_inv hs
  · exact h.move (by simp [hi]) (by simp) (by simp)
  · exact h.move (by simp [hi]) (by simp) fun _ => ⟨hstop, hjobs⟩
  · exact h.start hi hjobs

theorem finish {i : Fin n} (h : Books s) (hs : s.finish i = some s') : Books s' := by
  obtain ⟨job, hi, rfl⟩ := finish_inv hs
  refine ⟨h.order, h.pending, h.returned, ?_, ?_, ?_, ?_, ?_, ?_, ?_⟩
  · intro j t hj
    rcases update_cases hj with ⟨_, hj⟩ | ⟨_, hj⟩
    · cases hj
    · exact h.running j t hj
  · intro j k t hj hk
    rcases update_cases hj with ⟨_, hj⟩ | ⟨_, hj⟩
    · cases hj
    · rcases update_cases hk with ⟨_, hk⟩ | ⟨_, hk⟩
      · cases hk
      · exact h.distinct j k t hj hk
  · intro t ht
    rcases List.mem_append.1 ht with ht | ht
    · exact h.finished t ht
    · rw [List.mem_singleton.1 ht]
      exact h.running i job hi
  · intro j t hj hfin
    rcases update_cases hj with ⟨_, hj⟩ | ⟨hne, hj⟩
    · cases hj
    · rcases List.mem_append.1 hfin with hfin | hfin
      · exact h.unfinished j t hj hfin
      · rw [List.mem_singleton.1 hfin] at hj
        exact hne (h.distinct j i job hj hi)
  · refine List.nodup_append.2 ⟨h.once, by simp, ?_⟩
    rintro t ht u hu rfl
    rw [List.mem_singleton.1 hu] at ht
    exact h.unfinished i job hi ht
  · intro t ht
    rcases h.done t ht with hfin | ⟨j, hj⟩
    · exact .inl (List.mem_append_left _ hfin)
    · by_cases hji : j = i
      · subst hji
        rw [hi] at hj
        cases hj
        exact .inl (by simp)
      · exact .inr ⟨j, by simpa [hji] using hj⟩
  · intro j hj
    rcases update_cases hj with ⟨_, hj⟩ | ⟨_, hj⟩
    · cases hj
    · exact h.exited j hj

theorem step {l : PoolLabel n} (h : Books s) (hs : s.step l = some s') : Books s' := by
  cases l with
  | asyncRunJob c => exact h.asyncRunJob hs
  | notifyOne c job woken => exact h.notifyOne hs
  | takeJob i => exact h.takeJob hs
  | spurious i =>
    obtain ⟨hi, rfl⟩ := spurious_inv hs
    exact h.move (by simp [hi]) (by simp) (by simp)
  | finish i => exact h.finish hs
  | setStop =>
    rw [setStop_inv hs]
    refine ⟨h.order, h.pending, h.returned, h.running, h.distinct, h.finished, h.unfinished,
      h.once, h.done, fun i hi => ⟨rfl, (h.exited i hi).2⟩⟩
  | notifyAll =>
    obtain ⟨_, rfl⟩ := notifyAll_inv hs
    have hw := h.of_workers (w := fun i => if s.worker i = .waiting then .awake else s.worker i)
      (fun i job => by by_cases hi : s.worker i = .waiting <;> simp [hi])
      (fun i hi => by by_cases hw : s.worker i = .waiting <;> simp_all)
    exact ⟨hw.order, hw.pending, hw.returned, hw.running, hw.distinct, hw.finished, hw.unfinished,
      hw.once, hw.done, hw.exited⟩

end Books

theorem Reaches.books {ls : List (PoolLabel n)} (h : Reaches ls s) : Books s :=
  Run.invariant h .create fun _ _ _ ha hs => ha.step hs

/-- A worker exits only in its own critical section, which finds the queue empty and the
pool stopped. -/
theorem exits_drained {l : PoolLabel n} {i : Fin n} (hs : s.step l = some s')
    (hi : s.worker i ≠ .exited) (hi' : s'.worker i = .exited) : s.jobs = [] ∧ s.stop = true := by
  cases l with
  | asyncRunJob c => rw [asyncRunJob_inv hs] at hi'; exact absurd hi' hi
  | notifyOne c job woken =>
    obtain ⟨_, ⟨j, _, rfl⟩ | ⟨_, rfl⟩⟩ := notifyOne_inv hs
    · rcases update_cases hi' with ⟨_, h⟩ | ⟨_, h⟩
      · cases h
      · exact absurd h hi
    · exact absurd hi' hi
  | takeJob j =>
    obtain ⟨_, ⟨_, _, rfl⟩ | ⟨hjobs, hstop, rfl⟩ | ⟨job, jobs, _, rfl⟩⟩ := takeJob_inv hs
    · rcases update_cases hi' with ⟨_, h⟩ | ⟨_, h⟩
      · cases h
      · exact absurd h hi
    · exact ⟨hjobs, hstop⟩
    · rcases update_cases hi' with ⟨_, h⟩ | ⟨_, h⟩
      · cases h
      · exact absurd h hi
  | spurious j =>
    obtain ⟨_, rfl⟩ := spurious_inv hs
    rcases update_cases hi' with ⟨_, h⟩ | ⟨_, h⟩
    · cases h
    · exact absurd h hi
  | finish j =>
    obtain ⟨_, _, rfl⟩ := finish_inv hs
    rcases update_cases hi' with ⟨_, h⟩ | ⟨_, h⟩
    · cases h
    · exact absurd h hi
  | setStop => rw [setStop_inv hs] at hi'; exact absurd hi' hi
  | notifyAll =>
    obtain ⟨_, rfl⟩ := notifyAll_inv hs
    by_cases hw : s.worker i = .waiting
    · simp [hw] at hi'
    · simp only [hw, if_false] at hi'
      exact absurd hi' hi

/-- In every interleaving: jobs leave the queue in the order they entered it, none twice;
a worker exits only from a stopped pool with an empty queue; and once all workers have
exited, every job whose submission returned has been started and has finished. -/
theorem jobs_run_exactly_once {ls : List (PoolLabel n)} (hn : 0 < n) (h : Reaches ls s) :
    s.started ++ s.jobs = List.range s.next ∧ s.started.Nodup ∧
      (∀ i, s.worker i = .exited → s.stop = true) ∧
      (∀ l s' i, s.step l = some s' → s.worker i ≠ .exited → s'.worker i = .exited →
        s.jobs = [] ∧ s.stop = true) ∧
      ((∀ i, s.worker i = .exited) → ∀ job ∈ s.returned, job ∈ s.started ∧ job ∈ s.finished) := by
  have hb := h.books
  refine ⟨hb.order, hb.started_nodup, fun i hi => (hb.exited i hi).1,
    fun l s' i => exits_drained, fun hall job hjob => ?_⟩
  have hstarted := (hb.exited ⟨0, hn⟩ (hall _)).2.2 job hjob
  refine ⟨hstarted, ?_⟩
  rcases hb.done job hstarted with hfin | ⟨i, hi⟩
  · exact hfin
  · rw [hall i] at hi
    cases hi

/-- The call returns before the destructor runs, and the notification finds nobody waiting. -/
def submittedFirst {n : Nat} (i : Fin n) : List (PoolLabel n) :=
  [.asyncRunJob (.thread 0), .notifyOne (.thread 0) 0 none, .setStop, .takeJob i, .finish i, .notifyAll,
    .takeJob i]

/-- Its job is finished by the joins. -/
theorem submitted_job_drained :
    ∃ s, Reaches (submittedFirst (0 : Fin 1)) s ∧ (∀ i, s.worker i = .exited) ∧ s.returned = [0] ∧
      s.started ++ s.jobs = List.range s.next ∧ s.started.Nodup ∧ 0 ∈ s.started ∧ 0 ∈ s.finished := by
  obtain ⟨s, hs, hall, hret⟩ : ∃ s, runAll step (create 1) (submittedFirst 0) = some s ∧
      (∀ i, s.worker i = .exited) ∧ s.returned = [0] := ⟨_, rfl, by decide, rfl⟩
  obtain ⟨horder, honce, _, _, hdrained⟩ := jobs_run_exactly_once (by decide) (run_of_runAll hs)
  obtain ⟨hstarted, hfinished⟩ := hdrained hall 0 (by simp [hret])
  exact ⟨s, run_of_runAll hs, hall, hret, horder, honce, hstarted, hfinished⟩

end Netier.ThreadPool
