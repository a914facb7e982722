import Netier.Pool.Waiting

/-! A stopped pool comes to rest: once `notify_all` has woken the workers, every step that is
not a new submission brings the joins nearer. -/
namespace Netier
open Lib
variable {n : Nat}

/-- The steps a worker has before it at most until it tests the queue again or is gone. -/
def Worker.steps : Worker → Nat
  | .awake => 1
  | .waiting => 0
  | .running _ => 2
  | .exited => 0

/-- Of a stopped pool, a submission yields two steps, and every other step is one of those. -/
def PoolLabel.cost (l : PoolLabel n) : Nat := if l.isSubmit then 0 else 1
def PoolLabel.yields (l : PoolLabel n) : Nat := if l.isSubmit then 2 else 0

namespace ThreadPool
variable {s s' : ThreadPool n} {i : Fin n} {ls ks : List (PoolLabel n)}

/-- The steps that are left without a new submission. -/
def remaining (s : ThreadPool n) : Nat := 2 * s.jobs.length + s.pending.length + burden Worker.steps s.worker

/-- The destructor has notified, and nobody waits. -/
structure Stopped (s : ThreadPool n) : Prop where
  stop : s.stop = true
  notified : s.notified = true
  quiet : ∀ i, s.worker i ≠ .waiting

theorem Stopped.move {p : Worker} (h : Stopped s) (hp : p ≠ .waiting) (j : Fin n) :
    Function.update s.worker i p j ≠ .waiting := by
  intro hj
  rcases update_cases hj with ⟨_, hj⟩ | ⟨_, hj⟩
  · exact hp hj
  · exact h.quiet j hj

/-- Every step of a stopped pool keeps the account. -/
theorem Stopped.step {l : PoolLabel n} (h : Stopped s) (hs : s.step l = some s') :
    Stopped s' ∧ s'.remaining + l.cost = s.remaining + l.yields := by
  cases l with
  | asyncRunJob c =>
    rw [asyncRunJob_inv hs]
    refine ⟨⟨h.stop, h.notified, h.quiet⟩, ?_⟩
    simp only [remaining, h.stop, if_true, PoolLabel.cost, PoolLabel.yields, PoolLabel.isSubmit,
      List.length_append, List.length_singleton]
    omega
  | notifyOne c job woken =>
    obtain ⟨hp, ⟨i, hi, _⟩ | ⟨_, rfl⟩⟩ := notifyOne_inv hs
    · exact absurd hi (h.quiet i)
    · have hlen := List.length_erase_of_mem hp
      have hpos := List.length_pos_of_mem hp
      refine ⟨⟨h.stop, h.notified, h.quiet⟩, ?_⟩
      simp only [remaining, hlen, PoolLabel.cost, PoolLabel.yields, PoolLabel.isSubmit]
      simp
      omega
  | takeJob i =>
    obtain ⟨hi, ⟨_, hstop, _⟩ | ⟨hjobs, _, rfl⟩ | ⟨job, jobs, hjobs, rfl⟩⟩ := takeJob_inv hs
    · rw [h.stop] at hstop
      cases hstop
    · have hb := burden_update Worker.steps s.worker i .exited
      refine ⟨⟨h.stop, h.notified, h.move (by simp)⟩, ?_⟩
      simp only [hi, Worker.steps] at hb
      simp only [remaining, PoolLabel.cost, PoolLabel.yields, PoolLabel.isSubmit]
      simp
      omega
    · have hb := burden_update Worker.steps s.worker i (.running job)
      refine ⟨⟨h.stop, h.notified, h.move (by simp)⟩, ?_⟩
      simp only [hi, Worker.steps] at hb
      simp only [remaining, hjobs, PoolLabel.cost, PoolLabel.yields, PoolLabel.isSubmit, List.length_cons]
      simp
      omega
  | spurious i => exact absurd (spurious_inv hs).1 (h.quiet i)
  | finish i =>
    obtain ⟨job, hi, rfl⟩ := finish_inv hs
    have hb := burden_update Worker.steps s.worker i .awake
    refine ⟨⟨h.stop, h.notified, h.move (by simp)⟩, ?_⟩
    simp only [hi, Worker.steps] at hb
    simp only [remaining, PoolLabel.cost, PoolLabel.yields, PoolLabel.isSubmit]
    simp
    omega
  | setStop => simp [ThreadPool.step, setStop, h.stop] at hs
  | notifyAll => simp [ThreadPool.step, notifyAll, h.notified] at hs

theorem remaining_le (s : ThreadPool n) :
    s.remaining ≤ 2 * s.jobs.length + s.pending.length + 2 * n := by
  have hsteps : ∀ p : Worker, p.steps ≤ 2 := fun p => by cases p <;> simp [Worker.steps]
  have hb := burden_le hsteps s.worker
  simp only [Fintype.card_fin] at hb
  unfold remaining
  omega

theorem cost_sum (ks : List (PoolLabel n)) :
    (ks.map PoolLabel.cost).sum = ks.countP fun l => !l.isSubmit := by
  have hcost : PoolLabel.cost (n := n) = fun l => if !l.isSubmit then 1 else 0 := by
    funext l
    cases l <;> rfl
  rw [hcost, sum_flat, Nat.one_mul]

theorem yields_sum (ks : List (PoolLabel n)) :
    (ks.map PoolLabel.yields).sum = 2 * ks.countP PoolLabel.isSubmit := sum_flat _ _ _

/-- A stopped pool whose parties can only submit has let all its workers go. -/
theorem Stopped.at_rest (h : Stopped s) (hrest : ∀ l s', s.step l = some s' → l.isSubmit = true) :
    (∀ i, s.worker i = .exited) ∧ s.pending = [] := by
  have hpending : s.pending = [] := by
    rw [List.eq_nil_iff_forall_not_mem]
    rintro ⟨c, job⟩ hp
    have hnobody : ¬ ∃ i, s.worker i = .waiting := fun ⟨i, hi⟩ => h.quiet i hi
    have hstep : s.step (.notifyOne c job none) = some { s with
        pending := s.pending.erase (c, job), returned := s.returned ++ [job] } := by
      simp only [ThreadPool.step, notifyOne, hp, hnobody, if_true, if_false]
    exact absurd (hrest _ _ hstep) (by simp)
  refine ⟨fun i => ?_, hpending⟩
  cases hi : s.worker i with
  | awake =>
    cases hjobs : s.jobs with
    | nil =>
      have hstep : s.step (.takeJob i) =
          some { s with worker := Function.update s.worker i .exited } := by
        simp [ThreadPool.step, takeJob, hi, hjobs, h.stop]
      exact absurd (hrest _ _ hstep) (by simp)
    | cons job jobs =>
      have hstep : s.step (.takeJob i) = some { s with
          jobs, worker := Function.update s.worker i (.running job), started := s.started ++ [job] } := by
        simp [ThreadPool.step, takeJob, hi, hjobs]
      exact absurd (hrest _ _ hstep) (by simp)
  | waiting => exact absurd hi (h.quiet i)
  | running job =>
    have hstep : s.step (.finish i) = some { s with
        worker := Function.update s.worker i .awake, finished := s.finished ++ [job] } := by
      simp [ThreadPool.step, finish, hi, hpending]
    exact absurd (hrest _ _ hstep) (by simp)
  | exited => rfl

theorem Reaches.stopped (h : Reaches ls s) (hn : s.notified = true) : Stopped s :=
  ⟨(h.watched.quiet hn).1, hn, (h.watched.quiet hn).2⟩

/-- When the workers are gone, what was submitted in time has been done. -/
theorem Books.all_done (hb : Books s) (hn : 0 < n) (hall : ∀ i, s.worker i = .exited) :
    ∀ job ∈ s.returned, job ∈ s.finished := by
  intro job hjob
  have hstarted := (hb.exited ⟨0, hn⟩ (hall _)).2.2 job hjob
  refine (hb.done job hstarted).resolve_right ?_
  rintro ⟨i, hi⟩
  rw [hall i] at hi
  cases hi

/-- After `notify_all` the parties have only so many steps before them as the queue, the calls
under way and the workers account for, and two more for every new submission; and where
nothing but a new submission is left to do, the workers have exited, so that the joins
return, no call is under way, and every job whose submission returned has finished. -/
theorem shutdown_terminates (hn : 0 < n) (h : Reaches ls s) (hnotified : s.notified = true)
    (hrun : Run (fun a l b => a.step l = some b) s ks s') :
    ks.countP (fun l => !l.isSubmit) ≤
      2 * s.jobs.length + s.pending.length + 2 * n + 2 * ks.countP PoolLabel.isSubmit ∧
    ((∀ l t, s'.step l = some t → l.isSubmit = true) →
      (∀ i, s'.worker i = .exited) ∧ s'.pending = [] ∧ ∀ job ∈ s'.returned, job ∈ s'.finished) := by
  obtain ⟨hstopped, hbudget⟩ :=
    hrun.budget (h.stopped hnotified) fun _ _ _ ha hl => (ha.step hl).imp_right Nat.le_of_eq
  rw [cost_sum, yields_sum] at hbudget
  refine ⟨?_, fun hrest => ?_⟩
  · have hle := s.remaining_le
    omega
  · obtain ⟨hall, hpending⟩ := hstopped.at_rest hrest
    exact ⟨hall, hpending, (Reaches.books (h.append hrun)).all_done hn hall⟩

/-- One worker, which the destructor finds with a job in the queue. -/
theorem one_worker_joined : ∃ s t : ThreadPool 1, s.jobs = [0] ∧
    Run (fun a l b => a.step l = some b) s [.takeJob 0, .finish 0, .takeJob 0] t ∧
    (∀ i, t.worker i = .exited) ∧ ∀ job ∈ t.returned, job ∈ t.finished := by
  obtain ⟨s, hs, hnotified, hjobs⟩ : ∃ s, runAll step (create 1) [.asyncRunJob (.thread 0),
      .notifyOne (.thread 0) 0 none, .setStop, .notifyAll] = some s ∧ s.notified = true ∧ s.jobs = [0] :=
    ⟨_, rfl, rfl, rfl⟩
  obtain ⟨t, ht, hpending, hall⟩ : ∃ t, runAll step s [.takeJob 0, .finish 0, .takeJob 0] = some t ∧
      t.pending = [] ∧ ∀ i, t.worker i = .exited := by
    cases hs
    exact ⟨_, rfl, rfl, by decide⟩
  have hrun := run_of_runAll ht
  obtain ⟨_, hrest⟩ := shutdown_terminates (by decide) (run_of_runAll hs) hnotified hrun
  obtain ⟨hexited, _, hdone⟩ := hrest fun l u hu => by
    cases l with
    | asyncRunJob c => rfl
    | notifyOne c job woken =>
      have hp := (notifyOne_inv hu).1
      rw [hpending] at hp
      cases hp
    | takeJob i =>
      have hi := (takeJob_inv hu).1
      rw [hall i] at hi
      cases hi
    | spurious i =>
      have hi := (spurious_inv hu).1
      rw [hall i] at hi
      cases hi
    | finish i =>
      obtain ⟨_, hi, _⟩ := finish_inv hu
      rw [hall i] at hi
      cases hi
    | setStop =>
      cases hs
      cases ht
      cases hu
    | notifyAll =>
      cases hs
      cases ht
      cases hu
  exact ⟨s, t, hjobs, hrun, hexited, hdone⟩

end ThreadPool
end Netier
