import Netier.Pool.Waiting

/-! The pool under `Server::serve`: the main thread submits a loop for each of its threads, the
loops do not return, and nobody destroys the pool. -/
namespace Netier
open Lib
variable {n : Nat}

def PoolLabel.isSpurious : PoolLabel n → Bool
  | .spurious _ => true
  | _ => false

/-- One for a thread that is about to test the queue. -/
def Worker.about (p : Worker) : Nat := if p = .awake then 1 else 0

namespace ThreadPool
variable {s s' : ThreadPool n} {l : PoolLabel n} {ls : List (PoolLabel n)}

def InService (s : ThreadPool n) : PoolLabel n → Prop
  | .asyncRunJob c => c = .thread 0 ∧ s.next < n
  | .finish _ | .setStop | .notifyAll => False
  | _ => True

def ServiceStep (s : ThreadPool n) (l : PoolLabel n) (s' : ThreadPool n) : Prop :=
  s.InService l ∧ s.step l = some s'

/-- A thread that runs a loop stays with it. -/
theorem ServiceStep.stays {i : Fin n} {job : Nat} (h : ServiceStep s l s') (hi : s.worker i = .running job) :
    s'.worker i = .running job := by
  obtain ⟨hserve, hs⟩ := h
  have hother {j : Fin n} {p : Worker} (hj : ∀ job, s.worker j ≠ .running job) :
      Function.update s.worker j p i = .running job := by
    have hij : i ≠ j := by
      rintro rfl
      exact hj job hi
    rw [Function.update_of_ne hij, hi]
  cases l with
  | asyncRunJob c =>
    rw [asyncRunJob_inv hs]
    exact hi
  | notifyOne c job' woken =>
    obtain ⟨_, ⟨j, hj, rfl⟩ | ⟨_, rfl⟩⟩ := notifyOne_inv hs
    · exact hother (by simp [hj])
    · exact hi
  | takeJob j =>
    obtain ⟨hj, ⟨_, _, rfl⟩ | ⟨_, _, rfl⟩ | ⟨_, _, _, rfl⟩⟩ := takeJob_inv hs <;> exact hother (by simp [hj])
  | spurious j =>
    obtain ⟨hj, rfl⟩ := spurious_inv hs
    exact hother (by simp [hj])
  | finish | setStop | notifyAll => exact hserve.elim

/-- The pool is neither stopped nor given more than a loop for each thread, and no loop has
come back. -/
structure Underway (s : ThreadPool n) : Prop where
  submitted : s.next ≤ n
  going : s.stop = false
  endless : s.finished = []

/-- The steps of the start-up that are left at most: three for a loop that is not submitted
yet, two for one whose call is under way, and those of the threads. -/
def startupLeft (s : ThreadPool n) : Nat :=
  3 * (n - s.next) + 2 * s.pending.length + burden Worker.about s.worker

theorem create_underway (n : Nat) : Underway (create n) := ⟨Nat.zero_le n, rfl, rfl⟩

theorem create_startupLeft (n : Nat) : (create n).startupLeft ≤ 4 * n := by
  have habout : ∀ p : Worker, Worker.about p ≤ 1 := fun p => by unfold Worker.about; split <;> simp
  have hle := burden_le habout (create n).worker
  rw [Fintype.card_fin] at hle
  have hleft : (create n).startupLeft = 3 * n + burden Worker.about (create n).worker := rfl
  omega

theorem about_leaves {i : Fin n} {p : Worker} (hi : s.worker i = .awake) (hp : p ≠ .awake) :
    burden Worker.about (Function.update s.worker i p) + 1 = burden Worker.about s.worker := by
  simpa [Worker.about, hi, hp] using burden_update Worker.about s.worker i p

theorem about_joins {i : Fin n} (hi : s.worker i = .waiting) :
    burden Worker.about (Function.update s.worker i .awake) = burden Worker.about s.worker + 1 := by
  simpa [Worker.about, hi] using burden_update Worker.about s.worker i .awake

/-- Only a spurious wake-up adds to what is left, and every other step takes from it. -/
theorem Underway.step (h : Underway s) (hs : ServiceStep s l s') :
    Underway s' ∧
      s'.startupLeft + (if !l.isSpurious then 1 else 0) ≤ s.startupLeft + (if l.isSpurious then 1 else 0) := by
  obtain ⟨hserve, hs⟩ := hs
  cases l with
  | asyncRunJob c =>
    have hlt : s.next < n := hserve.2
    rw [asyncRunJob_inv hs]
    refine ⟨⟨hlt, h.going, h.endless⟩, ?_⟩
    simp [startupLeft, h.going, PoolLabel.isSpurious]
    omega
  | notifyOne c job woken =>
    obtain ⟨hp, hs⟩ := notifyOne_inv hs
    have hlen := List.length_erase_of_mem hp
    have hpos := List.length_pos_of_mem hp
    obtain ⟨i, hi, rfl⟩ | ⟨_, rfl⟩ := hs
    · have hjoins := about_joins hi
      refine ⟨⟨h.submitted, h.going, h.endless⟩, ?_⟩
      simp [startupLeft, hlen, PoolLabel.isSpurious]
      omega
    · refine ⟨⟨h.submitted, h.going, h.endless⟩, ?_⟩
      simp [startupLeft, hlen, PoolLabel.isSpurious]
      omega
  | takeJob i =>
    obtain ⟨hi, ⟨_, _, rfl⟩ | ⟨_, _, rfl⟩ | ⟨job, jobs, _, rfl⟩⟩ := takeJob_inv hs
    · have hleaves := about_leaves hi (p := .waiting) (by simp)
      refine ⟨⟨h.submitted, h.going, h.endless⟩, ?_⟩
      simp [startupLeft, PoolLabel.isSpurious]
      omega
    · have hleaves := about_leaves hi (p := .exited) (by simp)
      refine ⟨⟨h.submitted, h.going, h.endless⟩, ?_⟩
      simp [startupLeft, PoolLabel.isSpurious]
      omega
    · have hleaves := about_leaves hi (p := .running job) (by simp)
      refine ⟨⟨h.submitted, h.going, h.endless⟩, ?_⟩
      simp [startupLeft, PoolLabel.isSpurious]
      omega
  | spurious i =>
    obtain ⟨hi, rfl⟩ := spurious_inv hs
    have hjoins := about_joins hi
    refine ⟨⟨h.submitted, h.going, h.endless⟩, ?_⟩
    simp [startupLeft, PoolLabel.isSpurious]
    omega
  | finish | setStop | notifyAll => exact hserve.elim

/-- The steps of the start-up that can still be taken. -/
def Starting (s : ThreadPool n) : Prop := ∃ l s', ServiceStep s l s' ∧ l.isSpurious = false

theorem starting_of (hserve : s.InService l) (hs : (s.step l).isSome) (hl : l.isSpurious = false) :
    s.Starting := by
  obtain ⟨s', hs'⟩ := Option.isSome_iff_exists.1 hs
  exact ⟨l, s', ⟨hserve, hs'⟩, hl⟩

/-- With nothing left of the start-up, the main thread has submitted every loop and every call
has returned, and no thread is about to test the queue. -/
theorem Underway.settled (h : Underway s) (hrest : ¬ s.Starting) :
    s.next = n ∧ s.pending = [] ∧ ∀ i, s.worker i ≠ .awake := by
  have hpending : s.pending = [] := by
    rw [List.eq_nil_iff_forall_not_mem]
    rintro ⟨c, job⟩ hp
    by_cases hw : ∃ i, s.worker i = .waiting
    · obtain ⟨i, hi⟩ := hw
      refine hrest (starting_of (l := .notifyOne c job (some i)) trivial ?_ rfl)
      simp [ThreadPool.step, notifyOne, hp, hi]
    · refine hrest (starting_of (l := .notifyOne c job none) trivial ?_ rfl)
      simp only [ThreadPool.step, notifyOne, hp, hw, if_true, if_false, Option.isSome_some]
  have hnext : s.next = n := by
    by_contra hne
    have hlt := Nat.lt_of_le_of_ne h.submitted hne
    have hcall : s.mayCall (.thread 0) = true := by simp [mayCall, hpending]
    refine hrest (starting_of (l := .asyncRunJob (.thread 0)) ⟨rfl, hlt⟩ ?_ rfl)
    simp [ThreadPool.step, asyncRunJob, hcall, h.going]
  refine ⟨hnext, hpending, fun i hi => ?_⟩
  refine hrest (starting_of (l := .takeJob i) trivial ?_ rfl)
  cases hjobs : s.jobs <;> simp [ThreadPool.step, takeJob, hi, hjobs]

/-- The start-up can be brought to its end from wherever it is. -/
theorem Underway.settles (h : Underway s) : ∃ ls s', Run ServiceStep s ls s' ∧ ¬ s'.Starting := by
  induction hleft : s.startupLeft using Nat.strong_induction_on generalizing s with
  | _ k ih =>
    by_cases hs : s.Starting
    · obtain ⟨l, t, hstep, hl⟩ := hs
      obtain ⟨ht, hle⟩ := h.step hstep
      rw [hl] at hle
      simp only [Bool.not_false, if_true, Bool.false_eq_true, if_false] at hle
      obtain ⟨ls, s', hrun, hrest⟩ := ih t.startupLeft (by omega) ht rfl
      exact ⟨l :: ls, s', .cons hstep hrun, hrest⟩
    · exact ⟨[], s, .nil s, hs⟩

theorem service_reaches (h : Run ServiceStep (create n) ls s) : Reaches ls s := h.mono fun _ _ _ hl => hl.2

theorem service_underway (h : Run ServiceStep (create n) ls s) : Underway s :=
  h.invariant (create_underway n) fun _ _ _ ha hl => (ha.step hl).1

/-- The start-up is over in a number of steps, apart from spurious wake-ups, that depends on the
number of threads only. -/
theorem startup_bounded (h : Run ServiceStep (create n) ls s) :
    ls.countP (fun l => !l.isSpurious) ≤ 4 * n + ls.countP PoolLabel.isSpurious := by
  obtain ⟨_, hbudget⟩ := h.budget (create_underway n) fun _ _ _ ha hl => ha.step hl
  rw [sum_flat, sum_flat, Nat.one_mul, Nat.one_mul] at hbudget
  have hcreate := create_startupLeft n
  omega

/-- Then every loop runs, on a thread of its own. -/
theorem each_loop_runs (h : Run ServiceStep (create n) ls s) (hrest : ¬ s.Starting) :
    ∀ j < n, ∃! i, s.worker i = .running j := by
  have hunder := service_underway h
  have hreach := service_reaches h
  have hb := hreach.books
  obtain ⟨hnext, hpending, hawake⟩ := hunder.settled hrest
  have hserves : Serves ls := by
    refine ⟨hreach.counts.1 ▸ hunder.submitted, fun hstop => ?_⟩
    have hany := hreach.counts.2
    rw [hunder.going, eq_comm, List.any_eq_false] at hany
    exact hany _ hstop (by simp)
  have hjobs := serve_leaves_no_loop hreach hserves hpending hawake
  intro j hj
  have hstarted : j ∈ s.started := by
    have horder := hb.order
    rw [hjobs, List.append_nil, hnext] at horder
    rw [horder]
    exact List.mem_range.2 hj
  have hrunning : ∃ i, s.worker i = .running j := by
    refine (hb.done j hstarted).resolve_left ?_
    simp [hunder.endless]
  obtain ⟨i, hi⟩ := hrunning
  exact ⟨i, hi, fun i' hi' => hb.distinct i' i j hi' hi⟩

/-- Both loops are submitted, the first while nobody waits, and a thread takes each. -/
def twoStarted : List (PoolLabel 2) :=
  [.asyncRunJob (.thread 0), .notifyOne (.thread 0) 0 none, .takeJob 0, .asyncRunJob (.thread 0),
    .notifyOne (.thread 0) 1 none, .takeJob 1]

theorem twoStarted_run : ∃ s, Run ServiceStep (create 2) twoStarted s ∧ s.next = 2 ∧ s.pending = [] ∧
    ∀ i, s.worker i = .running i :=
  ⟨_, .cons ⟨⟨rfl, by decide⟩, rfl⟩ <| .cons ⟨trivial, rfl⟩ <| .cons ⟨trivial, rfl⟩ <|
    .cons ⟨⟨rfl, by decide⟩, rfl⟩ <| .cons ⟨trivial, rfl⟩ <| .cons ⟨trivial, rfl⟩ <| .nil _,
    rfl, rfl, by decide⟩

end ThreadPool
end Netier
