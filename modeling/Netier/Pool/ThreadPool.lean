import Mathlib.Data.Fintype.Basic
import Mathlib.Data.Fin.Basic
import Netier.Lib.Run

/-! `ThreadPool` as the steps of its parties: every critical section under `__mu`, every
wait, wake-up and notification. Jobs are numbered in the order they are enqueued. -/
namespace Netier

/-- Where a worker is in its loop; `awake` is outside the lock with no task. -/
inductive Worker where
  | awake
  | waiting
  | running (job : Nat)
  | exited
  deriving DecidableEq, Repr

/-- Who calls `asyncRunJob`: an external thread, or the job running on a worker. -/
inductive Caller (n : Nat) where
  | thread (id : Nat)
  | worker (i : Fin n)
  deriving DecidableEq, Repr

/-- `pending` are the calls that have enqueued their job but not yet notified,
`returned` the jobs whose call returned normally; `notified` is set by `notify_all`. -/
structure ThreadPool (n : Nat) where
  jobs : List Nat
  stop : Bool
  notified : Bool
  worker : Fin n → Worker
  pending : List (Caller n × Nat)
  next : Nat
  returned : List Nat
  started : List Nat
  finished : List Nat

inductive PoolLabel (n : Nat) where
  | asyncRunJob (c : Caller n)
  | notifyOne (c : Caller n) (job : Nat) (woken : Option (Fin n))
  | takeJob (i : Fin n)
  | spurious (i : Fin n)
  | finish (i : Fin n)
  | setStop
  | notifyAll
  deriving DecidableEq, Repr

namespace ThreadPool
variable {n : Nat}

def create (n : Nat) : ThreadPool n where
  jobs := []
  stop := false
  notified := false
  worker := fun _ => .awake
  pending := []
  next := 0
  returned := []
  started := []
  finished := []

/-- A caller is not inside another call, and a worker calls only from a job. -/
def mayCall (s : ThreadPool n) : Caller n → Bool
  | .thread id => s.pending.all fun p => p.1 ≠ .thread id
  | .worker i => (s.pending.all fun p => p.1 ≠ .worker i) &&
      match s.worker i with
      | .running _ => true
      | _ => false

/-- The critical section of `asyncRunJob`: the job is in the queue before `__stop` is
tested, and a call that throws leaves it there. -/
def asyncRunJob (s : ThreadPool n) (c : Caller n) : Option (ThreadPool n) :=
  if s.mayCall c then
    let s' := { s with jobs := s.jobs ++ [s.next], next := s.next + 1 }
    if s.stop then some s' else some { s' with pending := s.pending ++ [(c, s.next)] }
  else none

/-- `notify_one` wakes a waiting worker if there is one; then the call returns. -/
def notifyOne (s : ThreadPool n) (c : Caller n) (job : Nat) (woken : Option (Fin n)) :
    Option (ThreadPool n) :=
  if (c, job) ∈ s.pending then
    let s' := { s with pending := s.pending.erase (c, job), returned := s.returned ++ [job] }
    match woken with
    | some i =>
      if s.worker i = .waiting then some { s' with worker := Function.update s.worker i .awake }
      else none
    | none => if ∃ i, s.worker i = .waiting then none else some s'
  else none

/-- The critical section of a worker, from the lock to the wait, the return or the unlock. -/
def takeJob (s : ThreadPool n) (i : Fin n) : Option (ThreadPool n) :=
  if s.worker i = .awake then
    match s.jobs with
    | [] => some { s with worker := Function.update s.worker i (if s.stop then .exited else .waiting) }
    | job :: jobs =>
      some { s with jobs, worker := Function.update s.worker i (.running job)
                    started := s.started ++ [job] }
  else none

def spurious (s : ThreadPool n) (i : Fin n) : Option (ThreadPool n) :=
  if s.worker i = .waiting then some { s with worker := Function.update s.worker i .awake } else none

/-- `task()` returns, which it cannot do inside a call of `asyncRunJob`. -/
def finish (s : ThreadPool n) (i : Fin n) : Option (ThreadPool n) :=
  match s.worker i with
  | .running job =>
    if s.pending.all fun p => p.1 ≠ .worker i then
      some { s with worker := Function.update s.worker i .awake, finished := s.finished ++ [job] }
    else none
  | _ => none

/-- The critical section of the destructor. -/
def setStop (s : ThreadPool n) : Option (ThreadPool n) :=
  if s.stop then none else some { s with stop := true }

def notifyAll (s : ThreadPool n) : Option (ThreadPool n) :=
  if s.stop && !s.notified then
    some { s with notified := true
                  worker := fun i => if s.worker i = .waiting then .awake else s.worker i }
  else none

def step (s : ThreadPool n) : PoolLabel n → Option (ThreadPool n)
  | .asyncRunJob c => s.asyncRunJob c
  | .notifyOne c job woken => s.notifyOne c job woken
  | .takeJob i => s.takeJob i
  | .spurious i => s.spurious i
  | .finish i => s.finish i
  | .setStop => s.setStop
  | .notifyAll => s.notifyAll

/-- A run of the pool from its construction, any party taking any step it can. -/
def Reaches (ls : List (PoolLabel n)) (s : ThreadPool n) : Prop :=
  Lib.Run (fun a l b => a.step l = some b) (create n) ls s

section Inversion
variable {s s' : ThreadPool n} {c : Caller n} {i : Fin n}

theorem asyncRunJob_inv (h : s.asyncRunJob c = some s') :
    s' = { s with jobs := s.jobs ++ [s.next], next := s.next + 1
                  pending := if s.stop then s.pending else s.pending ++ [(c, s.next)] } := by
  unfold asyncRunJob at h
  split at h
  · split at h
    · rename_i hstop
      cases h
      simp [hstop]
    · rename_i hstop
      cases h
      simp [hstop]
  · cases h

theorem notifyOne_inv {job : Nat} {woken : Option (Fin n)} (h : s.notifyOne c job woken = some s') :
    (c, job) ∈ s.pending ∧
      ((∃ i, s.worker i = .waiting ∧
        s' = { s with pending := s.pending.erase (c, job), returned := s.returned ++ [job]
                      worker := Function.update s.worker i .awake }) ∨
      (∀ i, s.worker i ≠ .waiting) ∧
        s' = { s with pending := s.pending.erase (c, job), returned := s.returned ++ [job] }) := by
  unfold notifyOne at h
  split at h
  · rename_i hmem
    refine ⟨hmem, ?_⟩
    cases woken with
    | some i =>
      by_cases hi : s.worker i = .waiting
      · simp only [hi, if_true, Option.some.injEq] at h
        exact .inl ⟨i, hi, h.symm⟩
      · simp [hi] at h
    | none =>
      by_cases hex : ∃ i, s.worker i = .waiting
      · simp [hex] at h
      · simp only [hex, if_false, Option.some.injEq] at h
        exact .inr ⟨fun i hi => hex ⟨i, hi⟩, h.symm⟩
  · cases h

theorem takeJob_inv (h : s.takeJob i = some s') :
    s.worker i = .awake ∧
      (s.jobs = [] ∧ s.stop = false ∧
          s' = { s with worker := Function.update s.worker i .waiting } ∨
        s.jobs = [] ∧ s.stop = true ∧
          s' = { s with worker := Function.update s.worker i .exited } ∨
        ∃ job jobs, s.jobs = job :: jobs ∧
          s' = { s with jobs, worker := Function.update s.worker i (.running job)
                        started := s.started ++ [job] }) := by
  unfold takeJob at h
  split at h
  · rename_i hi
    refine ⟨hi, ?_⟩
    cases hj : s.jobs with
    | nil =>
      cases hs : s.stop with
      | false => simp_all
      | true => simp_all
    | cons job jobs =>
      simp only [hj, Option.some.injEq] at h
      exact .inr (.inr ⟨job, jobs, rfl, h.symm⟩)
  · cases h

theorem spurious_inv (h : s.spurious i = some s') :
    s.worker i = .waiting ∧ s' = { s with worker := Function.update s.worker i .awake } := by
  unfold spurious at h
  split at h
  · exact ⟨‹_›, (Option.some.inj h).symm⟩
  · cases h

theorem finish_inv (h : s.finish i = some s') :
    ∃ job, s.worker i = .running job ∧
      s' = { s with worker := Function.update s.worker i .awake, finished := s.finished ++ [job] } := by
  unfold finish at h
  cases hi : s.worker i with
  | running job =>
    simp only [hi] at h
    split at h
    · exact ⟨job, rfl, (Option.some.inj h).symm⟩
    · cases h
  | _ => simp [hi] at h

theorem setStop_inv (h : s.setStop = some s') : s' = { s with stop := true } := by
  unfold setStop at h
  split at h
  · cases h
  · exact (Option.some.inj h).symm

theorem notifyAll_inv (h : s.notifyAll = some s') :
    s.stop = true ∧ s' = { s with
      notified := true
      worker := fun i => if s.worker i = .waiting then .awake else s.worker i } := by
  unfold notifyAll at h
  split at h
  · rename_i hs
    rw [Bool.and_eq_true] at hs
    exact ⟨hs.1, (Option.some.inj h).symm⟩
  · cases h

end Inversion
end ThreadPool
end Netier
