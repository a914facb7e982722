import Netier.Pool.Serving
import Netier.Server.Independence

/-! `Server::serve`: a thread of the pool for each reactor's loop, and the main thread accepting. -/
namespace Netier
open Lib
variable {α : Type} {n : Nat}

/-- The server with its pool, which has a thread for each reactor; job `j` is the loop of
`__reactors[j]`, since nobody but `serve` submits jobs. -/
structure Service (n : Nat) (α : Type) where
  pool : ThreadPool n
  server : Server α

/-- Something happens in the pool, the main thread accepts, or thread `i` handles an event. -/
inductive ServiceLabel (n : Nat) (α : Type) where
  | pool (l : PoolLabel n)
  | accept (a : Acceptance α)
  | event (i : Fin n) (fd : Fd) (mask : Mask) (burst : Burst α) (callback : List (Call α))

namespace ServiceLabel

def inPool : ServiceLabel n α → Option (PoolLabel n)
  | .pool l => some l
  | _ => none

def inServer : ServiceLabel n α → Option (ServerLabel α)
  | .pool _ => none
  | .accept a => some (.accept a)
  | .event _ fd mask burst callback => some (.event fd mask burst callback)

/-- The thread that handles an event, and the descriptor of the event. -/
def handler : ServiceLabel n α → Option (Fin n × Fd)
  | .event i fd _ _ _ => some (i, fd)
  | _ => none

end ServiceLabel

namespace Service

/-- `Server::Server`, which makes as many reactors as the pool has threads. -/
def create (n : Nat) (onRecv : Bool) : Service n α := ⟨ThreadPool.create n, Server.create n onRecv⟩

variable [Zero α]

/-- `serve` accepts when the last of its submissions has returned; an event is handled by the
thread that runs the loop of its reactor. -/
def Admits (s : Service n α) : ServiceLabel n α → Prop
  | .pool l => s.pool.InService l
  | .accept a => s.pool.next = n ∧ s.pool.pending = [] ∧ s.server.Admits (.accept a)
  | .event i fd mask burst callback => s.pool.worker i = .running (s.server.schedule fd) ∧
      s.server.Admits (.event fd mask burst callback)

def step (s : Service n α) : ServiceLabel n α → Option (Service n α)
  | .pool l => (s.pool.step l).map fun p => { s with pool := p }
  | .accept a => (s.server.step (.accept a)).toOption.map fun t => { s with server := t }
  | .event _ fd mask burst callback =>
    (s.server.step (.event fd mask burst callback)).toOption.map fun t => { s with server := t }

def Step (s : Service n α) (l : ServiceLabel n α) (s' : Service n α) : Prop :=
  s.Admits l ∧ s.step l = some s'

section Parts
variable {s s' : Service n α} {l : ServiceLabel n α}

/-- A step is one of the pool or one of the server, and leaves the other as it is. -/
theorem Step.cases (h : Step s l s') :
    (∃ k, l.inPool = some k ∧ l.inServer = none ∧ ThreadPool.ServiceStep s.pool k s'.pool ∧
      s'.server = s.server) ∨
    ∃ k, l.inPool = none ∧ l.inServer = some k ∧ Server.Step s.server k s'.server ∧ s'.pool = s.pool := by
  obtain ⟨hadm, hstep⟩ := h
  cases l with
  | pool k =>
    obtain ⟨p, hp, rfl⟩ := Option.map_eq_some_iff.1 hstep
    exact .inl ⟨k, rfl, rfl, ⟨hadm, hp⟩, rfl⟩
  | accept a =>
    obtain ⟨t, ht, rfl⟩ := Option.map_eq_some_iff.1 hstep
    exact .inr ⟨_, rfl, rfl, ⟨hadm.2.2, ok_of_toOption ht⟩, rfl⟩
  | event i fd mask burst callback =>
    obtain ⟨t, ht, rfl⟩ := Option.map_eq_some_iff.1 hstep
    exact .inr ⟨_, rfl, rfl, ⟨hadm.2, ok_of_toOption ht⟩, rfl⟩

theorem Step.schedule (h : Step s l s') (fd : Fd) : s'.server.schedule fd = s.server.schedule fd := by
  have hreactors : s'.server.reactors = s.server.reactors := by
    obtain ⟨_, _, _, _, heq⟩ | ⟨k, _, _, hk, _⟩ := h.cases
    · rw [heq]
    · exact Server.step_reactors hk.2
  simp only [Server.schedule, hreactors]

theorem Step.stays {i : Fin n} {job : Nat} (h : Step s l s') (hi : s.pool.worker i = .running job) :
    s'.pool.worker i = .running job := by
  obtain ⟨k, _, _, hk, _⟩ | ⟨_, _, _, _, heq⟩ := h.cases
  · exact hk.stays hi
  · rw [heq, hi]

/-- A step of the pool as one of the whole. -/
theorem step_of_pool {p : ThreadPool n} {k : PoolLabel n} (h : ThreadPool.ServiceStep s.pool k p) :
    Step s (.pool k) { s with pool := p } := by
  refine ⟨h.1, ?_⟩
  simp only [step, h.2, Option.map_some]

/-- A step of the server as one of the whole, when every loop has its thread. -/
theorem step_of_server {p : ThreadPool n} {t t' : Server α} {k : ServerLabel α} (hnext : p.next = n)
    (hpending : p.pending = []) (hthreads : ∀ fd, ∃ i, p.worker i = .running (t.schedule fd))
    (h : Server.Step t k t') : ∃ l : ServiceLabel n α, Step ⟨p, t⟩ l ⟨p, t'⟩ ∧ l.inServer = some k := by
  obtain ⟨hadm, hstep⟩ := h
  cases k with
  | accept a =>
    refine ⟨.accept a, ⟨⟨hnext, hpending, hadm⟩, ?_⟩, rfl⟩
    simp only [step, hstep]
    rfl
  | event fd mask burst callback =>
    obtain ⟨i, hi⟩ := hthreads fd
    refine ⟨.event i fd mask burst callback, ⟨⟨hi, hadm⟩, ?_⟩, rfl⟩
    simp only [step, hstep]
    rfl

end Parts

section Runs
variable {s : Service n α} {onRecv : Bool} {ls : List (ServiceLabel n α)}

/-- What happens in the pool is a run of the pool. -/
theorem pool_runs (h : Run Step (create n onRecv) ls s) :
    Run ThreadPool.ServiceStep (ThreadPool.create n) (ls.filterMap ServiceLabel.inPool) s.pool := by
  refine h.project (f := Service.pool) ?_ ?_
  · intro a l b k hl hstep
    obtain ⟨k', hsome, _, hk, _⟩ | ⟨_, hnone, _⟩ := hstep.cases
    · rw [hl, Option.some.injEq] at hsome
      exact hsome ▸ hk
    · rw [hl] at hnone
      cases hnone
  · intro a l b hl hstep
    obtain ⟨_, hsome, _⟩ | ⟨_, _, _, _, heq⟩ := hstep.cases
    · rw [hl] at hsome
      cases hsome
    · exact heq

/-- And what happens in the server is a run of the server, where the threads are not seen. -/
theorem server_runs (h : Run Step (create n onRecv) ls s) :
    Run Server.Step (Server.create n onRecv) (ls.filterMap ServiceLabel.inServer) s.server := by
  refine h.project (f := Service.server) ?_ ?_
  · intro a l b k hl hstep
    obtain ⟨_, _, hnone, _⟩ | ⟨k', _, hsome, hk, _⟩ := hstep.cases
    · rw [hl] at hnone
      cases hnone
    · rw [hl, Option.some.injEq] at hsome
      exact hsome ▸ hk
  · intro a l b hl hstep
    obtain ⟨_, _, _, _, heq⟩ | ⟨_, _, hsome, _⟩ := hstep.cases
    · exact heq
    · rw [hl] at hsome
      cases hsome

/-- Who has handled an event runs the loop of its reactor. -/
theorem handlers_stay (h : Run Step (create n onRecv) ls s) :
    ∀ l ∈ ls, ∀ i fd, l.handler = some (i, fd) → s.pool.worker i = .running (s.server.schedule fd) := by
  refine h.history (I := fun ls s => ∀ l ∈ ls, ∀ i fd, l.handler = some (i, fd) →
    s.pool.worker i = .running (s.server.schedule fd)) (by simp) ?_
  intro ks a l b ih hstep k hk i fd hhandler
  rw [hstep.schedule fd]
  refine hstep.stays ?_
  rcases List.mem_append.1 hk with hk | hk
  · exact ih k hk i fd hhandler
  · rw [List.mem_singleton.1 hk] at hhandler
    cases l with
    | event =>
      cases hhandler
      exact hstep.1.1
    | pool | accept => cases hhandler

/-- A run of the pool as one of the whole, in which the server does nothing. -/
theorem run_of_pool {p : ThreadPool n} {ks : List (PoolLabel n)} (h : Run ThreadPool.ServiceStep s.pool ks p) :
    Run Step s (ks.map ServiceLabel.pool) { s with pool := p } := by
  generalize hp : s.pool = p₀ at h
  induction h with
  | nil =>
    subst hp
    exact .nil s
  | snoc _ hl ih =>
    rw [List.map_append]
    exact ih.snoc (step_of_pool hl)

/-- When every loop has its thread, the whole can do what the server can. -/
theorem run_of_server {p : ThreadPool n} {t t' : Server α} {ks : List (ServerLabel α)} (hnext : p.next = n)
    (hpending : p.pending = []) (hthreads : ∀ fd, ∃ i, p.worker i = .running (t.schedule fd))
    (h : Run Server.Step t ks t') :
    ∃ ls, Run Step ⟨p, t⟩ ls ⟨p, t'⟩ ∧ ls.filterMap ServiceLabel.inServer = ks := by
  induction h with
  | nil => exact ⟨[], .nil _, rfl⟩
  | @snoc a b ks l hrun hl ih =>
    obtain ⟨ls, hls, hfilter⟩ := ih
    have hthreads' : ∀ fd, ∃ i, p.worker i = .running (a.schedule fd) := by
      have hreactors : a.reactors = t.reactors :=
        hrun.invariant (I := fun a => a.reactors = t.reactors) rfl
          fun _ _ _ ha hstep => (Server.step_reactors hstep.2).trans ha
      simpa only [Server.schedule, hreactors] using hthreads
    obtain ⟨k, hk, hin⟩ := step_of_server hnext hpending hthreads' hl
    exact ⟨ls ++ [k], hls.snoc hk, by simp [hfilter, hin]⟩

/-- Two events are handled on one thread exactly if their descriptors belong to one reactor; so
all the events of a connection, and of whatever is accepted on its descriptor after it, are
handled on one thread. -/
theorem one_thread_each (h : Run Step (create n onRecv) ls s) {l k : ServiceLabel n α} {i j : Fin n}
    {fd fd' : Fd} (hl : l ∈ ls) (hk : k ∈ ls) (hi : l.handler = some (i, fd)) (hj : k.handler = some (j, fd')) :
    i = j ↔ s.server.schedule fd = s.server.schedule fd' := by
  have hrun := handlers_stay h l hl i fd hi
  have hrun' := handlers_stay h k hk j fd' hj
  constructor
  · rintro rfl
    rw [hrun] at hrun'
    exact Worker.running.inj hrun'
  · intro heq
    rw [← heq] at hrun'
    exact (ThreadPool.service_reaches (pool_runs h)).books.distinct i j _ hrun hrun'

/-- The start-up takes at most four steps for each thread, and one more for every spurious
wake-up; and where none is left to take, every live connection is in the interest set of one
reactor's loop that is running, on one thread. -/
theorem serve_settles (hn : 0 < n) (h : Run Step (create n onRecv) ls s) :
    (ls.filterMap ServiceLabel.inPool).countP (fun l => !l.isSpurious) ≤
      4 * n + (ls.filterMap ServiceLabel.inPool).countP PoolLabel.isSpurious ∧
    ((∀ l s', Step s (.pool l) s' → l.isSpurious = true) →
      s.pool.next = n ∧ s.pool.pending = [] ∧ ∀ fd c, s.server.contextes fd = some c →
        ∃! i, ∃ ep, s.pool.worker i = .running ep ∧ (s.server.kernel.interest ep fd).isSome) := by
  have hpool := pool_runs h
  refine ⟨ThreadPool.startup_bounded hpool, fun hrest => ?_⟩
  have hidle : ¬ s.pool.Starting := by
    rintro ⟨l, p, hstep, hl⟩
    rw [hrest l _ (step_of_pool hstep)] at hl
    cases hl
  obtain ⟨hnext, hpending, _⟩ := (ThreadPool.service_underway hpool).settled hidle
  obtain ⟨hsound, hreactors⟩ := Server.run_sound (server_runs h)
  refine ⟨hnext, hpending, fun fd c hc => ?_⟩
  have hlt : s.server.schedule fd < n := by
    have hlt := s.server.schedule_lt (by rw [hreactors]; exact hn) fd
    rwa [hreactors] at hlt
  obtain ⟨i, hi, hunique⟩ := ThreadPool.each_loop_runs hpool hidle _ hlt
  refine ⟨i, ⟨_, hi, by rw [hsound.watched fd c hc]; rfl⟩, ?_⟩
  rintro i' ⟨ep, hi', hsome⟩
  obtain ⟨ev, hev⟩ := Option.isSome_iff_exists.1 hsome
  rw [(hsound.only ep fd ev hev).1] at hi'
  exact hunique i' hi'

/-- What the server can do on one thread is what it does on its many: each step at a time, the
threads neither add anything nor keep anything from happening. -/
theorem service_runs_iff (hn : 0 < n) (ks : List (ServerLabel α)) (t : Server α) :
    (∃ ls s, Run Step (create n onRecv) ls s ∧ ls.filterMap ServiceLabel.inServer = ks ∧ s.server = t) ↔
      Run Server.Step (Server.create n onRecv) ks t := by
  constructor
  · rintro ⟨ls, s, hrun, rfl, rfl⟩
    exact server_runs hrun
  · intro hserver
    obtain ⟨ps, p, hpool, hidle⟩ := (ThreadPool.create_underway n).settles
    obtain ⟨hnext, hpending, _⟩ := (ThreadPool.service_underway hpool).settled hidle
    have hstart : Run Step (create n onRecv : Service n α) (ps.map ServiceLabel.pool)
        ⟨p, Server.create n onRecv⟩ := run_of_pool (s := create n onRecv) hpool
    have hthreads fd := (ThreadPool.each_loop_runs hpool hidle _
      ((Server.create n onRecv : Server α).schedule_lt hn fd)).exists
    obtain ⟨ls, hrun, hfilter⟩ := run_of_server hnext hpending hthreads hserver
    refine ⟨_, _, hstart.append hrun, ?_, rfl⟩
    rw [List.filterMap_append, hfilter, List.filterMap_map]
    simp [Function.comp_def, ServiceLabel.inServer]

end Runs

section Two
open Server

/-- With both threads at their loops, whatever the server does is done on them. -/
theorem two_threads_run {t : Server UInt8} {ks : List (ServerLabel UInt8)}
    (h : Run Server.Step (Server.create 2 true) ks t) : ∃ (p : ThreadPool 2) (ls : List (ServiceLabel 2 UInt8)),
      Run Step (create 2 true) ls ⟨p, t⟩ ∧ ls.filterMap ServiceLabel.inServer = ks ∧ p.next = 2 ∧
        p.pending = [] ∧ ∀ i, p.worker i = .running i := by
  obtain ⟨p, hpool, hnext, hpending, hworkers⟩ := ThreadPool.twoStarted_run
  have hthreads fd : ∃ i : Fin 2, p.worker i = .running ((Server.create 2 true : Server UInt8).schedule fd) :=
    ⟨⟨_, (Server.create 2 true).schedule_lt (by decide) fd⟩, hworkers _⟩
  obtain ⟨ls, hrun, hfilter⟩ := run_of_server hnext hpending hthreads h
  refine ⟨p, _, (run_of_pool (s := create 2 true) hpool).append hrun, ?_, hnext, hpending, hworkers⟩
  rw [List.filterMap_append, hfilter, List.filterMap_map]
  simp [Function.comp_def, ServiceLabel.inServer]

theorem byteRead_handled {ls : List (ServiceLabel n UInt8)} {fd : Fd}
    (h : byteRead fd ∈ ls.filterMap ServiceLabel.inServer) : ∃ l ∈ ls, ∃ i, l.handler = some (i, fd) := by
  obtain ⟨l, hl, hin⟩ := List.mem_filterMap.1 h
  cases l with
  | pool | accept => cases hin
  | event i =>
    cases hin
    exact ⟨_, hl, i, rfl⟩

theorem pair_on_one_thread : ∃ (ls : List (ServiceLabel 2 UInt8)) (s : Service 2 UInt8),
    Run Step (create 2 true) ls s ∧
      ∃ l ∈ ls, ∃ k ∈ ls, ∃ i, l.handler = some (i, 5) ∧ k.handler = some (i, 7) := by
  obtain ⟨t, ht⟩ := pairReads_exists 5 7 (by decide +kernel)
  obtain ⟨p, ls, hrun, hfilter, _⟩ := two_threads_run ht
  have hfive : byteRead 5 ∈ ls.filterMap ServiceLabel.inServer := by simp [hfilter]
  have hseven : byteRead 7 ∈ ls.filterMap ServiceLabel.inServer := by simp [hfilter]
  obtain ⟨l, hl, i, hi⟩ := byteRead_handled hfive
  obtain ⟨k, hk, j, hj⟩ := byteRead_handled hseven
  have hsame : t.schedule 5 = t.schedule 7 := by simp [Server.schedule, (run_sound ht).2]
  obtain rfl := (one_thread_each hrun hl hk hi hj).2 hsame
  exact ⟨ls, _, hrun, l, hl, k, hk, i, hi, hj⟩

theorem five_has_its_thread : ∃ (ls : List (ServiceLabel 2 UInt8)) (s : Service 2 UInt8),
    Run Step (create 2 true) ls s ∧
      ∃! i, ∃ ep, s.pool.worker i = .running ep ∧ (s.server.kernel.interest ep 5).isSome := by
  have hopens : ((Server.create 2 true).step fiveAccepted).toOption.map (fun s => (s.contextes 5).isSome) =
      some true := by decide +kernel
  obtain ⟨t, ht, hsome⟩ := Option.map_eq_some_iff.1 hopens
  obtain ⟨c, hc⟩ := Option.isSome_iff_exists.1 hsome
  obtain ⟨p, ls, hrun, _, hnext, hpending, hworkers⟩ := two_threads_run (fiveAccepted_run ht)
  refine ⟨ls, _, hrun, ((serve_settles (by decide) hrun).2 ?_).2.2 5 c hc⟩
  rintro l s' ⟨hserve, hstep⟩
  obtain ⟨q, hq, _⟩ := Option.map_eq_some_iff.1 hstep
  cases l with
  | asyncRunJob => exact absurd (hnext ▸ hserve.2) (by simp)
  | notifyOne =>
    have hp := (ThreadPool.notifyOne_inv hq).1
    simp [hpending] at hp
  | takeJob i =>
    have hi := (ThreadPool.takeJob_inv hq).1
    simp [hworkers] at hi
  | spurious => rfl
  | finish | setStop | notifyAll => exact hserve.elim

theorem five_accepted_by_threads : ∃ (ls : List (ServiceLabel 2 UInt8)) (s : Service 2 UInt8),
    Run Step (create 2 true) ls s ∧ ls.filterMap ServiceLabel.inServer = [fiveAccepted] ∧
      (s.server.contextes 5).isSome := by
  have hopens : ((Server.create 2 true).step fiveAccepted).toOption.map (fun s => (s.contextes 5).isSome) =
      some true := by decide +kernel
  obtain ⟨t, ht, hsome⟩ := Option.map_eq_some_iff.1 hopens
  obtain ⟨ls, s, hrun, hfilter, rfl⟩ := (service_runs_iff (by decide) [fiveAccepted] t).2 (fiveAccepted_run ht)
  exact ⟨ls, s, hrun, hfilter, hsome⟩

end Two
end Service
end Netier
