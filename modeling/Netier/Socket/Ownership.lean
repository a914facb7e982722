import Netier.Lib.Ownership
import Netier.Lib.Run
import Netier.Lib.Outcome
import Netier.Socket.Socket

/-! The `Socket` objects of a process: which of them owns which descriptor, which calls of
`close(2)` their lifetimes make, and which of their assertions hold. -/
namespace Netier
open Lib

/-- The live `Socket` objects and the descriptors. -/
structure Process where
  sockets : Nat → Option Socket
  descriptors : Descriptors

/-- `create` is over a descriptor that `socket(2)` returns, `ofFd` over one that `accept(2)`
does. -/
inductive SocketAct where
  | create (id : Nat) (o : NewDescriptor)
  | ofFd (id : Nat) (o : NewDescriptor)
  | moveFrom (id other : Nat)
  | destruct (id : Nat)
  deriving DecidableEq, Repr

/-- What the act means for the ownership of descriptors. -/
def SocketAct.holding : SocketAct → Holding Nat Fd
  | .create id o | .ofFd id o => .grant id o.fd
  | .moveFrom id other => .handOver id other
  | .destruct id => .drop id

/-- The number that a creation is given. -/
def SocketAct.number : SocketAct → Option Fd
  | .create _ o | .ofFd _ o => some o.fd
  | .moveFrom _ _ | .destruct _ => none

namespace Process

def put (p : Process) (id : Nat) (x : OnDescriptors Socket) : Except Fault Process :=
  match x p.descriptors with
  | .ok s d => .ok ⟨Function.update p.sockets id (some s), d⟩
  | .error e _ => .error e

def step (p : Process) : SocketAct → Except Fault Process
  | .create id o => p.put id (Socket.create (some o))
  | .ofFd id o => p.put id (do modify fun d => d.add o; pure (Socket.ofFd o.fd))
  | .moveFrom id other => match p.sockets other with
    | none => .error .useAfterFree
    | some s => .ok { p with
        sockets := Function.update (Function.update p.sockets id (some s.moveFrom.1)) other
          (some s.moveFrom.2) }
  | .destruct id => match p.sockets id with
    | none => .error .useAfterFree
    | some s => match s.destruct p.descriptors with
      | .ok _ d => .ok ⟨Function.update p.sockets id none, d⟩
      | .error e _ => .error e

/-- A new object is one that is not live, and the kernel returns any number from 0 on that is
not open; live objects are moved from and destroyed. -/
def Admits (p : Process) : SocketAct → Prop
  | .create id o | .ofFd id o => p.sockets id = none ∧ 0 ≤ o.fd ∧ o.fd ∉ p.descriptors.kernel.fds
  | .moveFrom id other => p.sockets id = none ∧ (p.sockets other).isSome
  | .destruct id => (p.sockets id).isSome

end Process

/-- The sign of its number says whether a `Socket` owns it. -/
def Socket.owned (s : Socket) : Option Fd := if 0 < s.fd then some s.fd else none

/-- A process beside the account of who owns what. -/
structure Lifetimes where
  process : Process
  holdings : Holdings Nat Fd

namespace Lifetimes

/-- No object is live, whatever is open. -/
def start (d : Descriptors) : Lifetimes := ⟨⟨fun _ => none, { d with closed := [] }⟩, .empty⟩

def Step (l : Lifetimes) (a : SocketAct) (l' : Lifetimes) : Prop :=
  l.process.Admits a ∧ l.process.step a = .ok l'.process ∧ l'.holdings = l.holdings.next a.holding

/-- `close(2)` has been called as the account says: once for each descriptor whose owner has
gone, and for no other. What is owned is open, and its owner passes its assertions. -/
structure Lawful (l : Lifetimes) : Prop where
  closes : l.process.descriptors.closed = l.holdings.released
  held : ∀ id fd, l.holdings.owns id = some fd →
    l.holdings.granted.count fd = l.process.descriptors.closed.count fd + 1
  free : ∀ fd, (∀ id, l.holdings.owns id ≠ some fd) →
    l.holdings.granted.count fd = l.process.descriptors.closed.count fd
  opened : ∀ id fd, l.holdings.owns id = some fd → fd ∈ l.process.descriptors.kernel.fds
  passes : ∀ id fd, l.holdings.owns id = some fd → ∃ s, l.process.sockets id = some s ∧ s.Passes

theorem destruct_returns (s : Socket) (d : Descriptors) : ∃ d', s.destruct d = .ok ⟨⟩ d' := by
  unfold Socket.destruct
  split
  · exact ⟨_, rfl⟩
  · exact ⟨_, rfl⟩

/-- No admitted act fails. -/
theorem step_returns {p : Process} {a : SocketAct} (h : p.Admits a) : ∃ p', p.step a = .ok p' := by
  cases a with
  | create id o | ofFd id o => exact ⟨_, rfl⟩
  | moveFrom id other =>
    obtain ⟨s, hs⟩ := Option.isSome_iff_exists.1 h.2
    simp [Process.step, hs]
  | destruct id =>
    obtain ⟨s, hs⟩ := Option.isSome_iff_exists.1 h
    obtain ⟨d, hd⟩ := destruct_returns s p.descriptors
    simp [Process.step, hs, hd]

/-- Nothing that a process can do next is stuck. -/
theorem step_of_admits {l : Lifetimes} {a : SocketAct} (h : l.process.Admits a) :
    ∃ l', Step l a l' := by
  obtain ⟨p', hp⟩ := step_returns h
  exact ⟨⟨p', l.holdings.next a.holding⟩, h, hp, rfl⟩

/-- What every step keeps: the account is the one that the signs of the numbers keep. -/
structure Matched (l : Lifetimes) : Prop where
  settled : l.holdings.Settled
  closes : l.process.descriptors.closed = l.holdings.released
  owns : ∀ id, l.holdings.owns id = (l.process.sockets id).bind Socket.owned
  opened : ∀ id fd, l.holdings.owns id = some fd → fd ∈ l.process.descriptors.kernel.fds

section Steps
variable {l l' : Lifetimes} {id other : Nat} {o : NewDescriptor} {s : Socket}

/-- A new descriptor, with a number that the object can own. -/
theorem Matched.grant (h : Matched l) (hid : l.process.sockets id = none) (hpos : 0 < o.fd)
    (hnew : o.fd ∉ l.process.descriptors.kernel.fds) :
    Matched ⟨⟨Function.update l.process.sockets id (some ⟨o.fd⟩), l.process.descriptors.add o⟩,
      l.holdings.next (.grant id o.fd)⟩ := by
  have hempty : l.holdings.owns id = none := by rw [h.owns, hid]; rfl
  have hallows : l.holdings.Allows (.grant id o.fd) :=
    ⟨hempty, fun j hj => hnew (h.opened j o.fd hj)⟩
  refine ⟨h.settled.next hallows, h.closes, fun i => ?_, fun i fd hi => ?_⟩
  · by_cases hi : i = id
    · subst hi
      simp [Holdings.next, Socket.owned, hpos]
    · simp [Holdings.next, hi, h.owns]
  · rcases Holdings.grant_owns_iff.1 hi with ⟨_, rfl⟩ | ⟨_, hi⟩
    · exact Finset.mem_insert_self _ _
    · exact Finset.mem_insert_of_mem (h.opened i fd hi)

/-- The number goes to the new object, and the other is left with none. -/
theorem Matched.handOver (h : Matched l) (hid : l.process.sockets id = none)
    (hother : l.process.sockets other = some s) :
    Matched ⟨⟨Function.update (Function.update l.process.sockets id (some s.moveFrom.1)) other
      (some s.moveFrom.2), l.process.descriptors⟩, l.holdings.next (.handOver id other)⟩ := by
  have hempty : l.holdings.owns id = none := by rw [h.owns, hid]; rfl
  have hne : id ≠ other := by
    rintro rfl
    simp [hid] at hother
  have hallows : l.holdings.Allows (.handOver id other) := ⟨hempty, hne⟩
  refine ⟨h.settled.next hallows, h.closes, fun i => ?_, fun i fd hi => ?_⟩
  · by_cases hi : i = other
    · subst hi
      simp [Holdings.next, Socket.owned, Socket.moveFrom]
    · by_cases hi' : i = id
      · subst hi'
        simp [Holdings.next, hi, h.owns, hother, Socket.owned, Socket.moveFrom]
      · simp [Holdings.next, hi, hi', h.owns]
  · obtain ⟨_, ⟨_, hi⟩ | ⟨_, hi⟩⟩ := Holdings.handOver_owns_iff.1 hi
    · exact h.opened other fd hi
    · exact h.opened i fd hi

/-- The destructor closes what the object owns, and nothing if it owns nothing. -/
theorem Matched.drop (h : Matched l) (hid : l.process.sockets id = some s) :
    ∃ d, s.destruct l.process.descriptors = .ok ⟨⟩ d ∧
      Matched ⟨⟨Function.update l.process.sockets id none, d⟩, l.holdings.next (.drop id)⟩ := by
  have hsettled := h.settled.drop id
  have howns : l.holdings.owns id = s.owned := by rw [h.owns, hid]; rfl
  have hsame (i : Nat) : (l.holdings.next (.drop id)).owns i =
      (Function.update l.process.sockets id none i).bind Socket.owned := by
    by_cases hi : i = id
    · subst hi
      simp [Holdings.next]
    · simp [Holdings.next, hi, h.owns]
  by_cases hpos : 0 < s.fd
  · have hmine : l.holdings.owns id = some s.fd := by rw [howns, Socket.owned, if_pos hpos]
    refine ⟨l.process.descriptors.close s.fd, by simp [Socket.destruct, hpos], hsettled, ?_, hsame,
      fun i fd hi => ?_⟩
    · rw [Holdings.drop_released hmine, ← h.closes]
      rfl
    · obtain ⟨hne, hi⟩ := Holdings.drop_owns_iff.1 hi
      have hfd : fd ≠ s.fd := by
        rintro rfl
        exact hne (h.settled.exclusive i id _ hi hmine)
      exact Finset.mem_erase.2 ⟨hfd, h.opened i fd hi⟩
  · have hnone : l.holdings.owns id = none := by rw [howns, Socket.owned, if_neg hpos]
    refine ⟨l.process.descriptors, by simp [Socket.destruct, hpos], hsettled, ?_, hsame,
      fun i fd hi => h.opened i fd (Holdings.drop_owns_iff.1 hi).2⟩
    rw [Holdings.drop_released_none hnone]
    exact h.closes

theorem start_matched (d : Descriptors) : Matched (start d) where
  settled := Holdings.empty_settled
  closes := rfl
  owns := fun _ => rfl
  opened := by simp [start, Holdings.empty]

/-- One act, if it is not given the number 0. -/
theorem Matched.step {a : SocketAct} (h : Matched l) (hstep : Step l a l') (ha : a.number ≠ some 0) :
    Matched l' := by
  obtain ⟨hadmits, hrun, hholdings⟩ := hstep
  obtain ⟨p', holdings'⟩ := l'
  subst hholdings
  cases a with
  | create id o | ofFd id o =>
    obtain ⟨hid, hnonneg, hnew⟩ := hadmits
    have hne : o.fd ≠ 0 := fun heq => ha (congrArg some heq)
    have hpos : 0 < o.fd := lt_of_le_of_ne hnonneg hne.symm
    cases hrun
    exact h.grant hid hpos hnew
  | moveFrom id other =>
    obtain ⟨hid, hlive⟩ := hadmits
    obtain ⟨s, hs⟩ := Option.isSome_iff_exists.1 hlive
    simp only [Process.step, hs, Except.ok.injEq] at hrun
    subst hrun
    exact h.handOver hid hs
  | destruct id =>
    obtain ⟨s, hs⟩ := Option.isSome_iff_exists.1 hadmits
    obtain ⟨d, hdestruct, hnext⟩ := h.drop hs
    simp only [Process.step, hs, hdestruct, Except.ok.injEq] at hrun
    subst hrun
    exact hnext

theorem Matched.lawful (h : Matched l) : Lawful l := by
  refine ⟨h.closes, fun id fd ho => ?_, fun fd hfree => ?_, h.opened, fun id fd ho => ?_⟩
  · rw [h.closes]
    exact h.settled.held id fd ho
  · rw [h.closes]
    exact h.settled.free fd hfree
  · rw [h.owns] at ho
    obtain ⟨s, hs, howned⟩ := Option.bind_eq_some_iff.1 ho
    refine ⟨s, hs, s.passes_iff.2 ?_⟩
    by_contra hneg
    simp [Socket.owned, hneg] at howned

end Steps

section Runs
variable {d : Descriptors} {acts : List SocketAct} {l l' : Lifetimes} {a : SocketAct}

theorem run_matched (h : Run Step (start d) acts l) (hacts : ∀ a ∈ acts, a.number ≠ some 0) :
    Matched l :=
  (h.restrict hacts).invariant (start_matched d) fun _ _ _ hm hs => hm.step hs.1 hs.2

/-- A `Socket` over descriptor 0 owns it, and fails every assertion. -/
theorem zero_not_lawful (h : Step l a l') (ha : a.number = some 0) : ¬ Lawful l' := by
  obtain ⟨_, hrun, hholdings⟩ := h
  obtain ⟨p', holdings'⟩ := l'
  subst hholdings
  intro hlawful
  cases a with
  | create id o | ofFd id o =>
    have hzero : o.fd = 0 := Option.some.inj ha
    cases hrun
    obtain ⟨s, hs, hpasses⟩ := hlawful.passes id o.fd (Function.update_self _ _ _)
    have hsock : s = ⟨o.fd⟩ := by
      simpa [Socket.create, Socket.ofFd] using hs.symm
    have hpos := s.passes_iff.1 hpasses
    rw [hsock, hzero] at hpos
    exact absurd hpos (by decide)
  | moveFrom id other => cases ha
  | destruct id => cases ha

/-- The law holds in every state of a run exactly if the kernel never gave out the number 0. -/
theorem socket_ownership_iff (h : Run Step (start d) acts l) :
    (∀ pre m, pre <+: acts → Run Step (start d) pre m → Lawful m) ↔
      ∀ a ∈ acts, a.number ≠ some 0 := by
  constructor
  · intro hlawful a ha hzero
    obtain ⟨pre, m, m', hpre, hbefore, hstep⟩ := h.at_label ha
    exact zero_not_lawful hstep hzero (hlawful _ m' hpre (hbefore.snoc hstep))
  · intro hacts pre m hpre hrun
    exact (run_matched hrun fun a ha => hacts a (hpre.subset ha)).lawful

/-- Descriptor 0, which is free where the standard input has been closed, is created and
destroyed. -/
theorem descriptor_zero_is_not_closed :
    ¬ ∀ (d : Descriptors) (acts : List SocketAct) (l : Lifetimes), Run Step (start d) acts l → Lawful l := by
  intro h
  have hcreate : Step (start .start) (.create 0 ⟨0, 0x2⟩)
      ⟨⟨Function.update (fun _ => none) 0 (some ⟨0⟩), Descriptors.start.add ⟨0, 0x2⟩⟩,
        ⟨Function.update (fun _ => none) 0 (some 0), [0], []⟩⟩ :=
    ⟨⟨rfl, le_refl 0, Finset.notMem_empty 0⟩, rfl, rfl⟩
  have hdestruct : Step
      ⟨⟨Function.update (fun _ => none) 0 (some ⟨0⟩), Descriptors.start.add ⟨0, 0x2⟩⟩,
        ⟨Function.update (fun _ => none) 0 (some 0), [0], []⟩⟩ (.destruct 0)
      ⟨⟨Function.update (Function.update (fun _ => none) 0 (some ⟨0⟩)) 0 none,
        Descriptors.start.add ⟨0, 0x2⟩⟩,
        ⟨Function.update (Function.update (fun _ => none) 0 (some 0)) 0 none, [0], [0]⟩⟩ :=
    ⟨rfl, rfl, rfl⟩
  have hlawful := h _ _ _ ((Run.single hcreate).snoc hdestruct)
  exact absurd hlawful.closes (by simp [Descriptors.add, Descriptors.start])

/-- A `Socket` is created and moved from, and then both objects are destroyed. -/
def movedAndDestroyed : List SocketAct :=
  [.create 0 ⟨3, 0x2⟩, .moveFrom 1 0, .destruct 0, .destruct 1]

theorem socket_ownership_of_moved :
    ∃ l, Run Step (start .start) movedAndDestroyed l ∧ l.process.descriptors.closed = [3] ∧
      ∀ pre m, pre <+: movedAndDestroyed → Run Step (start .start) pre m → Lawful m := by
  have step {l : Lifetimes} {a : SocketAct} {p : Process} (hadmits : l.process.Admits a)
      (hp : l.process.step a = .ok p) : Step l a ⟨p, l.holdings.next a.holding⟩ := ⟨hadmits, hp, rfl⟩
  obtain ⟨l, hrun, hclosed⟩ : ∃ l, Run Step (start .start) movedAndDestroyed l ∧
      l.process.descriptors.closed = [3] :=
    ⟨_, .cons (step ⟨rfl, by decide, Finset.notMem_empty 3⟩ rfl) <| .cons (step ⟨rfl, rfl⟩ rfl) <|
      .cons (step (a := .destruct 0) rfl rfl) <| .single (step (a := .destruct 1) rfl rfl), rfl⟩
  exact ⟨l, hrun, hclosed, (socket_ownership_iff hrun).2 (by decide)⟩

end Runs

end Lifetimes
end Netier
