import Netier.Connection.Teardown
import Netier.Lib.Flags
import Netier.Server.Staging

/-! An `IOContext` from its construction to the destruction of the object that owns it:
the calls that set its events, and the order in which the owner's members go. -/
namespace Netier
open Lib

/-- The calls that set the events an `IOContext` is registered for. -/
inductive Setter where
  | enableRead
  | disableRead
  | enableWrite
  | disableWrite
  | setET
  | setLT
  | setEvents (ev : Mask)
  deriving DecidableEq, Repr

namespace Setter

def exec : Setter → Register Unit
  | .enableRead => IoContext.enableRead
  | .disableRead => IoContext.disableRead
  | .enableWrite => IoContext.enableWrite
  | .disableWrite => IoContext.disableWrite
  | .setET => IoContext.setET
  | .setLT => IoContext.setLT
  | .setEvents ev => IoContext.setEvents ev

/-- The bits that a call names. -/
def named : Setter → Mask
  | .enableRead | .disableRead => epollin
  | .enableWrite | .disableWrite => epollout
  | .setET | .setLT => epollet
  | .setEvents _ => BitVec.allOnes 32

/-- What it names them to be. -/
def wanted : Setter → Mask
  | .enableRead => epollin
  | .enableWrite => epollout
  | .setET => epollet
  | .disableRead | .disableWrite | .setLT => 0
  | .setEvents ev => ev

/-- The mask that it passes on, computed from the one before. -/
def mask : Setter → Mask → Mask
  | .enableRead, m => m ||| epollin
  | .disableRead, m => m &&& ~~~epollin
  | .enableWrite, m => m ||| epollout
  | .disableWrite, m => m &&& ~~~epollout
  | .setET, m => m ||| epollet
  | .setLT, m => m &&& ~~~epollet
  | .setEvents ev, _ => ev

theorem mask_sets (c : Setter) (m : Mask) : Sets c.named c.wanted m (c.mask m) := by
  cases c with
  | enableRead | enableWrite | setET => exact or_sets m _
  | disableRead | disableWrite | setLT => exact and_not_sets m _
  | setEvents ev => exact store_sets m ev

end Setter

/-- The mask that it names asks for `EPOLLEXCLUSIVE`. -/
def Setter.exclusive (c : Setter) : Bool := Netier.exclusive c.wanted

/-- The masks of the calls are ones that `epoll_ctl(2)` takes: `EPOLLEXCLUSIVE` is asked for by the
only call or by none. -/
def Taken (calls : List Setter) : Prop :=
  (∀ c ∈ calls, c.exclusive = false) ∨ ∃ ev, calls = [.setEvents ev] ∧ Kernel.settable none ev

def setAll : List Setter → Register Unit
  | [] => pure ()
  | c :: cs => do
    c.exec
    setAll cs

/-- The members of `Context`, of `Acceptor` and of a function that has a descriptor and an
`IOContext`; `reactorPointer` is the pointer to a reactor, `reactor` the object. -/
inductive Member where
  | socket
  | address
  | ioContext
  | buffer
  | wbuffer
  | destroyContext
  | onConn
  | onRecv
  | reactorPointer
  | state
  | reactor
  | contextCreator
  deriving DecidableEq, Repr

inductive Owner where
  | context
  | acceptor
  | bare
  deriving DecidableEq, Repr

/-- In the order of their declaration. -/
def Owner.members : Owner → List Member
  | .context => [.socket, .address, .ioContext, .buffer, .wbuffer, .destroyContext, .onConn, .onRecv,
      .reactorPointer, .state]
  | .acceptor => [.address, .reactor, .ioContext, .socket, .contextCreator]
  | .bare => [.socket, .ioContext]

/-- Closing an epoll instance drops its interest set. -/
def Kernel.closeEpoll (k : Kernel) (ep : Nat) : Kernel :=
  { k with interest := Function.update k.interest ep fun _ => none }

/-- The destructor of a member; all but three touch nothing that is modelled here. -/
def Member.destruct (r : Nat) (fd : Fd) : Member → Register Unit
  | .ioContext => IoContext.destruct
  | .socket => modify fun s => { s with kernel := if 0 < fd then s.kernel.close fd else s.kernel }
  | .reactor => modify fun s => { s with kernel := s.kernel.closeEpoll r }
  | _ => pure ()

def destructAll (r : Nat) (fd : Fd) : List Member → Register Unit
  | [] => pure ()
  | m :: ms => do
    m.destruct r fd
    destructAll r fd ms

/-- Members go in the reverse order of their declaration. -/
def Owner.destroy (o : Owner) (r : Nat) (fd : Fd) : Register Unit :=
  destructAll r fd o.members.reverse

/-- The object's flag says whether the reactor watches the descriptor, and its mask is the
one stored there. -/
structure Mirrored (r : Nat) (fd : Fd) (s : Registration) : Prop where
  registered : s.ioContext.registered = true ↔ (s.kernel.interest r fd).isSome
  mask : ∀ e, s.kernel.interest r fd = some e → e.events = s.ioContext.events

/-- A new `IOContext` over a descriptor. -/
def Registration.start (k : Kernel) (address r : Nat) (fd : Fd) : Registration :=
  ⟨k, IoContext.create address r fd⟩

/-- Every call returns, changes the bits it names, and leaves object and kernel in agreement;
and no call of `epoll_ctl` fails, the one in the destructor included. -/
structure Protocol (k : Kernel) (address r : Nat) (fd : Fd) (calls : List Setter) (o : Owner) :
    Prop where
  each : ∀ done c rest, calls = done ++ c :: rest → ∃ s s',
    setAll done (.start k address r fd) = .ok ⟨⟩ s ∧ c.exec s = .ok ⟨⟩ s' ∧ Mirrored r fd s' ∧
      Sets c.named c.wanted s.ioContext.events s'.ioContext.events
  life : ∃ s, (do setAll calls; o.destroy r fd) (Registration.start k address r fd) = .ok ⟨⟩ s

section Control
variable {s : Registration} {r : Nat}

/-- What the kernel allows. -/
theorem epollCtl_isSome_iff (k : Kernel) (ep : Nat) (op : EpollOp) (fd : Fd) (ev : EpollEvent) :
    (k.epollCtl ep op fd ev).isSome ↔ fd ∈ k.fds ∧ (op = .add ↔ k.interest ep fd = none) ∧
      (op = .del ∨ Kernel.settable (k.interest ep fd) ev.events) := by
  by_cases hfd : fd ∈ k.fds
  · cases hi : k.interest ep fd with
    | none => cases op <;> simp [Kernel.epollCtl, hfd, hi]
    | some e => cases op <;> simp [Kernel.epollCtl, hfd, hi]
  · simp [Kernel.epollCtl, hfd]

/-- A call of `epoll_ctl` that the kernel does not allow ends the process. -/
theorem control_returns_iff (op : EpollOp) (errmsg : String) (hr : s.ioContext.reactor = some r) :
    (∃ s', IoContext.control op errmsg s = .ok ⟨⟩ s') ↔
      s.ioContext.fd ∈ s.kernel.fds ∧ (op = .add ↔ s.kernel.interest r s.ioContext.fd = none) ∧
        (op = .del ∨ Kernel.settable (s.kernel.interest r s.ioContext.fd) s.ioContext.events) := by
  rw [← epollCtl_isSome_iff _ _ _ _ ⟨s.ioContext.events, s.ioContext.address⟩]
  cases hk : s.kernel.epollCtl r op s.ioContext.fd ⟨s.ioContext.events, s.ioContext.address⟩ <;>
    simp [IoContext.control, IoContext.requireReactor, bind_run, hr, hk]

theorem destruct_returns_iff (hr : s.ioContext.reactor = some r) :
    (∃ s', IoContext.destruct s = .ok ⟨⟩ s') ↔
      s.ioContext.fd ∈ s.kernel.fds ∧ (s.kernel.interest r s.ioContext.fd).isSome := by
  have hdel : IoContext.destruct s = IoContext.control .del "Epoll::del" s := by
    simp [IoContext.destruct, IoContext.delIOContext, bind_run, hr]
  rw [hdel, control_returns_iff _ _ hr]
  simp [Option.isSome_iff_ne_none]

theorem requireReactor_inv {s' : Registration} (h : IoContext.requireReactor s = .ok r s') : s' = s := by
  rw [IoContext.requireReactor, bind_of_ok (get_run s)] at h
  cases hr : s.ioContext.reactor with
  | none =>
    rw [hr] at h
    cases h
  | some r' =>
    rw [hr] at h
    cases h
    rfl

/-- The call of `epoll_ctl` in a `setEvents` that returned. -/
theorem setEvents_inv {ev : Mask} {s' : Registration} (h : IoContext.setEvents ev s = .ok ⟨⟩ s') :
    ∃ errmsg t, IoContext.control (if s.ioContext.registered then .mod else .add) errmsg
      { s with ioContext := { s.ioContext with events := ev } } = .ok ⟨⟩ t := by
  obtain ⟨_, s₁, hreq, hrest⟩ := bind_inv h
  obtain rfl := requireReactor_inv hreq
  obtain ⟨_, s₂, hmod, hadd⟩ := bind_inv hrest
  cases hmod
  rw [IoContext.addIOContext, bind_of_ok (get_run _)] at hadd
  cases hreg : s₁.ioContext.registered with
  | true =>
    simp only [hreg, if_true] at hadd ⊢
    exact ⟨"Epoll::modify", s', hadd⟩
  | false =>
    simp only [hreg, Bool.false_eq_true, if_false] at hadd ⊢
    obtain ⟨_, t, hctl, _⟩ := bind_inv hadd
    exact ⟨"Epoll::add", t, hctl⟩

end Control

/-- What every call keeps: the object is over an open descriptor and agrees with the kernel. -/
structure Enrolled (r : Nat) (fd : Fd) (s : Registration) : Prop extends Mirrored r fd s where
  reactor : s.ioContext.reactor = some r
  descriptor : s.ioContext.fd = fd
  opened : fd ∈ s.kernel.fds

section Setters
variable {s : Registration} {r : Nat} {fd : Fd}

theorem Setter.exec_eq (c : Setter) (hr : s.ioContext.reactor = some r) :
    c.exec s = IoContext.setEvents (c.mask s.ioContext.events) s := by
  cases c with
  | setEvents ev => rfl
  | _ => exact bind_of_ok (getEvents_run hr)

/-- Only `setEvents` brings `EPOLLEXCLUSIVE` in. -/
theorem Setter.mask_exclusive (c : Setter) {m : Mask} (hm : Netier.exclusive m = false) :
    Netier.exclusive (c.mask m) = c.exclusive := by
  have keep {c : Setter} (hnamed : epollexclusive &&& c.named = 0) (hc : c.exclusive = false) :
      Netier.exclusive (c.mask m) = c.exclusive := by
    rw [Netier.exclusive, (c.mask_sets m).other hnamed, hc]
    exact hm
  cases c with
  | setEvents ev => rfl
  | _ => exact keep (by decide) (by decide)

/-- One call: the flag is up, and the kernel stores the new mask. -/
theorem Setter.exec_enrolled (c : Setter) (h : Enrolled r fd s)
    (hset : Kernel.settable (s.kernel.interest r fd) (c.mask s.ioContext.events)) :
    ∃ s', c.exec s = .ok ⟨⟩ s' ∧ Enrolled r fd s' ∧ s'.ioContext.events = c.mask s.ioContext.events ∧
      (s'.kernel.interest r fd).isSome := by
  have hreg : s.ioContext.registered = (s.kernel.interest r s.ioContext.fd).isSome := by
    rw [Bool.eq_iff_iff, h.descriptor]
    exact h.registered
  have hrun := (c.exec_eq h.reactor).trans
    (setEvents_run h.reactor (by rw [h.descriptor]; exact h.opened) hreg (by rw [h.descriptor]; exact hset))
  rw [h.descriptor] at hrun
  refine ⟨_, hrun, ⟨⟨?_, ?_⟩, h.reactor, h.descriptor, h.opened⟩, rfl, ?_⟩
  · simp
  · intro e he
    rw [Kernel.setInterest_self] at he
    cases he
    rfl
  · simp

/-- It returns exactly with a mask that can be set. -/
theorem Setter.exec_returns_iff (c : Setter) (h : Enrolled r fd s) :
    (∃ s', c.exec s = .ok ⟨⟩ s') ↔
      Kernel.settable (s.kernel.interest r fd) (c.mask s.ioContext.events) := by
  constructor
  · rintro ⟨s', hrun⟩
    rw [c.exec_eq h.reactor] at hrun
    obtain ⟨errmsg, t, hctl⟩ := setEvents_inv hrun
    obtain ⟨_, _, hset⟩ := (control_returns_iff (r := r) _ errmsg (by exact h.reactor)).1 ⟨t, hctl⟩
    rw [h.descriptor] at hset
    refine hset.resolve_left ?_
    split_ifs <;> simp
  · intro hset
    obtain ⟨s', hrun, _⟩ := c.exec_enrolled h hset
    exact ⟨s', hrun⟩

theorem Setter.exec_kept {c : Setter} (h : Enrolled r fd s) {s' : Registration}
    (hrun : c.exec s = .ok ⟨⟩ s') :
    Enrolled r fd s' ∧ s'.ioContext.events = c.mask s.ioContext.events ∧
      (s'.kernel.interest r fd).isSome := by
  obtain ⟨t, hrun', hkept⟩ := c.exec_enrolled h ((c.exec_returns_iff h).1 ⟨s', hrun⟩)
  rw [hrun] at hrun'
  cases hrun'
  exact hkept

theorem setAll_append (cs ds : List Setter) : setAll (cs ++ ds) = (do setAll cs; setAll ds) := by
  induction cs with
  | nil => exact (pure_bind _ _).symm
  | cons c cs ih => simp only [List.cons_append, setAll, ih, bind_assoc]

/-- All of them: whoever has been named once is watched. -/
theorem setAll_kept {cs : List Setter} (h : Enrolled r fd s) {s' : Registration}
    (hrun : setAll cs s = .ok ⟨⟩ s') :
    Enrolled r fd s' ∧ ((s'.kernel.interest r fd).isSome ↔ cs ≠ [] ∨ (s.kernel.interest r fd).isSome) := by
  induction cs generalizing s with
  | nil =>
    cases hrun
    exact ⟨h, by simp⟩
  | cons c cs ih =>
    obtain ⟨_, s₁, hexec, hrest⟩ := bind_inv hrun
    obtain ⟨h₁, _, hsome⟩ := Setter.exec_kept h hexec
    obtain ⟨h', hiff⟩ := ih h₁ hrest
    refine ⟨h', ?_⟩
    rw [hiff]
    exact iff_of_true (.inr hsome) (.inl (by simp))

theorem setAll_cons_iff {c : Setter} {cs : List Setter} : (∃ s', setAll (c :: cs) s = .ok ⟨⟩ s') ↔
    ∃ s₁, c.exec s = .ok ⟨⟩ s₁ ∧ ∃ s', setAll cs s₁ = .ok ⟨⟩ s' := by
  constructor
  · rintro ⟨s', hrun⟩
    obtain ⟨_, s₁, hc, hrest⟩ := bind_inv hrun
    exact ⟨s₁, hc, s', hrest⟩
  · rintro ⟨s₁, hc, s', hrest⟩
    exact ⟨s', by rw [setAll, bind_of_ok hc, hrest]⟩

/-- A plain registration takes every call but one that asks for `EPOLLEXCLUSIVE`. -/
theorem setAll_plain_iff (cs : List Setter) (h : Enrolled r fd s) (hsome : (s.kernel.interest r fd).isSome)
    (hplain : exclusive s.ioContext.events = false) :
    (∃ s', setAll cs s = .ok ⟨⟩ s') ↔ ∀ c ∈ cs, c.exclusive = false := by
  induction cs generalizing s with
  | nil => simp [setAll]
  | cons c cs ih =>
    obtain ⟨e, he⟩ := Option.isSome_iff_exists.1 hsome
    have hexec := c.exec_returns_iff h
    rw [he, Kernel.settable, h.mask e he, hplain, c.mask_exclusive hplain] at hexec
    have hrest {s₁ : Registration} (hc : c.exec s = .ok ⟨⟩ s₁) (hplain' : c.exclusive = false) :
        (∃ s', setAll cs s₁ = .ok ⟨⟩ s') ↔ ∀ c ∈ cs, c.exclusive = false := by
      obtain ⟨h₁, hevents, hsome₁⟩ := Setter.exec_kept h hc
      exact ih h₁ hsome₁ (by rw [hevents, c.mask_exclusive hplain, hplain'])
    rw [setAll_cons_iff, List.forall_mem_cons]
    constructor
    · rintro ⟨s₁, hc, hcs⟩
      have hplain' : c.exclusive = false := by simpa using hexec.1 ⟨s₁, hc⟩
      exact ⟨hplain', (hrest hc hplain').1 hcs⟩
    · rintro ⟨hplain', hcs⟩
      obtain ⟨s₁, hc⟩ := hexec.2 (by simp [hplain'])
      exact ⟨s₁, hc, (hrest hc hplain').2 hcs⟩

/-- An exclusive registration takes none. -/
theorem setAll_exclusive_iff (cs : List Setter) (h : Enrolled r fd s)
    (hsome : (s.kernel.interest r fd).isSome) (hex : exclusive s.ioContext.events = true) :
    (∃ s', setAll cs s = .ok ⟨⟩ s') ↔ cs = [] := by
  cases cs with
  | nil => simp [setAll]
  | cons c cs =>
    refine iff_of_false ?_ (by simp)
    rintro ⟨s', hrun⟩
    obtain ⟨_, s₁, hc, _⟩ := bind_inv hrun
    obtain ⟨e, he⟩ := Option.isSome_iff_exists.1 hsome
    have hset := (c.exec_returns_iff h).1 ⟨s₁, hc⟩
    rw [he, Kernel.settable, h.mask e he, hex] at hset
    exact absurd hset (by simp)

/-- A new object does not know of a registration that is already there. -/
theorem Setter.exec_taken {k : Kernel} {address : Nat} (c : Setter)
    (hsome : k.interest r fd ≠ none) : ¬ ∃ s', c.exec (.start k address r fd) = .ok ⟨⟩ s' := by
  rintro ⟨s', hrun⟩
  have hr : (Registration.start k address r fd).ioContext.reactor = some r := rfl
  rw [c.exec_eq hr] at hrun
  obtain ⟨errmsg, t, hadd⟩ := setEvents_inv hrun
  obtain ⟨_, hlegal, _⟩ := (control_returns_iff _ errmsg (r := r) rfl).1 ⟨t, hadd⟩
  exact hsome (hlegal.1 rfl)

end Setters

section Owner
variable {s : Registration} {r : Nat} {fd : Fd}

theorem context_destroy (s : Registration) (r : Nat) (fd : Fd) :
    Owner.context.destroy r fd s = (do IoContext.destruct; Member.socket.destruct r fd) s := rfl

theorem bare_destroy (s : Registration) (r : Nat) (fd : Fd) :
    Owner.bare.destroy r fd s = (do IoContext.destruct; Member.socket.destruct r fd) s := rfl

theorem acceptor_destroy (s : Registration) (r : Nat) (fd : Fd) :
    Owner.acceptor.destroy r fd s = (do
      Member.socket.destruct r fd
      IoContext.destruct
      Member.reactor.destruct r fd) s := rfl

/-- With the descriptor closed after it, the object deregisters while the kernel knows it. -/
theorem destroy_first_returns_iff (hr : s.ioContext.reactor = some r) (hfd : s.ioContext.fd = fd)
    (hopen : fd ∈ s.kernel.fds) :
    (∃ s', (do IoContext.destruct; Member.socket.destruct r fd) s = .ok ⟨⟩ s') ↔
      (s.kernel.interest r fd).isSome := by
  have hiff := destruct_returns_iff hr
  rw [hfd] at hiff
  constructor
  · rintro ⟨s', hrun⟩
    obtain ⟨_, s₁, hdel, _⟩ := bind_inv hrun
    exact (hiff.1 ⟨s₁, hdel⟩).2
  · intro hsome
    obtain ⟨s₁, hdel⟩ := hiff.2 ⟨hopen, hsome⟩
    exact ⟨_, bind_of_ok hdel⟩

/-- With the descriptor closed before it, the kernel has forgotten the object. -/
theorem destroy_last_returns_iff (hr : s.ioContext.reactor = some r) (hfd : s.ioContext.fd = fd)
    (hopen : fd ∈ s.kernel.fds) :
    (∃ s', Owner.acceptor.destroy r fd s = .ok ⟨⟩ s') ↔
      (s.kernel.interest r fd).isSome ∧ ¬ 0 < fd := by
  by_cases hpos : 0 < fd
  · have hclose : Member.socket.destruct r fd s = .ok ⟨⟩ { s with kernel := s.kernel.close fd } := by
      simp [Member.destruct, hpos]
    refine iff_of_false ?_ fun hno => hno.2 hpos
    rintro ⟨s', hrun⟩
    rw [acceptor_destroy, bind_of_ok hclose] at hrun
    obtain ⟨_, s₁, hdel, _⟩ := bind_inv hrun
    have hr₁ : ({ s with kernel := s.kernel.close fd } : Registration).ioContext.reactor = some r := hr
    obtain ⟨hstill, _⟩ := (destruct_returns_iff hr₁).1 ⟨s₁, hdel⟩
    rw [hfd] at hstill
    exact Finset.notMem_erase fd _ hstill
  · have hkeep : Member.socket.destruct r fd s = .ok ⟨⟩ s := by
      simp [Member.destruct, hpos]
    have hiff := destruct_returns_iff hr
    rw [hfd] at hiff
    rw [acceptor_destroy, bind_of_ok hkeep]
    constructor
    · rintro ⟨s', hrun⟩
      obtain ⟨_, s₁, hdel, _⟩ := bind_inv hrun
      exact ⟨(hiff.1 ⟨s₁, hdel⟩).2, hpos⟩
    · rintro ⟨hsome, _⟩
      obtain ⟨s₁, hdel⟩ := hiff.2 ⟨hopen, hsome⟩
      exact ⟨_, bind_of_ok hdel⟩

theorem Owner.destroy_returns_iff (o : Owner) (hr : s.ioContext.reactor = some r)
    (hfd : s.ioContext.fd = fd) (hopen : fd ∈ s.kernel.fds) :
    (∃ s', o.destroy r fd s = .ok ⟨⟩ s') ↔
      (s.kernel.interest r fd).isSome ∧ (o = .acceptor → ¬ 0 < fd) := by
  cases o with
  | context =>
    rw [context_destroy, destroy_first_returns_iff hr hfd hopen]
    simp
  | bare =>
    rw [bare_destroy, destroy_first_returns_iff hr hfd hopen]
    simp
  | acceptor =>
    rw [destroy_last_returns_iff hr hfd hopen]
    simp

/-- The destructor of a live `Context` is that of its members, in its owner's order. -/
theorem destruct_members {α : Type} {w : World α} (hlive : w.freed = false) :
    match Owner.context.destroy r w.context.socket.fd ⟨w.kernel, w.context.ioContext⟩ with
    | .ok _ s => ∃ w', Netier.destruct w = .ok ⟨⟩ w' ∧ w'.kernel = s.kernel ∧ w'.freed = true
    | .error e _ => ∃ w', Netier.destruct w = .error e w' := by
  rw [context_destroy, bind_run]
  cases hx : IoContext.destruct ⟨w.kernel, w.context.ioContext⟩ with
  | ok u s => exact ⟨_, bind_of_ok (onIoContext_run hlive hx), rfl, rfl⟩
  | error e s => exact ⟨_, bind_of_error (onIoContext_error hlive hx)⟩

end Owner

section Life
variable {k : Kernel} {address r : Nat} {fd : Fd} {calls : List Setter} {o : Owner}

theorem start_enrolled (address : Nat) (hopen : fd ∈ k.fds) (hnone : k.interest r fd = none) :
    Enrolled r fd (.start k address r fd) where
  registered := by simp [Registration.start, IoContext.create, hnone]
  mask := by simp [Registration.start, hnone]
  reactor := rfl
  descriptor := rfl
  opened := hopen

theorem taken_cons_plain {c : Setter} {cs : List Setter} (hc : c.exclusive = false) :
    Taken (c :: cs) ↔ ∀ c ∈ cs, c.exclusive = false := by
  constructor
  · rintro (hall | ⟨ev, heq, _⟩)
    · exact (List.forall_mem_cons.1 hall).2
    · obtain ⟨_, rfl⟩ := List.cons_eq_cons.1 heq
      simp
  · intro hcs
    exact .inl (List.forall_mem_cons.2 ⟨hc, hcs⟩)

theorem taken_cons_exclusive {c : Setter} {cs : List Setter} (hc : c.exclusive = true) :
    Taken (c :: cs) ↔ cs = [] ∧ Kernel.settable none (c.mask 0) := by
  constructor
  · rintro (hall | ⟨ev, heq, hset⟩)
    · exact absurd (hall c (by simp)) (by simp [hc])
    · obtain ⟨rfl, rfl⟩ := List.cons_eq_cons.1 heq
      exact ⟨rfl, hset⟩
  · rintro ⟨rfl, hset⟩
    cases c with
    | setEvents ev => exact .inr ⟨ev, rfl, hset⟩
    | _ => exact absurd hc (by decide)

/-- The calls return if the kernel takes their masks. -/
theorem setAll_returns_iff (address : Nat) (hopen : fd ∈ k.fds) (hnone : k.interest r fd = none) :
    (∃ s, setAll calls (.start k address r fd) = .ok ⟨⟩ s) ↔ Taken calls := by
  have h₀ := start_enrolled address hopen hnone
  have hplain₀ : exclusive (Registration.start k address r fd).ioContext.events = false :=
    show exclusive 0 = false by decide
  cases calls with
  | nil => simp [setAll, Taken]
  | cons c cs =>
    have hfirst : (∃ s₁, c.exec (.start k address r fd) = .ok ⟨⟩ s₁) ↔ Kernel.settable none (c.mask 0) := by
      rw [c.exec_returns_iff h₀, ← hnone]
      rfl
    have hevents {s₁ : Registration} (hc : c.exec (.start k address r fd) = .ok ⟨⟩ s₁) :
        exclusive s₁.ioContext.events = c.exclusive := by
      rw [(Setter.exec_kept h₀ hc).2.1, c.mask_exclusive hplain₀]
    rw [setAll_cons_iff]
    cases hex : c.exclusive with
    | false =>
      -- the registration is plain, and the other calls have to leave it so
      have hrest {s₁ : Registration} (hc : c.exec (.start k address r fd) = .ok ⟨⟩ s₁) :
          (∃ s, setAll cs s₁ = .ok ⟨⟩ s) ↔ ∀ c ∈ cs, c.exclusive = false := by
        obtain ⟨h₁, _, hsome⟩ := Setter.exec_kept h₀ hc
        exact setAll_plain_iff cs h₁ hsome ((hevents hc).trans hex)
      have hplain : exclusive (c.mask 0) = false := (c.mask_exclusive (by decide)).trans hex
      rw [taken_cons_plain hex]
      constructor
      · rintro ⟨s₁, hc, hcs⟩
        exact (hrest hc).1 hcs
      · intro hcs
        obtain ⟨s₁, hc⟩ := hfirst.2 (by rw [Kernel.settable, hplain]; rfl)
        exact ⟨s₁, hc, (hrest hc).2 hcs⟩
    | true =>
      -- the registration is exclusive, and no other call may follow
      have hrest {s₁ : Registration} (hc : c.exec (.start k address r fd) = .ok ⟨⟩ s₁) :
          (∃ s, setAll cs s₁ = .ok ⟨⟩ s) ↔ cs = [] := by
        obtain ⟨h₁, _, hsome⟩ := Setter.exec_kept h₀ hc
        exact setAll_exclusive_iff cs h₁ hsome ((hevents hc).trans hex)
      rw [taken_cons_exclusive hex]
      constructor
      · rintro ⟨s₁, hc, hcs⟩
        exact ⟨(hrest hc).1 hcs, hfirst.1 ⟨s₁, hc⟩⟩
      · rintro ⟨hnil, hset⟩
        obtain ⟨s₁, hc⟩ := hfirst.2 hset
        exact ⟨s₁, hc, (hrest hc).2 hnil⟩

/-- Every call of a run that returned. -/
theorem Enrolled.each {s s' : Registration} (h : Enrolled r fd s) {done rest : List Setter} {c : Setter}
    (hrun : setAll (done ++ c :: rest) s = .ok ⟨⟩ s') :
    ∃ s₁ s₂, setAll done s = .ok ⟨⟩ s₁ ∧ c.exec s₁ = .ok ⟨⟩ s₂ ∧ Mirrored r fd s₂ ∧
      Sets c.named c.wanted s₁.ioContext.events s₂.ioContext.events := by
  rw [setAll_append] at hrun
  obtain ⟨_, s₁, hdone, hrun⟩ := bind_inv hrun
  obtain ⟨_, s₂, hexec, _⟩ := bind_inv hrun
  obtain ⟨h₁, _⟩ := setAll_kept h hdone
  obtain ⟨h₂, hmask, _⟩ := Setter.exec_kept h₁ hexec
  exact ⟨s₁, s₂, hdone, hexec, h₂.toMirrored, hmask ▸ c.mask_sets _⟩

/-- On a descriptor that nobody has registered. -/
theorem protocol_fresh_iff (address : Nat) (hopen : fd ∈ k.fds) (hnone : k.interest r fd = none) :
    Protocol k address r fd calls o ↔ calls ≠ [] ∧ Taken calls ∧ (o = .acceptor → ¬ 0 < fd) := by
  have h₀ := start_enrolled address hopen hnone
  have hnamed {s : Registration} (hrun : setAll calls (.start k address r fd) = .ok ⟨⟩ s) :
      (∃ s', o.destroy r fd s = .ok ⟨⟩ s') ↔ calls ≠ [] ∧ (o = .acceptor → ¬ 0 < fd) := by
    obtain ⟨h, hsome⟩ := setAll_kept h₀ hrun
    rw [o.destroy_returns_iff h.reactor h.descriptor h.opened, hsome]
    simp [Registration.start, hnone]
  rw [← setAll_returns_iff address hopen hnone]
  constructor
  · rintro ⟨_, s', hlife⟩
    obtain ⟨_, s, hrun, hend⟩ := bind_inv hlife
    obtain ⟨hne, howner⟩ := (hnamed hrun).1 ⟨s', hend⟩
    exact ⟨hne, ⟨s, hrun⟩, howner⟩
  · rintro ⟨hne, ⟨s, hrun⟩, howner⟩
    obtain ⟨s', hend⟩ := (hnamed hrun).2 ⟨hne, howner⟩
    refine ⟨?_, s', by rw [bind_of_ok hrun, hend]⟩
    rintro done c rest rfl
    exact h₀.each hrun

/-- On a descriptor that somebody else has registered. -/
theorem protocol_taken_iff (address : Nat) (hopen : fd ∈ k.fds) (hsome : k.interest r fd ≠ none) :
    Protocol k address r fd calls o ↔ calls = [] ∧ (o = .acceptor → ¬ 0 < fd) := by
  have hdestroy : (∃ s', o.destroy r fd (.start k address r fd) = .ok ⟨⟩ s') ↔
      (k.interest r fd).isSome ∧ (o = .acceptor → ¬ 0 < fd) :=
    o.destroy_returns_iff rfl rfl hopen
  rw [Option.isSome_iff_ne_none] at hdestroy
  cases calls with
  | nil =>
    constructor
    · rintro ⟨_, s', hlife⟩
      exact ⟨rfl, (hdestroy.1 ⟨s', hlife⟩).2⟩
    · rintro ⟨_, howner⟩
      exact ⟨fun done c rest heq => by simp at heq, hdestroy.2 ⟨hsome, howner⟩⟩
  | cons c cs =>
    refine iff_of_false ?_ fun hno => by simp at hno
    rintro ⟨heach, _⟩
    obtain ⟨s, s', hdone, hexec, _⟩ := heach [] c cs rfl
    cases hdone
    exact c.exec_taken hsome ⟨s', hexec⟩

/-- The protocol is kept exactly if the object's own first call registers the descriptor, or
it makes none where the descriptor is registered already, the kernel takes the masks, and the
owner does not close the descriptor first. -/
theorem registration_protocol_iff (k : Kernel) (address r : Nat) (fd : Fd) (hopen : fd ∈ k.fds)
    (calls : List Setter) (o : Owner) :
    Protocol k address r fd calls o ↔
      (calls ≠ [] ↔ k.interest r fd = none) ∧ Taken calls ∧ (o = .acceptor → ¬ 0 < fd) := by
  by_cases hnone : k.interest r fd = none
  · rw [protocol_fresh_iff address hopen hnone]
    simp [hnone]
  · rw [protocol_taken_iff address hopen hnone]
    by_cases hcalls : calls = []
    · simp [hnone, hcalls, Taken]
    · simp [hnone, hcalls]

/-- One open descriptor that no epoll instance watches. -/
def Kernel.only (fd : Fd) : Kernel := ⟨{fd}, fun _ _ => none, 0⟩

/-- An `IOContext` that no setter was called on, one that an `Acceptor` owns, and one that is
first made exclusive and then changed. -/
theorem destruction_ends_the_process :
    (¬ ∀ (k : Kernel) (address r : Nat) (fd : Fd) (calls : List Setter), fd ∈ k.fds →
      k.interest r fd = none → Protocol k address r fd calls .bare) ∧
    (¬ ∀ (k : Kernel) (address r : Nat) (fd : Fd) (calls : List Setter), fd ∈ k.fds →
      k.interest r fd = none → calls ≠ [] → Protocol k address r fd calls .acceptor) ∧
    ¬ ∀ (k : Kernel) (address r : Nat) (fd : Fd) (calls : List Setter), fd ∈ k.fds →
      k.interest r fd = none → calls ≠ [] → Protocol k address r fd calls .context := by
  have hopen : (5 : Fd) ∈ (Kernel.only 5).fds := Finset.mem_singleton_self 5
  refine ⟨fun h => ?_, fun h => ?_, fun h => ?_⟩
  · have hp := h (.only 5) 0 0 5 [] hopen rfl
    exact ((protocol_fresh_iff 0 hopen rfl).1 hp).1 rfl
  · have hp := h (.only 5) 0 0 5 [.enableRead] hopen rfl (by simp)
    exact ((protocol_fresh_iff 0 hopen rfl).1 hp).2.2 rfl (by decide)
  · have hp := h (.only 5) 0 0 5 [.setEvents 0x10000001, .enableWrite] hopen rfl (by simp)
    obtain ⟨_, hall | ⟨ev, heq, _⟩, _⟩ := (protocol_fresh_iff 0 hopen rfl).1 hp
    · exact absurd (hall (.setEvents 0x10000001) (by simp)) (by decide)
    · simp at heq

theorem registration_protocol_for_connection :
    Protocol (.only 5) 0 0 5 [.enableRead, .enableWrite, .setET, .setEvents 0x5, .disableRead] .context :=
  (registration_protocol_iff _ 0 0 5 (Finset.mem_singleton_self 5) _ _).2
    ⟨iff_of_true (by simp) rfl, .inl (by decide), by decide⟩

end Life

end Netier
