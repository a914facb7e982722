import Netier.Connection.Registration
import Netier.Socket.Socket

/-! `Acceptor`: the listening socket, and the `IOContext` that watches it. -/
namespace Netier
open Lib

/-- `Acceptor`, without the address it was given and the callback that creates a context. -/
structure Acceptor where
  socket : Socket
  ioContext : IoContext

/-- A call on an `IOContext` of the acceptor. -/
def onIoc {β : Type} (x : Register β) (c : IoContext) : OnDescriptors IoContext := fun d =>
  match x ⟨d.kernel, c⟩ with
  | .ok _ s => .ok s.ioContext { d with kernel := s.kernel }
  | .error e s => .error e { d with kernel := s.kernel }

namespace Acceptor

/-- `Acceptor(address, contextCreator)`, with what the system calls in it answer. -/
def create (answer : Option NewDescriptor) (address r : Nat) (bindFailed listenFailed : Bool) :
    OnDescriptors Acceptor := do
  let socket ← Socket.create answer
  socket.bind bindFailed
  socket.setBlocking false
  let fd ← socket.getFd
  let ioc ← onIoc IoContext.enableRead (IoContext.create address r fd)
  -- `setReadCallback` stores a call of `AcceptConnection`
  let ioc ← onIoc IoContext.requireReactor ioc
  socket.listen listenFailed
  pure ⟨socket, ioc⟩

end Acceptor

section Opening
variable {d d' : Descriptors}

theorem create_run (o : NewDescriptor) (d : Descriptors) :
    Socket.create (some o) d = .ok ⟨o.fd⟩ (d.add o) := rfl

theorem add_open (d : Descriptors) (o : NewDescriptor) : o.fd ∈ (d.add o).kernel.fds :=
  Finset.mem_insert_self _ _

theorem add_flags (d : Descriptors) (o : NewDescriptor) : (d.add o).flags o.fd = o.flags :=
  Function.update_self _ _ _

theorem setBlocking_run {s : Socket} (block : Bool) (hfd : 0 < s.fd) :
    s.setBlocking block d =
      .ok ⟨⟩ (d.setFl s.fd (Socket.blockingFlags block (d.getFl s.fd))) := by
  simp [Socket.setBlocking, assert, hfd, bind_run]

theorem onIoc_inv {β : Type} {x : Register β} {c c' : IoContext} (h : onIoc x c d = .ok c' d') :
    ∃ b s, x ⟨d.kernel, c⟩ = .ok b s ∧ c' = s.ioContext ∧ d' = { d with kernel := s.kernel } := by
  unfold onIoc at h
  split at h
  next b s hx =>
    cases h
    exact ⟨b, s, hx, rfl, rfl⟩
  next => cases h

/-- The calls on the descriptor change its flags, the calls on the `IOContext` the kernel. -/
theorem acceptor_create_inv {o : NewDescriptor} {address r : Nat} {bindFailed listenFailed : Bool}
    {a : Acceptor} (h : Acceptor.create (some o) address r bindFailed listenFailed d = .ok a d') :
    0 < o.fd ∧ a.socket = ⟨o.fd⟩ ∧ d'.flags o.fd = o.flags &&& oNonblock ∧
      Setter.enableRead.exec (.start (d.add o).kernel address r o.fd) = .ok ⟨⟩ ⟨d'.kernel, a.ioContext⟩ := by
  rw [Acceptor.create, bind_of_ok (create_run o d)] at h
  obtain ⟨_, d₁, hbind, h⟩ := bind_inv h
  obtain ⟨hpos, hbind⟩ := asserted_inv hbind
  obtain rfl := errif_inv hbind
  have hfd : 0 < o.fd := by simpa using hpos
  have hset := setBlocking_run (s := ⟨o.fd⟩) false hfd (d := d.add o)
  rw [bind_of_ok hset] at h
  obtain ⟨fd, d₂, hget, h⟩ := bind_inv h
  obtain ⟨_, hget⟩ := asserted_inv hget
  cases hget
  obtain ⟨ioc, d₃, henable, h⟩ := bind_inv h
  obtain ⟨_, s, hexec, rfl, rfl⟩ := onIoc_inv henable
  obtain ⟨ioc', d₄, hcallback, h⟩ := bind_inv h
  obtain ⟨_, s', hrequire, rfl, rfl⟩ := onIoc_inv hcallback
  obtain ⟨_, d₅, hlisten, h⟩ := bind_inv h
  obtain rfl := errif_inv (asserted_inv hlisten).2
  cases h
  obtain rfl := requireReactor_inv hrequire
  rw [Descriptors.setFl_kernel] at hexec
  refine ⟨hfd, rfl, ?_, hexec⟩
  show ((d.add o).setFl o.fd _).flags o.fd = _
  rw [Descriptors.setFl_self _ (add_open d o), Descriptors.getFl_of_open (add_open d o), add_flags]
  rfl

end Opening

section Closing
variable {d d' : Descriptors} {o : NewDescriptor} {address r : Nat} {bindFailed listenFailed : Bool}
  {a : Acceptor}

/-- A constructed acceptor is watched by its reactor. -/
theorem acceptor_create_enrolled
    (h : Acceptor.create (some o) address r bindFailed listenFailed d = .ok a d') :
    Enrolled r a.socket.fd ⟨d'.kernel, a.ioContext⟩ ∧
      (d'.kernel.interest r a.socket.fd).isSome := by
  obtain ⟨_, hsocket, _, hexec⟩ := acceptor_create_inv h
  have hnone : (d.add o).kernel.interest r o.fd = none := by
    by_contra hsome
    exact Setter.exec_taken .enableRead hsome ⟨_, hexec⟩
  obtain ⟨henrolled, _, hwatched⟩ := Setter.exec_kept (start_enrolled address (add_open d o) hnone) hexec
  rw [hsocket]
  exact ⟨henrolled, hwatched⟩

/-- It cannot be destroyed: the kernel has forgotten the descriptor when `~IOContext` wants to
take it off the interest set. -/
theorem acceptor_destroy_fails
    (h : Acceptor.create (some o) address r bindFailed listenFailed d = .ok a d') :
    ¬ ∃ s, Owner.acceptor.destroy r a.socket.fd ⟨d'.kernel, a.ioContext⟩ = .ok ⟨⟩ s := by
  obtain ⟨hfd, hsocket, _⟩ := acceptor_create_inv h
  obtain ⟨henrolled, _⟩ := acceptor_create_enrolled h
  rw [destroy_last_returns_iff henrolled.reactor henrolled.descriptor henrolled.opened, hsocket]
  exact fun hno => hno.2 hfd

/-- `~Socket` is the destructor of the member of that name. -/
theorem destruct_member (s : Socket) (d : Descriptors) (r : Nat) (c : IoContext) :
    ∃ d', s.destruct d = .ok ⟨⟩ d' ∧
      Member.socket.destruct r s.fd ⟨d.kernel, c⟩ = .ok ⟨⟩ ⟨d'.kernel, c⟩ := by
  by_cases hfd : 0 < s.fd
  · exact ⟨d.close s.fd, by simp [Socket.destruct, hfd], by simp [Member.destruct, hfd, Descriptors.close]⟩
  · exact ⟨d, by simp [Socket.destruct, hfd], by simp [Member.destruct, hfd]⟩

end Closing

end Netier
