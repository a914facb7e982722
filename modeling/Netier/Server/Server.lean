import Netier.Server.Staging

/-! The server between the handling of one event and the next: the registry
`__contextes` of live connections over one kernel. -/
namespace Netier
open Lib

/-- `accept(2)` returns a descriptor that was not open. -/
def Kernel.accept (k : Kernel) (fd : Fd) : Kernel := { k with fds := insert fd k.fds }

/-- `reactors` is `__reactors.size()`, and `onRecv` says whether the server has a callback to
install on its connections. -/
structure Server (α : Type) where
  reactors : Nat
  onRecv : Bool
  contextes : Fd → Option (Conn α)
  kernel : Kernel

/-- What the environment decides about an accepted connection: its descriptor, where its
`IOContext` is allocated and what was in the memory of `__state`, the answers of its
socket, and the calls of the `onConn` callback. -/
structure Acceptance (α : Type) where
  fd : Fd
  address : Nat
  state : Option State
  answers : Nat → WriteAnswer
  onConn : List (Call α)

inductive ServerLabel (α : Type) where
  | accept (a : Acceptance α)
  | event (fd : Fd) (mask : Mask) (burst : Burst α) (callback : List (Call α))

namespace Server
variable {α : Type}

def create (reactors : Nat) (onRecv : Bool) : Server α where
  reactors := reactors
  onRecv := onRecv
  contextes := fun _ => none
  kernel := ⟨∅, fun _ _ => none, 0⟩

/-- The reactor of a descriptor. -/
def schedule (s : Server α) (fd : Fd) : Nat := (fd % s.reactors).toNat

def put (s : Server α) (fd : Fd) (c : Option (Conn α)) (k : Kernel) : Server α :=
  { s with contextes := Function.update s.contextes fd c, kernel := k }

variable [Zero α]

/-- `Acceptor::AcceptConnection` for the descriptor that `accept(2)` returned. The assignment to
`__contextes[fd]` destroys the context that was there, if any. -/
def accept (s : Server α) (a : Acceptance α) : Except Fault (Server α) :=
  let c := Conn.create a.address (s.schedule a.fd) a.fd a.state a.answers
  match contextCreator s.onRecv (runCalls a.onConn) ⟨c, s.kernel.accept a.fd⟩ with
  | .error e _ => .error e
  | .ok _ w => match s.contextes a.fd with
    | none => .ok (s.put a.fd (some w.toConn) w.kernel)
    | some old => match destruct ⟨old, w.kernel⟩ with
      | .error e _ => .error e
      | .ok _ v => .ok (s.put a.fd (some w.toConn) v.kernel)

/-- One event of a live connection; `contextDestroyer` erases by the descriptor of the
context that calls it. -/
def event (s : Server α) (fd : Fd) (mask : Mask) (burst : Burst α) (callback : List (Call α)) :
    Except Fault (Server α) :=
  match s.contextes fd with
  | none => .ok s
  | some c => match loopEntry mask burst (runCalls callback) ⟨c, s.kernel⟩ with
    | .error e _ => .error e
    | .ok _ w =>
      if w.freed then .ok (s.put w.context.socket.fd none w.kernel)
      else .ok (s.put fd (some w.toConn) w.kernel)

def step (s : Server α) : ServerLabel α → Except Fault (Server α)
  | .accept a => s.accept a
  | .event fd mask burst callback => s.event fd mask burst callback

omit [Zero α] in
/-- `accept(2)` returns a positive descriptor that is not open, memory is allocated where no
live `IOContext` is, events are of live connections, and callbacks do not call `destroy`. -/
def Admits (s : Server α) : ServerLabel α → Prop
  | .accept a => 0 < a.fd ∧ a.fd ∉ s.kernel.fds ∧
      (∀ fd c, s.contextes fd = some c → c.context.ioContext.address ≠ a.address) ∧
      ∀ c ∈ a.onConn, c.Calm
  | .event fd _ _ callback => (s.contextes fd).isSome ∧ ∀ c ∈ callback, c.Calm

/-- The server takes a step to its end. -/
def Step (s : Server α) (l : ServerLabel α) (s' : Server α) : Prop := s.Admits l ∧ s.step l = .ok s'

end Server
end Netier
