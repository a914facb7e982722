import Netier.Server.Registry
import Netier.Socket.Blocking

/-! What a failing system call changes. A failing `accept(2)` ends the process; a failing
`read(2)` or `write(2)` stays with the connection it happened on. -/
namespace Netier
open Lib
variable {α : Type} {w w' : World α}

namespace Server
variable {s s' : Server α} {fd : Fd}

variable [Zero α]

/-- A call of the application on a live connection, between two events. -/
def call (s : Server α) (fd : Fd) (x : Call α) : Except Fault (Server α) :=
  match s.contextes fd with
  | none => .ok s
  | some c => match x.exec ⟨c, s.kernel⟩ with
    | .error e _ => .error e
    | .ok _ w => .ok (s.put fd (some w.toConn) w.kernel)

section Listener
variable {listener : Acceptor} {flags : Fd → StatusFlags} {a : Acceptance α}

end Listener

end Server
end Netier
