import Netier.Connection.World

/-! `Socket`: one descriptor, the system calls its member functions make, and the assertion
each of them starts with. -/
namespace Netier
open Lib

/-- The file status flags of a descriptor. -/
abbrev StatusFlags := BitVec 32

def oNonblock : StatusFlags := 0x800

/-- The descriptors of the process, their flags, and the calls of `close(2)`, newest first. -/
structure Descriptors where
  kernel : Kernel
  flags : Fd → StatusFlags
  closed : List Fd

abbrev OnDescriptors := EStateM Fault Descriptors

/-- The new descriptor that `socket(2)` or `accept(2)` returns. -/
structure NewDescriptor where
  fd : Fd
  flags : StatusFlags
  deriving DecidableEq, Repr

namespace Descriptors

/-- Nothing has been opened yet. -/
def start : Descriptors := ⟨⟨∅, fun _ _ => none, 0⟩, fun _ => 0, []⟩

def add (d : Descriptors) (o : NewDescriptor) : Descriptors :=
  { d with kernel := { d.kernel with fds := insert o.fd d.kernel.fds }
           flags := Function.update d.flags o.fd o.flags }

def close (d : Descriptors) (fd : Fd) : Descriptors :=
  { d with kernel := d.kernel.close fd
           closed := fd :: d.closed }

/-- `fcntl(fd, F_GETFL)`; on a descriptor that is not open the result is -1. -/
def getFl (d : Descriptors) (fd : Fd) : StatusFlags :=
  if fd ∈ d.kernel.fds then d.flags fd else BitVec.allOnes 32

/-- `fcntl(fd, F_SETFL, flags)` stores the whole word; of it Linux ignores the access mode. -/
def setFl (d : Descriptors) (fd : Fd) (flags : StatusFlags) : Descriptors :=
  if fd ∈ d.kernel.fds then { d with flags := Function.update d.flags fd flags } else d

theorem getFl_of_open {d : Descriptors} {fd : Fd} (h : fd ∈ d.kernel.fds) :
    d.getFl fd = d.flags fd := if_pos h

@[simp] theorem setFl_kernel (d : Descriptors) (fd : Fd) (flags : StatusFlags) :
    (d.setFl fd flags).kernel = d.kernel := by
  unfold setFl
  split <;> rfl

theorem setFl_self {d : Descriptors} {fd : Fd} (flags : StatusFlags) (h : fd ∈ d.kernel.fds) :
    (d.setFl fd flags).flags fd = flags := by
  simp [setFl, h]

theorem setFl_other (d : Descriptors) {fd fd' : Fd} (flags : StatusFlags) (h : fd' ≠ fd) :
    (d.setFl fd flags).flags fd' = d.flags fd' := by
  unfold setFl
  split
  · exact Function.update_of_ne h _ _
  · rfl

end Descriptors

/-- `errif(failed, errmsg)` -/
def errif {σ : Type} (failed : Bool) (errmsg : String) : EStateM Fault σ Unit :=
  if failed then throw (.exit errmsg) else pure ()

namespace Socket

/-- `Socket()`; a failure of `socket(2)` is not looked at. -/
def create : Option NewDescriptor → OnDescriptors Socket
  | some o => do
    modify fun d => d.add o
    pure ⟨o.fd⟩
  | none => pure ⟨-1⟩

/-- `Socket(int)` -/
def ofFd (ufd : Fd) : Socket := ⟨ufd⟩

/-- `Socket(Socket &&)`: the new object, and what is left of the other. -/
def moveFrom (other : Socket) : Socket × Socket := (⟨other.fd⟩, ⟨-1⟩)

/-- `~Socket` -/
def destruct (s : Socket) : OnDescriptors Unit := do
  if 0 < s.fd then modify fun d => d.close s.fd else pure ()

def bind (s : Socket) (failed : Bool) : OnDescriptors Unit := do
  assert (0 < s.fd)
  errif failed "bind"

/-- `FIONREAD` stores an `int`, the low half of a `size_t` that was all ones. -/
def recvBufSize (s : Socket) (answer : Option Nat) : OnDescriptors Nat := do
  assert (0 < s.fd)
  match answer with
  | some n => pure (18446744069414584320 + n)
  | none => pure 18446744073709551615

def listen (s : Socket) (failed : Bool) : OnDescriptors Unit := do
  assert (0 < s.fd)
  errif failed "listen"

def accept (s : Socket) (answer : Option NewDescriptor) : OnDescriptors Fd := do
  assert (0 < s.fd)
  match answer with
  | some o => do
    modify fun d => d.add o
    pure o.fd
  | none => do
    -- `errif` looks at the result -1
    errif true "accept"
    pure (-1)

def getFd (s : Socket) : OnDescriptors Fd := do
  assert (0 < s.fd)
  pure s.fd

/-- What the two branches of `setBlocking` compute from the flags. -/
def blockingFlags (block : Bool) (flags : StatusFlags) : StatusFlags :=
  if block then flags &&& ~~~oNonblock else flags &&& oNonblock

def setBlocking (s : Socket) (block : Bool) : OnDescriptors Unit := do
  assert (0 < s.fd)
  modify fun d => d.setFl s.fd (blockingFlags block (d.getFl s.fd))

/-- `Socket(bool)` -/
def createBlocking (answer : Option NewDescriptor) (block : Bool) : OnDescriptors Socket := do
  let s ← create answer
  assert (0 < s.fd)
  s.setBlocking block
  pure s

end Socket

/-- The member functions, with what the system calls in them answer. -/
inductive SocketCall where
  | bind (failed : Bool)
  | listen (failed : Bool)
  | accept (answer : Option NewDescriptor)
  | getFd
  | setBlocking (block : Bool)
  | recvBufSize (answer : Option Nat)
  deriving DecidableEq, Repr

def SocketCall.exec (s : Socket) : SocketCall → OnDescriptors Unit
  | .bind failed => s.bind failed
  | .listen failed => s.listen failed
  | .accept answer => do let _ ← s.accept answer
  | .getFd => do let _ ← s.getFd
  | .setBlocking block => s.setBlocking block
  | .recvBufSize answer => do let _ ← s.recvBufSize answer

section Assertions
variable {d d' : Descriptors} {β : Type} {c failed : Bool} {errmsg : String}

theorem asserted (x : OnDescriptors β) (h : c = true) : (do assert c; x) d = x d := by
  rw [h]
  rfl

theorem asserted_fails (x : OnDescriptors β) (h : c = false) :
    (do assert c; x) d = .error .assertion d := by
  rw [h]
  rfl

/-- A call that came back passed its assertion. -/
theorem asserted_inv {x : OnDescriptors β} {b : β} (h : (do assert c; x) d = .ok b d') :
    c = true ∧ x d = .ok b d' := by
  cases c with
  | true => exact ⟨rfl, h⟩
  | false => cases h

theorem errif_inv {u : Unit} (h : errif failed errmsg d = .ok u d') : d = d' := by
  cases failed with
  | true => cases h
  | false =>
    cases h
    rfl

/-- No call of a member function fails its assertion, whatever the kernel answers. -/
def Socket.Passes (s : Socket) : Prop :=
  ∀ (c : SocketCall) (d : Descriptors), Ensures (· ≠ .assertion) (fun _ _ => True) (c.exec s) d

theorem errif_ensures : Ensures (· ≠ .assertion) (fun _ _ => True) (errif failed errmsg) d := by
  cases failed with
  | true => exact .of_error rfl (by simp)
  | false => exact .of_ok rfl trivial

theorem asserted_ensures {x : OnDescriptors β} (h : c = true)
    (hx : Ensures (· ≠ .assertion) (fun _ _ => True) x d) :
    Ensures (· ≠ .assertion) (fun _ _ => True) (do assert c; x) d :=
  .of_eq (asserted x h) hx

/-- The assertions are of one kind: the number is positive. -/
theorem Socket.passes_iff (s : Socket) : s.Passes ↔ 0 < s.fd := by
  constructor
  · intro h
    by_contra hneg
    have hc : decide (0 < s.fd) = false := by simpa using hneg
    have hfail : SocketCall.getFd.exec s .start = .error .assertion .start :=
      bind_of_error (asserted_fails _ hc)
    exact (h _ _).fault hfail rfl
  · intro hpos c d
    have hc : decide (0 < s.fd) = true := by simpa using hpos
    cases c with
    | bind failed => exact asserted_ensures hc errif_ensures
    | listen failed => exact asserted_ensures hc errif_ensures
    | accept answer =>
      refine .bind (asserted_ensures hc ?_) fun _ _ _ => .of_ok rfl trivial
      cases answer with
      | some o => exact .of_ok rfl trivial
      | none => exact .of_error rfl (by simp)
    | getFd => exact .bind (asserted_ensures hc (.of_ok rfl trivial)) fun _ _ _ => .of_ok rfl trivial
    | setBlocking block => exact asserted_ensures hc (.of_ok rfl trivial)
    | recvBufSize answer =>
      refine .bind (asserted_ensures hc ?_) fun _ _ _ => .of_ok rfl trivial
      cases answer with
      | some n => exact .of_ok rfl trivial
      | none => exact .of_ok rfl trivial

end Assertions
end Netier
