import Netier.Connection.Buffer
import Netier.Connection.IoContext
import Netier.Lib.Outcome

/-! One `Context`, the kernel's side of its socket, and the primitive steps a thread
takes on them. Every step is recorded, with the members as the step leaves them. -/
namespace Netier

/-- `Context::State` -/
inductive State where
  | invalid
  | valid
  | closed
  | moved
  deriving DecidableEq, Repr

inductive ER where
  | undefined
  | success
  | socketError
  | pollerError
  | connectionError
  | acceptorError
  | unimplemented
  | fileError
  deriving DecidableEq, Repr

def readBufSize : Nat := 1024

structure Socket where
  fd : Fd
  deriving DecidableEq, Repr

/-- What `read(2)` or `fread` stores when it stores anything. -/
structure Block (α : Type) where
  bytes : List α
  nonempty : bytes ≠ []
  length_le : bytes.length ≤ readBufSize

inductive ReadAnswer (α : Type) where
  | block (b : Block α)
  | eof
  | failed (e : Errno)

/-- The socket has room for so many bytes, and takes as many of those requested;
no room is the result 0. -/
inductive WriteAnswer where
  | room (n : Nat)
  | failed (e : Errno)
  deriving DecidableEq, Repr

/-- The kernel's side of a socket: the answers `write(2)` will give, the bytes it
has accepted and the bytes `read(2)` has returned. -/
structure Wire (α : Type) where
  answers : Nat → WriteAnswer
  errno : Errno
  accepted : List α
  delivered : List α

/-- Members of `Context`; `state` is `none` until the constructor assigns it, and
`onRecv` says whether a callback is installed. -/
structure Context (α : Type) where
  socket : Socket
  ioContext : IoContext
  buffer : Buffer α
  wbuffer : Buffer α
  onRecv : Bool
  state : Option State

inductive Handler where
  | readable
  | writable
  deriving DecidableEq, Repr

/-- `seen` is what the application has taken so far followed by `__buffer`. -/
inductive Event (α : Type) where
  | assign
  | read (answer : ReadAnswer α)
  | write (requested : Nat) (answer : WriteAnswer)
  | onRecv (seen : List α)
  | entered (h : Handler)
  | returned (h : Handler) (ret : Int)
  | destroyer

structure Moment (α : Type) where
  event : Event α
  context : Context α

/-- `taken` is what `read()` and `readString()` have returned, `inserted` whether
`__contextes` owns the object, `history` the steps so far with the newest first. -/
structure Conn (α : Type) where
  context : Context α
  wire : Wire α
  taken : List α
  freed : Bool
  inserted : Bool
  history : List (Moment α)

structure World (α : Type) extends Conn α where
  kernel : Kernel

abbrev Exec (α : Type) := EStateM Fault (World α)

namespace World
variable {α : Type}

def log (w : World α) (e : Event α) : World α :=
  { w with history := ⟨e, w.context⟩ :: w.history }

def assign (w : World α) (c : Context α) : World α := { w with context := c }.log .assign

@[simp] theorem log_context (w : World α) (e : Event α) : (w.log e).context = w.context := rfl
@[simp] theorem log_wire (w : World α) (e : Event α) : (w.log e).wire = w.wire := rfl
@[simp] theorem log_taken (w : World α) (e : Event α) : (w.log e).taken = w.taken := rfl
@[simp] theorem log_freed (w : World α) (e : Event α) : (w.log e).freed = w.freed := rfl
@[simp] theorem log_inserted (w : World α) (e : Event α) : (w.log e).inserted = w.inserted := rfl
@[simp] theorem log_kernel (w : World α) (e : Event α) : (w.log e).kernel = w.kernel := rfl

@[simp] theorem assign_context (w : World α) (c : Context α) : (w.assign c).context = c := rfl
@[simp] theorem assign_wire (w : World α) (c : Context α) : (w.assign c).wire = w.wire := rfl
@[simp] theorem assign_taken (w : World α) (c : Context α) : (w.assign c).taken = w.taken := rfl
@[simp] theorem assign_freed (w : World α) (c : Context α) : (w.assign c).freed = w.freed := rfl
@[simp] theorem assign_inserted (w : World α) (c : Context α) : (w.assign c).inserted = w.inserted := rfl
@[simp] theorem assign_kernel (w : World α) (c : Context α) : (w.assign c).kernel = w.kernel := rfl

/-- `write(2)` of `buf`; the result is converted to `int` by the assignment. -/
def sysWrite (w : World α) (buf : List α) : Int × World α :=
  match w.wire.answers 0 with
  | .room n =>
    (toInt (min n buf.length : Nat),
      { w with wire := { w.wire with answers := fun i => w.wire.answers (i + 1)
                                     accepted := w.wire.accepted ++ buf.take n } }.log
        (.write buf.length (.room n)))
  | .failed e =>
    (-1, { w with wire := { w.wire with answers := fun i => w.wire.answers (i + 1)
                                        errno := e } }.log (.write buf.length (.failed e)))

/-- `read(2)` into the window of `__buffer` at `writer`. -/
def sysRead (w : World α) (writer : Nat) : ReadAnswer α → Int × World α
  | .block b =>
    (toInt b.bytes.length,
      { w with wire := { w.wire with delivered := w.wire.delivered ++ b.bytes }
               context := { w.context with buffer := w.context.buffer.store writer b.bytes } }.log
        (.read (.block b)))
  | .eof => (0, w.log (.read .eof))
  | .failed e => (-1, { w with wire := { w.wire with errno := e } }.log (.read (.failed e)))

/-- `read()` and `readString()` hand the whole of `__buffer` to the application. -/
def take (w : World α) : World α :=
  { w with taken := w.taken ++ w.context.buffer.bytes }.assign
    { w.context with buffer := w.context.buffer.clear }

def invoke (w : World α) : World α := w.log (.onRecv (w.taken ++ w.context.buffer.bytes))

def fopen (w : World α) : World α :=
  { w with kernel := { w.kernel with files := w.kernel.files + 1 } }

end World

variable {α : Type}

/-- Any access to a member goes through the object. -/
def this : Exec α (Context α) := do
  let w ← get
  if w.freed then throw .useAfterFree else pure w.context

def assign (f : Context α → Context α) : Exec α Unit := do
  let c ← this
  modify fun w => w.assign (f c)

def log (e : Event α) : Exec α Unit := modify fun w => w.log e

def readState : Exec α State := do
  match (← this).state with
  | some s => pure s
  | none => throw .uninitialised

def setState (s : State) : Exec α Unit := assign fun c => { c with state := some s }

/-- `assert(__state != MOVED)` -/
def requireNotMoved : Exec α Unit := do assert ((← readState) ≠ .moved)

def getFd : Exec α Fd := do
  let c ← this
  assert (0 < c.socket.fd)
  pure c.socket.fd

def errno : Exec α Errno := do pure (← get).wire.errno

def sysWrite (buf : List α) : Exec α Int := fun w => .ok (w.sysWrite buf).1 (w.sysWrite buf).2

def sysRead (writer : Nat) (answer : ReadAnswer α) : Exec α Int :=
  fun w => .ok (w.sysRead writer answer).1 (w.sysRead writer answer).2

/-- A `Buffer` call on `__buffer`, with its failed assertion. -/
def onBuffer (f : Buffer α → Option (Buffer α)) : Exec α Unit := do
  match f (← this).buffer with
  | some b => assign fun c => { c with buffer := b }
  | none => throw .assertion

def onWbuffer (f : Buffer α → Option (Buffer α)) : Exec α Unit := do
  match f (← this).wbuffer with
  | some b => assign fun c => { c with wbuffer := b }
  | none => throw .assertion

/-- A call on `__ioContext`, which may change the kernel's tables. -/
def onIoContext (x : Register Unit) : Exec α Unit := do
  let c ← this
  let w ← get
  match x ⟨w.kernel, c.ioContext⟩ with
  | .ok _ r => set ({ w with kernel := r.kernel }.assign { c with ioContext := r.ioContext })
  | .error e _ => throw e

end Netier
