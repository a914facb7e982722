import Netier.Kernel

/-! `IOContext` with the `Epoll` and `Reactor` calls it makes: the registration of
one descriptor and the callbacks its events are dispatched to. -/
namespace Netier

/-- The member functions a `Context` binds as callbacks of its `IOContext`. -/
inductive Callback where
  | handleReadableEvent
  | handleWritableEvent
  deriving DecidableEq, Repr

/-- `address` is where the object lives; `reactor` is `none` for a null pointer. -/
structure IoContext where
  address : Nat
  reactor : Option Nat
  fd : Fd
  events : Mask
  revents : Mask
  writableCb : Option Callback
  readableCb : Option Callback
  registered : Bool
  deriving DecidableEq, Repr

/-- One `IOContext` and the kernel it registers with. -/
structure Registration where
  kernel : Kernel
  ioContext : IoContext

abbrev Register := EStateM Fault Registration

namespace IoContext

def create (address : Nat) (reactor : Nat) (fd : Fd) : IoContext :=
  ⟨address, some reactor, fd, 0, 0, none, none, false⟩

/-- `assert(__reactor)`, and the reactor it found. -/
def requireReactor : Register Nat := do
  match (← get).ioContext.reactor with
  | some r => pure r
  | none => throw .assertion

/-- The `epoll_ctl` call of `Epoll::add`, `Epoll::modify` and `Epoll::del`; where it fails
`errif` ends the process. -/
def control (op : EpollOp) (errmsg : String) : Register Unit := do
  let ep ← requireReactor
  let s ← get
  match s.kernel.epollCtl ep op s.ioContext.fd ⟨s.ioContext.events, s.ioContext.address⟩ with
  | some k => set { s with kernel := k }
  | none => throw (.exit errmsg)

def setRegister : Register Unit := do
  let _ ← requireReactor
  modify fun s => { s with ioContext := { s.ioContext with registered := true } }

/-- `Epoll::addIOContext`, through `Reactor::addIOContext` -/
def addIOContext : Register Unit := do
  if (← get).ioContext.registered then
    control .mod "Epoll::modify"
  else
    control .add "Epoll::add"
    setRegister

/-- `Epoll::delIOContext`, through `Reactor::delIOContext` -/
def delIOContext : Register Unit := control .del "Epoll::del"

def setEvents (ev : Mask) : Register Unit := do
  let _ ← requireReactor
  modify fun s => { s with ioContext := { s.ioContext with events := ev } }
  addIOContext

def getEvents : Register Mask := do
  let _ ← requireReactor
  pure (← get).ioContext.events

def enableRead : Register Unit := do setEvents ((← getEvents) ||| epollin)
def disableRead : Register Unit := do setEvents ((← getEvents) &&& ~~~epollin)
def enableWrite : Register Unit := do setEvents ((← getEvents) ||| epollout)
def disableWrite : Register Unit := do setEvents ((← getEvents) &&& ~~~epollout)
def setET : Register Unit := do setEvents ((← getEvents) ||| epollet)
def setLT : Register Unit := do setEvents ((← getEvents) &&& ~~~epollet)

def setRevents (ret : Mask) : Register Unit := do
  let _ ← requireReactor
  modify fun s => { s with ioContext := { s.ioContext with revents := ret } }

def setReadCallback (cb : Callback) : Register Unit := do
  let _ ← requireReactor
  modify fun s => { s with ioContext := { s.ioContext with readableCb := some cb } }

def setWriteCallback (cb : Callback) : Register Unit := do
  let _ ← requireReactor
  modify fun s => { s with ioContext := { s.ioContext with writableCb := some cb } }

/-- `~IOContext`: a moved-from object has no reactor and deregisters nothing. -/
def destruct : Register Unit := do
  if (← get).ioContext.reactor.isSome then delIOContext else pure ()

end IoContext
end Netier
