import Netier.Connection.World

/-! The member functions of `Context` and the event dispatch of its `IOContext`.
A handler takes the answers of `read(2)` and the body of the `onRecv` callback. -/
namespace Netier

/-- The storage of a `std::string`: `size()` characters and the one after them. -/
structure StdString (α : Type) where
  chars : List α
  terminator : α

/-- An open file: what `fread` stores, call by call, until it returns 0. -/
structure FileStream (α : Type) where
  pieces : List (Block α)

def FileStream.content {α : Type} (f : FileStream α) : List α := f.pieces.flatMap Block.bytes

/-- The answer that ends the read loop of one event. -/
inductive ReadEnd where
  | eof
  | failed (e : Errno)
  deriving DecidableEq, Repr

def ReadEnd.answer {α : Type} : ReadEnd → ReadAnswer α
  | .eof => .eof
  | .failed e => .failed e

/-- What `read(2)` answers to one readable event. -/
structure Burst (α : Type) where
  blocks : List (Block α)
  last : ReadEnd

def Burst.bytes {α : Type} (b : Burst α) : List α := b.blocks.flatMap Block.bytes

variable {α : Type} [Zero α]

/-- `~Context`: members go in reverse order of declaration, so the `IOContext` deregisters
before the `Socket` closes. -/
def destruct : Exec α Unit := do
  onIoContext IoContext.destruct
  modify fun w =>
    { w with kernel := if 0 < w.context.socket.fd then w.kernel.close w.context.socket.fd
                       else w.kernel
             freed := true
             inserted := false }

/-- `Server::contextDestroyer`: `erase` destroys the object if the map owns it. -/
def contextDestroyer : Exec α Unit := do
  log .destroyer
  if (← get).inserted then destruct else pure ()

def destroy : Exec α Unit := do
  requireNotMoved
  let _ ← getFd
  contextDestroyer

/-- `__stateCleanup` -/
def stateCleanup : Exec α Int := do
  let s ← readState
  if s = .closed ∨ s = .invalid then
    destroy
    pure (-1)
  else pure 0

/-- The loop of `flushWriteBuffer`; a pass that goes on shortens `__wbuffer`. -/
def flushLoop : Nat → Exec α Unit
  | 0 => throw .unbounded
  | fuel + 1 => do
    let c ← this
    if 0 < c.wbuffer.size then
      let bytesWritten ← sysWrite c.wbuffer.bytes
      if 0 < bytesWritten then
        onWbuffer fun b => b.moveReadCursor bytesWritten.toNat
        flushLoop fuel
      else
        let e ← errno
        if bytesWritten = -1 ∧ e.again then pure ()
        else if bytesWritten = 0 then setState .closed
        else setState .invalid
    else pure ()

def flushWriteBuffer : Exec α Unit := do
  requireNotMoved
  if (← readState) ≠ .valid then pure ()
  else
    let _ ← getFd
    flushLoop ((← this).wbuffer.size + 1)

def asyncWrite (buf : List α) : Exec α Unit := do
  requireNotMoved
  if (← readState) ≠ .valid then pure ()
  else
    onWbuffer fun b => some (b.put buf)
    flushWriteBuffer

/-- The loop of `syncWrite`: every pass asks for the first `remaining` bytes of
`buf`, and an answer to try again queues the last `remaining`. -/
def syncLoop (buf : List α) : Nat → Int → Exec α ER
  | 0, _ => throw .unbounded
  | fuel + 1, remaining =>
    if 0 < remaining then do
      let bytesWritten ← sysWrite (buf.take remaining.toNat)
      if 0 < bytesWritten then syncLoop buf fuel (remaining - bytesWritten)
      else
        let e ← errno
        if bytesWritten = -1 ∧ e.again then
          if 0 < remaining then
            asyncWrite ((buf.drop (buf.length - remaining.toNat)).take remaining.toNat)
            pure .success
          else pure .success
        else if bytesWritten = 0 then
          setState .closed
          pure .socketError
        else
          setState .invalid
          pure .socketError
    else pure .success

/-- `syncWrite(buf, size)` with `size` the length of `buf`; `remaining` is an `int`. -/
def syncWrite (buf : List α) : Exec α ER := do
  requireNotMoved
  if (← readState) ≠ .valid then pure .socketError
  else
    let _ ← getFd
    syncLoop buf ((toInt buf.length).toNat + 1) (toInt buf.length)

/-- `write(const std::string &)` -/
def writeString (data : StdString α) : Exec α ER := do
  requireNotMoved
  if (← readState) ≠ .valid then pure .socketError
  else syncWrite (data.chars ++ [data.terminator])

/-- `write(const std::vector<char> &)` -/
def writeVector (data : List α) : Exec α ER := do
  requireNotMoved
  if (← readState) ≠ .valid then pure .socketError
  else syncWrite data

/-- `write(std::string &&)` with so many stack frames left: the moved argument
selects the same overload again. -/
def writeStringMove : Nat → StdString α → Exec α ER
  | 0, _ => throw .stackOverflow
  | depth + 1, data => do
    requireNotMoved
    if (← readState) ≠ .valid then pure .socketError
    else writeStringMove depth data

/-- `write(std::vector<char> &&)` -/
def writeVectorMove : Nat → List α → Exec α ER
  | 0, _ => throw .stackOverflow
  | depth + 1, data => do
    requireNotMoved
    if (← readState) ≠ .valid then pure .socketError
    else writeVectorMove depth data

/-- One `fread` into a window of `__wbuffer`. -/
def freadOnce (piece : List α) : Exec α Unit := do
  match (← this).wbuffer.getWriter readBufSize with
  | none => throw .assertion
  | some (writer, b) =>
    assign fun c => { c with wbuffer := b }
    onWbuffer fun b => some (b.store writer piece)
    if piece.length < readBufSize then
      onWbuffer fun b => b.shrink (readBufSize - piece.length)
    else pure ()

def freadLoop : List (Block α) → Exec α Unit
  | [] => freadOnce []
  | p :: ps => do
    freadOnce p.bytes
    freadLoop ps

/-- `writeFile(filePath)`; `file` is what `fopen` finds. The stream is not closed. -/
def writeFile (file : Option (FileStream α)) : Exec α ER := do
  requireNotMoved
  if (← readState) ≠ .valid then pure .socketError
  else match file with
    | some f => do
      modify fun w => w.fopen
      freadLoop f.pieces
      flushWriteBuffer
      pure .success
    | none => pure .fileError

/-- `writeFile(filePath, size)` -/
def writeFileSized (filePathSize size : Nat) : Exec α ER := do
  requireNotMoved
  if (← readState) ≠ .valid then pure .socketError
  else if filePathSize = size then pure .unimplemented
  else pure .unimplemented

def read : Exec α (List α) := do
  requireNotMoved
  let c ← this
  modify fun w => w.take
  pure c.buffer.get.1

def readString : Exec α (List α) := do
  requireNotMoved
  if (← readState) ≠ .valid then pure []
  else
    let c ← this
    modify fun w => w.take
    pure c.buffer.bytes

def getState : Exec α State := do
  requireNotMoved
  readState

def setOnRecv (installed : Bool) : Exec α Unit := do
  requireNotMoved
  assign fun c => { c with onRecv := installed }

/-- What a pass of the read loop does with the result of `read(2)`; the result says
whether the loop goes on. -/
def readOutcome (bytesRead : Int) : Exec α Bool := do
  if 0 < bytesRead then
    if bytesRead < toInt readBufSize then
      onBuffer fun b => b.shrink (readBufSize - bytesRead.toNat)
      pure true
    else pure true
  else
    let e ← errno
    if bytesRead = -1 ∧ e.again then
      onBuffer fun b => b.shrink readBufSize
      pure false
    else if bytesRead = 0 then
      onBuffer fun b => b.shrink readBufSize
      setState .closed
      pure false
    else
      onBuffer fun b => b.shrink readBufSize
      setState .invalid
      pure false

/-- One pass of the read loop. -/
def readPass (answer : ReadAnswer α) : Exec α Bool := do
  match (← this).buffer.getWriter readBufSize with
  | none => throw .assertion
  | some (writer, b) =>
    assign fun c => { c with buffer := b }
    let bytesRead ← sysRead writer answer
    readOutcome bytesRead

def readLoop : List (Block α) → ReadEnd → Exec α Unit
  | [], last => do
    let _ ← readPass last.answer
    pure ()
  | b :: bs, last => do
    if (← readPass (.block b)) then readLoop bs last else pure ()

/-- `if (__onRecv) __onRecv(this)` -/
def runOnRecv (callback : Exec α Unit) : Exec α Unit := do
  if (← this).onRecv then
    modify fun w => w.invoke
    callback
  else pure ()

def handleReadableBody (burst : Burst α) (callback : Exec α Unit) : Exec α Int := do
  requireNotMoved
  let ret ← stateCleanup
  if ret < 0 then pure ret
  else
    let _ ← getFd
    readLoop burst.blocks burst.last
    let ret ← stateCleanup
    if ret < 0 then pure ret
    else
      runOnRecv callback
      stateCleanup

def handleWritableBody : Exec α Int := do
  requireNotMoved
  let ret ← stateCleanup
  if ret < 0 then pure ret
  else
    flushWriteBuffer
    stateCleanup

/-- A handler with its entry and its return put on record. -/
def recorded (h : Handler) (body : Exec α Int) : Exec α Int := do
  log (.entered h)
  let ret ← body
  log (.returned h ret)
  pure ret

def handleReadableEvent (burst : Burst α) (callback : Exec α Unit) : Exec α Int :=
  recorded .readable (handleReadableBody burst callback)

def handleWritableEvent : Exec α Int := recorded .writable handleWritableBody

/-- A bound callback of the `IOContext`; an empty one counts as 0. -/
def dispatch (cb : Option Callback) (burst : Burst α) (callback : Exec α Unit) : Exec α Int :=
  match cb with
  | some .handleReadableEvent => handleReadableEvent burst callback
  | some .handleWritableEvent => handleWritableEvent
  | none => pure 0

/-- `IOContext::handleReadable` -/
def handleReadable (burst : Burst α) (callback : Exec α Unit) : Exec α Int := do
  let c ← this
  assert c.ioContext.reactor.isSome
  dispatch c.ioContext.readableCb burst callback

/-- `IOContext::handleWritable` -/
def handleWritable (burst : Burst α) (callback : Exec α Unit) : Exec α Int := do
  let c ← this
  assert c.ioContext.reactor.isSome
  dispatch c.ioContext.writableCb burst callback

/-- `IOContext::isReadable` -/
def isReadable : Exec α Bool := do
  let c ← this
  pure (c.ioContext.reactor.isSome && (c.ioContext.revents &&& epollin) != 0)

/-- `IOContext::isWritable` -/
def isWritable : Exec α Bool := do
  let c ← this
  assert c.ioContext.reactor.isSome
  pure ((c.ioContext.revents &&& epollout) != 0)

/-- The second half of `handleGeneral` -/
def handleWritePart (burst : Burst α) (callback : Exec α Unit) : Exec α Unit := do
  if (← isWritable) then
    let _ ← handleWritable burst callback
    pure ()
  else pure ()

/-- `IOContext::handleGeneral` -/
def handleGeneral (burst : Burst α) (callback : Exec α Unit) : Exec α Unit := do
  if (← isReadable) then
    let ret ← handleReadable burst callback
    if ret < 0 then pure () else handleWritePart burst callback
  else handleWritePart burst callback

/-- One entry of a pass of `Reactor::loop`: `Epoll::poll` stores the mask of the event
in the `IOContext`, then its handlers run. -/
def loopEntry (mask : Mask) (burst : Burst α) (callback : Exec α Unit) : Exec α Unit := do
  onIoContext (IoContext.setRevents mask)
  handleGeneral burst callback

/-- The output calls. -/
inductive Output (α : Type) where
  | syncWrite (buf : List α)
  | writeString (data : StdString α)
  | writeVector (data : List α)
  | asyncWrite (buf : List α)
  | writeFile (file : Option (FileStream α))
  | flushWriteBuffer

def Output.exec : Output α → Exec α Unit
  | .syncWrite buf => do let _ ← Netier.syncWrite buf
  | .writeString data => do let _ ← Netier.writeString data
  | .writeVector data => do let _ ← Netier.writeVector data
  | .asyncWrite buf => Netier.asyncWrite buf
  | .writeFile file => do let _ ← Netier.writeFile file
  | .flushWriteBuffer => Netier.flushWriteBuffer

/-- The calls an application makes on its context; the event handlers are not among them. -/
inductive Call (α : Type) where
  | read
  | readString
  | getState
  | output (o : Output α)
  | writeStringMove (depth : Nat) (data : StdString α)
  | writeVectorMove (depth : Nat) (data : List α)
  | writeFileSized (filePathSize size : Nat)
  | setOnRecv (installed : Bool)
  | destroy

def Call.exec : Call α → Exec α Unit
  | .read => do let _ ← Netier.read
  | .readString => do let _ ← Netier.readString
  | .getState => do let _ ← Netier.getState
  | .output o => o.exec
  | .writeStringMove depth data => do let _ ← Netier.writeStringMove depth data
  | .writeVectorMove depth data => do let _ ← Netier.writeVectorMove depth data
  | .writeFileSized p s => do let _ ← Netier.writeFileSized p s
  | .setOnRecv installed => Netier.setOnRecv installed
  | .destroy => Netier.destroy

/-- A callback body: the calls it makes, in order. -/
def runCalls : List (Call α) → Exec α Unit
  | [] => pure ()
  | c :: cs => do
    c.exec
    runCalls cs

/-- The public member functions, with the event handlers among them. -/
inductive PublicCall (α : Type) where
  | call (c : Call α)
  | handleReadableEvent (burst : Burst α) (callback : List (Call α))
  | handleWritableEvent

def PublicCall.exec : PublicCall α → Exec α Unit
  | .call c => c.exec
  | .handleReadableEvent burst callback => do
    let _ ← Netier.handleReadableEvent burst (runCalls callback)
  | .handleWritableEvent => do
    let _ ← Netier.handleWritableEvent

end Netier
