import Netier.Connection.Handlers
import Netier.Lib.Relational
import Netier.Server.Creation

/-! What a connection does depends on the kernel's tables only through the entries of its
own descriptor. -/
namespace Netier
open Lib

/-- The tables agree about one descriptor. -/
structure Kernel.SameAt (fd : Fd) (k k' : Kernel) : Prop where
  opened : fd ∈ k.fds ↔ fd ∈ k'.fds
  interest : ∀ ep, k.interest ep fd = k'.interest ep fd

structure Registration.SameAt (fd : Fd) (s t : Registration) : Prop where
  ioContext : s.ioContext = t.ioContext
  descriptor : s.ioContext.fd = fd
  kernel : Kernel.SameAt fd s.kernel t.kernel

/-- The same connection, over tables that agree about its descriptor. -/
structure World.SameAt {α : Type} (fd : Fd) (w w' : World α) : Prop where
  conn : w.toConn = w'.toConn
  socket : w.context.socket.fd = fd
  ioContext : w.context.ioContext.fd = fd
  kernel : Kernel.SameAt fd w.kernel w'.kernel

section Kernel
variable {fd : Fd} {k k' : Kernel}

theorem Kernel.SameAt.setInterest (h : Kernel.SameAt fd k k') (ep : Nat) (ev : Option EpollEvent) :
    Kernel.SameAt fd (k.setInterest ep fd ev) (k'.setInterest ep fd ev) where
  opened := h.opened
  interest := fun ep' => by
    by_cases he : ep' = ep
    · subst he
      simp
    · rw [Kernel.setInterest_other _ _ fun hc => he hc.1, Kernel.setInterest_other _ _ fun hc => he hc.1]
      exact h.interest ep'

theorem Kernel.SameAt.close (k k' : Kernel) (fd : Fd) :
    Kernel.SameAt fd (k.close fd) (k'.close fd) where
  opened := by simp [Kernel.close]
  interest := fun ep => by simp [Kernel.close]

/-- The kernel answers alike about the descriptor. -/
theorem Kernel.SameAt.epollCtl (h : Kernel.SameAt fd k k') (ep : Nat) (op : EpollOp) (ev : EpollEvent) :
    k.epollCtl ep op fd ev = none ∧ k'.epollCtl ep op fd ev = none ∨
      ∃ l l', k.epollCtl ep op fd ev = some l ∧ k'.epollCtl ep op fd ev = some l' ∧
        Kernel.SameAt fd l l' := by
  by_cases hopen : fd ∈ k.fds
  · have hopen' := h.opened.1 hopen
    have hi' := h.interest ep
    cases hi : k.interest ep fd with
    | none =>
      rw [hi] at hi'
      cases op with
      | add =>
        cases hset : Kernel.settable none ev.events with
        | false => exact .inl ⟨by simp [Kernel.epollCtl, hi, hset], by simp [Kernel.epollCtl, ← hi', hset]⟩
        | true =>
          exact .inr ⟨k.setInterest ep fd (some ev), k'.setInterest ep fd (some ev),
            by simp [Kernel.epollCtl, hopen, hi, hset], by simp [Kernel.epollCtl, hopen', ← hi', hset],
            h.setInterest ep _⟩
      | mod | del => exact .inl ⟨by simp [Kernel.epollCtl, hi], by simp [Kernel.epollCtl, ← hi']⟩
    | some e =>
      rw [hi] at hi'
      cases op with
      | add => exact .inl ⟨by simp [Kernel.epollCtl, hi], by simp [Kernel.epollCtl, ← hi']⟩
      | mod =>
        cases hset : Kernel.settable (some e) ev.events with
        | false => exact .inl ⟨by simp [Kernel.epollCtl, hi, hset], by simp [Kernel.epollCtl, ← hi', hset]⟩
        | true =>
          exact .inr ⟨k.setInterest ep fd (some ev), k'.setInterest ep fd (some ev),
            by simp [Kernel.epollCtl, hopen, hi, hset], by simp [Kernel.epollCtl, hopen', ← hi', hset],
            h.setInterest ep _⟩
      | del =>
        exact .inr ⟨k.setInterest ep fd none, k'.setInterest ep fd none,
          by simp [Kernel.epollCtl, hopen, hi], by simp [Kernel.epollCtl, hopen', ← hi'], h.setInterest ep _⟩
  · have hopen' : fd ∉ k'.fds := fun hm => hopen (h.opened.2 hm)
    exact .inl ⟨by simp [Kernel.epollCtl, hopen], by simp [Kernel.epollCtl, hopen']⟩

end Kernel

section Register
variable {fd : Fd}

theorem requireReactor_local : Respects (Registration.SameAt fd) IoContext.requireReactor := by
  intro s t h
  rw [IoContext.requireReactor, bind_of_ok (get_run s), bind_of_ok (get_run t), ← h.ioContext]
  cases s.ioContext.reactor with
  | some r => exact .ok h
  | none => exact .error

theorem control_local (op : EpollOp) (errmsg : String) :
    Respects (Registration.SameAt fd) (IoContext.control op errmsg) := by
  refine requireReactor_local.bind fun ep s t h => ?_
  have hctl := h.kernel.epollCtl ep op ⟨s.ioContext.events, s.ioContext.address⟩
  rw [bind_of_ok (get_run s), bind_of_ok (get_run t), ← h.ioContext, h.descriptor]
  rcases hctl with ⟨hk, hk'⟩ | ⟨l, l', hk, hk', hsame⟩
  · rw [hk, hk']
    exact .error
  · rw [hk, hk']
    exact .ok ⟨rfl, h.descriptor, hsame⟩

/-- An assignment to members of the object. -/
theorem member_local (f : IoContext → IoContext) (hf : ∀ c, (f c).fd = c.fd) :
    Respects (Registration.SameAt fd)
      (modify fun s => { s with ioContext := f s.ioContext } : Register Unit) :=
  .modify fun s _ h =>
    ⟨congrArg f h.ioContext, (hf s.ioContext).trans h.descriptor, h.kernel⟩

theorem checked_local (f : IoContext → IoContext) (hf : ∀ c, (f c).fd = c.fd) :
    Respects (Registration.SameAt fd) (do
      let _ ← IoContext.requireReactor
      modify fun s => { s with ioContext := f s.ioContext } : Register Unit) :=
  requireReactor_local.bind fun _ => member_local f hf

theorem addIOContext_local : Respects (Registration.SameAt fd) IoContext.addIOContext := by
  intro s t h
  rw [IoContext.addIOContext, bind_of_ok (get_run s), bind_of_ok (get_run t), ← h.ioContext]
  cases s.ioContext.registered with
  | true => exact control_local _ _ s t h
  | false =>
    exact (control_local _ _).bind (fun _ => checked_local (fun c => { c with registered := true })
      fun _ => rfl) s t h

theorem setEvents_local (ev : Mask) : Respects (Registration.SameAt fd) (IoContext.setEvents ev) :=
  requireReactor_local.bind fun _ =>
    (member_local (fun c => { c with events := ev }) fun _ => rfl).bind fun _ => addIOContext_local

theorem getEvents_local : Respects (Registration.SameAt fd) IoContext.getEvents := by
  refine requireReactor_local.bind fun _ s t h => ?_
  rw [bind_of_ok (get_run s), bind_of_ok (get_run t), ← h.ioContext]
  exact .ok h

/-- The setters read the mask and pass another one on. -/
theorem setter_local (f : Mask → Mask) :
    Respects (Registration.SameAt fd) (do IoContext.setEvents (f (← IoContext.getEvents))) :=
  getEvents_local.bind fun _ => setEvents_local _

theorem ioContext_destruct_local : Respects (Registration.SameAt fd) IoContext.destruct := by
  intro s t h
  rw [IoContext.destruct, bind_of_ok (get_run s), bind_of_ok (get_run t), ← h.ioContext]
  cases s.ioContext.reactor with
  | some r => exact control_local _ _ s t h
  | none => exact .ok h

end Register

section Exec
variable {α : Type} {fd : Fd} {β : Type}

/-- It is enough to look at one connection over two tables. -/
theorem respects_of {x : Exec α β}
    (hx : ∀ c k k', World.SameAt fd ⟨c, k⟩ ⟨c, k'⟩ → Alike (World.SameAt fd) (x ⟨c, k⟩) (x ⟨c, k'⟩)) :
    Respects (World.SameAt fd) x := by
  rintro ⟨c, k⟩ ⟨c', k'⟩ h
  obtain rfl : c = c' := h.conn
  exact hx c k k' h

/-- The rest of a program after an access to a member. -/
theorem this_bind_local {f : Context α → Exec α β}
    (hf : ∀ c k k', World.SameAt fd ⟨c, k⟩ ⟨c, k'⟩ →
      Alike (World.SameAt fd) (f c.context ⟨c, k⟩) (f c.context ⟨c, k'⟩)) :
    Respects (World.SameAt fd) (this >>= f) := by
  refine respects_of fun c k k' h => ?_
  cases hfreed : c.freed with
  | true =>
    have hfail : ∀ l, (this >>= f) (⟨c, l⟩ : World α) = .error .useAfterFree ⟨c, l⟩ :=
      fun l => bind_of_error (by simp [this, bind_run, hfreed])
    rw [hfail, hfail]
    exact .error
  | false =>
    rw [bind_of_ok (this_run (w := ⟨c, k⟩) hfreed), bind_of_ok (this_run (w := ⟨c, k'⟩) hfreed)]
    exact hf c k k' h

theorem this_local : Respects (World.SameAt fd) (this : Exec α (Context α)) := by
  simpa using this_bind_local (α := α) (f := pure) fun _ _ _ h => .ok h

theorem assign_local {f : Context α → Context α} (hsocket : ∀ c, (f c).socket = c.socket)
    (hioc : ∀ c, (f c).ioContext = c.ioContext) : Respects (World.SameAt fd) (assign f) :=
  this_bind_local fun c _ _ h =>
    .ok ⟨rfl, (congrArg Socket.fd (hsocket c.context)).trans h.socket,
      (congrArg IoContext.fd (hioc c.context)).trans h.ioContext, h.kernel⟩

theorem log_local (e : Event α) : Respects (World.SameAt fd) (log e) :=
  respects_of fun _ _ _ h => .ok ⟨rfl, h.socket, h.ioContext, h.kernel⟩

theorem assert_local (c : Bool) : Respects (World.SameAt (α := α) fd) (assert c) := by
  cases c with
  | true => exact .pure _
  | false => exact .throw _

theorem readState_local : Respects (World.SameAt fd) (readState : Exec α State) := by
  refine this_local.bind fun c => ?_
  cases c.state with
  | some s => exact .pure s
  | none => exact .throw _

theorem setState_local (s : State) : Respects (World.SameAt (α := α) fd) (setState s) :=
  assign_local (fun _ => rfl) fun _ => rfl

theorem requireNotMoved_local : Respects (World.SameAt fd) (requireNotMoved : Exec α Unit) :=
  readState_local.bind fun _ => assert_local _

theorem getFd_local : Respects (World.SameAt fd) (getFd : Exec α Fd) :=
  this_local.bind fun _ => (assert_local _).bind fun _ => .pure _

theorem errno_local : Respects (World.SameAt fd) (errno : Exec α Errno) :=
  respects_of fun _ _ _ h => .ok h

theorem sysWrite_local (buf : List α) : Respects (World.SameAt fd) (sysWrite buf) := by
  refine respects_of fun c k k' h => ?_
  rw [sysWrite_run, sysWrite_run, World.sysWrite, World.sysWrite]
  cases c.wire.answers 0 <;> exact .ok ⟨rfl, h.socket, h.ioContext, h.kernel⟩

theorem sysRead_local (writer : Nat) (answer : ReadAnswer α) :
    Respects (World.SameAt fd) (sysRead writer answer) :=
  respects_of fun _ _ _ h => by
    cases answer <;> exact .ok ⟨rfl, h.socket, h.ioContext, h.kernel⟩

theorem onBuffer_local (f : Buffer α → Option (Buffer α)) :
    Respects (World.SameAt fd) (onBuffer f) := by
  refine this_local.bind fun c => ?_
  cases f c.buffer with
  | some b => exact assign_local (fun _ => rfl) fun _ => rfl
  | none => exact .throw _

theorem onWbuffer_local (f : Buffer α → Option (Buffer α)) :
    Respects (World.SameAt fd) (onWbuffer f) := by
  refine this_local.bind fun c => ?_
  cases f c.wbuffer with
  | some b => exact assign_local (fun _ => rfl) fun _ => rfl
  | none => exact .throw _

/-- A call on the `IOContext` is local if it is so for the object and the kernel alone. -/
theorem onIoContext_local {x : Register Unit} (hx : Respects (Registration.SameAt fd) x) :
    Respects (World.SameAt (α := α) fd) (onIoContext x) := by
  refine this_bind_local fun c k k' h => ?_
  have hreg : Registration.SameAt fd ⟨k, c.context.ioContext⟩ ⟨k', c.context.ioContext⟩ :=
    ⟨rfl, h.ioContext, h.kernel⟩
  have halike := hx _ _ hreg
  rw [bind_of_ok (get_run _), bind_of_ok (get_run _)]
  cases hrun : x ⟨k, c.context.ioContext⟩ with
  | ok u r =>
    rw [hrun] at halike
    obtain ⟨r', hrun', hsame⟩ := halike.ok_inv
    simp only [hrun']
    refine .ok ⟨?_, h.socket, hsame.descriptor, hsame.kernel⟩
    simp only [World.assign, World.log, hsame.ioContext]
  | error e r =>
    rw [hrun] at halike
    obtain ⟨r', hrun'⟩ := halike.error_inv
    simp only [hrun']
    exact .error

end Exec

section Calls
variable {α : Type} {fd : Fd} {β : Type}

/-- What the member functions begin with. -/
theorem guarded_local {b : β} {x : Exec α β} (hx : Respects (World.SameAt fd) x) :
    Respects (World.SameAt fd) (do
      requireNotMoved
      if (← readState) ≠ .valid then pure b else x) :=
  requireNotMoved_local.bind fun _ => readState_local.bind fun _ => .ite (fun _ => .pure _) fun _ => hx

theorem flushLoop_local (fuel : Nat) : Respects (World.SameAt fd) (flushLoop fuel : Exec α Unit) := by
  induction fuel with
  | zero => exact .throw _
  | succ fuel ih =>
    refine this_local.bind fun c => .ite (fun _ => ?_) fun _ => .pure _
    refine (sysWrite_local _).bind fun n => .ite (fun _ => ?_) fun _ => ?_
    · exact (onWbuffer_local _).bind fun _ => ih
    · exact errno_local.bind fun _ => .ite (fun _ => .pure _) fun _ =>
        .ite (fun _ => setState_local _) fun _ => setState_local _

theorem flushWriteBuffer_local : Respects (World.SameAt fd) (flushWriteBuffer : Exec α Unit) :=
  guarded_local (getFd_local.bind fun _ => this_local.bind fun _ => flushLoop_local _)

theorem asyncWrite_local (buf : List α) : Respects (World.SameAt fd) (asyncWrite buf) :=
  guarded_local ((onWbuffer_local _).bind fun _ => flushWriteBuffer_local)

theorem syncLoop_local (buf : List α) (fuel : Nat) (remaining : Int) :
    Respects (World.SameAt fd) (syncLoop buf fuel remaining) := by
  induction fuel generalizing remaining with
  | zero => exact .throw _
  | succ fuel ih =>
    refine .ite (fun _ => ?_) fun _ => .pure _
    refine (sysWrite_local _).bind fun n => .ite (fun _ => ih _) fun _ => errno_local.bind fun _ => ?_
    refine .ite (fun _ => ?_) fun _ => .ite (fun _ => ?_) fun _ => ?_
    · exact .ite (fun _ => (asyncWrite_local _).bind fun _ => .pure _) fun _ => .pure _
    · exact (setState_local _).bind fun _ => .pure _
    · exact (setState_local _).bind fun _ => .pure _

theorem syncWrite_local (buf : List α) : Respects (World.SameAt fd) (syncWrite buf) :=
  guarded_local (getFd_local.bind fun _ => syncLoop_local _ _ _)

theorem writeString_local (data : StdString α) : Respects (World.SameAt fd) (writeString data) :=
  guarded_local (syncWrite_local _)

theorem writeVector_local (data : List α) : Respects (World.SameAt fd) (writeVector data) :=
  guarded_local (syncWrite_local _)

theorem writeStringMove_local (depth : Nat) (data : StdString α) :
    Respects (World.SameAt fd) (writeStringMove depth data) := by
  induction depth with
  | zero => exact .throw _
  | succ depth ih => exact guarded_local ih

theorem writeVectorMove_local (depth : Nat) (data : List α) :
    Respects (World.SameAt fd) (writeVectorMove depth data) := by
  induction depth with
  | zero => exact .throw _
  | succ depth ih => exact guarded_local ih

theorem writeFileSized_local (p s : Nat) :
    Respects (World.SameAt fd) (writeFileSized p s : Exec α ER) :=
  guarded_local (.ite (fun _ => .pure _) fun _ => .pure _)

theorem take_local (f : Context α → β) : Respects (World.SameAt fd) (do
    let c ← this
    modify fun w : World α => w.take
    pure (f c)) :=
  this_bind_local fun _ _ _ h => .ok ⟨rfl, h.socket, h.ioContext, h.kernel⟩

theorem read_local : Respects (World.SameAt fd) (read : Exec α (List α)) :=
  requireNotMoved_local.bind fun _ => take_local _

theorem readString_local : Respects (World.SameAt fd) (readString : Exec α (List α)) :=
  guarded_local (take_local _)

theorem getState_local : Respects (World.SameAt fd) (getState : Exec α State) :=
  requireNotMoved_local.bind fun _ => readState_local

theorem setOnRecv_local (installed : Bool) :
    Respects (World.SameAt (α := α) fd) (setOnRecv installed) :=
  requireNotMoved_local.bind fun _ => assign_local (fun _ => rfl) fun _ => rfl

/-- The object goes, with its entries in the tables. -/
theorem destruct_local : Respects (World.SameAt fd) (destruct : Exec α Unit) := by
  refine (onIoContext_local ioContext_destruct_local).bind fun _ => respects_of fun c k k' h => ?_
  refine .ok ⟨rfl, h.socket, h.ioContext, ?_⟩
  show Kernel.SameAt fd (if 0 < c.context.socket.fd then _ else _) (if 0 < c.context.socket.fd then _ else _)
  rw [show c.context.socket.fd = fd from h.socket]
  split
  · exact .close k k' fd
  · exact h.kernel

theorem contextDestroyer_local : Respects (World.SameAt fd) (contextDestroyer : Exec α Unit) := by
  refine (log_local _).bind fun _ => respects_of fun c k k' h => ?_
  rw [bind_of_ok (get_run _), bind_of_ok (get_run _)]
  show Alike _ ((if c.inserted then destruct else pure ⟨⟩) _) ((if c.inserted then destruct else pure ⟨⟩) _)
  split
  · exact destruct_local _ _ h
  · exact .ok h

theorem destroy_local : Respects (World.SameAt fd) (destroy : Exec α Unit) :=
  requireNotMoved_local.bind fun _ => getFd_local.bind fun _ => contextDestroyer_local

theorem stateCleanup_local : Respects (World.SameAt fd) (stateCleanup : Exec α Int) :=
  readState_local.bind fun _ => .ite (fun _ => destroy_local.bind fun _ => .pure _) fun _ => .pure _

theorem fopen_local : Respects (World.SameAt fd) (modify fun w => w.fopen : Exec α Unit) :=
  respects_of fun _ _ _ h => .ok ⟨rfl, h.socket, h.ioContext, h.kernel.opened, h.kernel.interest⟩

variable [Zero α]

theorem freadOnce_local (piece : List α) : Respects (World.SameAt fd) (freadOnce piece) := by
  refine this_local.bind fun c => ?_
  cases c.wbuffer.getWriter readBufSize with
  | none => exact .throw _
  | some p =>
    obtain ⟨writer, b⟩ := p
    refine (assign_local (f := fun c => { c with wbuffer := b }) (fun _ => rfl) fun _ => rfl).bind fun _ => ?_
    exact (onWbuffer_local _).bind fun _ => .ite (fun _ => onWbuffer_local _) fun _ => .pure _

theorem freadLoop_local (pieces : List (Block α)) : Respects (World.SameAt fd) (freadLoop pieces) := by
  induction pieces with
  | nil => exact freadOnce_local _
  | cons p ps ih => exact (freadOnce_local _).bind fun _ => ih

theorem writeFile_local (file : Option (FileStream α)) :
    Respects (World.SameAt fd) (writeFile file) := by
  refine guarded_local ?_
  cases file with
  | none => exact .pure _
  | some f =>
    exact fopen_local.bind fun _ => (freadLoop_local _).bind fun _ =>
      flushWriteBuffer_local.bind fun _ => .pure _

theorem Output.exec_local (o : Output α) : Respects (World.SameAt fd) o.exec := by
  cases o with
  | syncWrite buf => exact (syncWrite_local buf).bind fun _ => .pure _
  | writeString data => exact (writeString_local data).bind fun _ => .pure _
  | writeVector data => exact (writeVector_local data).bind fun _ => .pure _
  | asyncWrite buf => exact asyncWrite_local buf
  | writeFile file => exact (writeFile_local file).bind fun _ => .pure _
  | flushWriteBuffer => exact flushWriteBuffer_local

theorem Call.exec_local (c : Call α) : Respects (World.SameAt fd) c.exec := by
  cases c with
  | read => exact read_local.bind fun _ => .pure _
  | readString => exact readString_local.bind fun _ => .pure _
  | getState => exact getState_local.bind fun _ => .pure _
  | output o => exact o.exec_local
  | writeStringMove depth data => exact (writeStringMove_local depth data).bind fun _ => .pure _
  | writeVectorMove depth data => exact (writeVectorMove_local depth data).bind fun _ => .pure _
  | writeFileSized p s => exact (writeFileSized_local p s).bind fun _ => .pure _
  | setOnRecv installed => exact setOnRecv_local installed
  | destroy => exact destroy_local

theorem runCalls_local (cs : List (Call α)) : Respects (World.SameAt fd) (runCalls cs) := by
  induction cs with
  | nil => exact .pure _
  | cons c cs ih => exact c.exec_local.bind fun _ => ih

end Calls

section Handlers
variable {α : Type} {fd : Fd}

theorem readOutcome_local (bytesRead : Int) :
    Respects (World.SameAt fd) (readOutcome bytesRead : Exec α Bool) := by
  refine .ite (fun _ => .ite (fun _ => ?_) fun _ => .pure _) fun _ => errno_local.bind fun _ => ?_
  · exact (onBuffer_local _).bind fun _ => .pure _
  · refine .ite (fun _ => (onBuffer_local _).bind fun _ => .pure _) fun _ => .ite (fun _ => ?_) fun _ => ?_
    · exact (onBuffer_local _).bind fun _ => (setState_local _).bind fun _ => .pure _
    · exact (onBuffer_local _).bind fun _ => (setState_local _).bind fun _ => .pure _

theorem runOnRecv_local {callback : Exec α Unit} (hc : Respects (World.SameAt fd) callback) :
    Respects (World.SameAt fd) (runOnRecv callback) := by
  have hinvoke : Respects (World.SameAt fd) (modify fun w => w.invoke : Exec α Unit) :=
    respects_of fun _ _ _ h => .ok ⟨rfl, h.socket, h.ioContext, h.kernel⟩
  exact this_local.bind fun _ => .ite (fun _ => hinvoke.bind fun _ => hc) fun _ => .pure _

theorem recorded_local {body : Exec α Int} (h : Handler) (hbody : Respects (World.SameAt fd) body) :
    Respects (World.SameAt fd) (recorded h body) :=
  (log_local _).bind fun _ => hbody.bind fun _ => (log_local _).bind fun _ => .pure _

theorem handleWritableEvent_local : Respects (World.SameAt fd) (handleWritableEvent : Exec α Int) :=
  recorded_local _ <| requireNotMoved_local.bind fun _ => stateCleanup_local.bind fun _ =>
    .ite (fun _ => .pure _) fun _ => flushWriteBuffer_local.bind fun _ => stateCleanup_local

theorem isReadable_local : Respects (World.SameAt fd) (isReadable : Exec α Bool) :=
  this_local.bind fun _ => .pure _

theorem isWritable_local : Respects (World.SameAt fd) (isWritable : Exec α Bool) :=
  this_local.bind fun _ => (assert_local _).bind fun _ => .pure _

variable [Zero α]

theorem readPass_local (answer : ReadAnswer α) : Respects (World.SameAt fd) (readPass answer) := by
  refine this_local.bind fun c => ?_
  cases c.buffer.getWriter readBufSize with
  | none => exact .throw _
  | some p =>
    obtain ⟨writer, b⟩ := p
    refine (assign_local (f := fun c => { c with buffer := b }) (fun _ => rfl) fun _ => rfl).bind fun _ => ?_
    exact (sysRead_local _ _).bind fun _ => readOutcome_local _

theorem readLoop_local (blocks : List (Block α)) (last : ReadEnd) :
    Respects (World.SameAt fd) (readLoop blocks last) := by
  induction blocks with
  | nil => exact (readPass_local _).bind fun _ => .pure _
  | cons b bs ih => exact (readPass_local _).bind fun _ => .ite (fun _ => ih) fun _ => .pure _

variable (burst : Burst α) {callback : Exec α Unit} (hc : Respects (World.SameAt fd) callback)
include hc

theorem handleReadableEvent_local :
    Respects (World.SameAt fd) (handleReadableEvent burst callback) := by
  refine recorded_local _ <| requireNotMoved_local.bind fun _ => stateCleanup_local.bind fun _ =>
    .ite (fun _ => .pure _) fun _ => getFd_local.bind fun _ => (readLoop_local _ _).bind fun _ => ?_
  exact stateCleanup_local.bind fun _ => .ite (fun _ => .pure _) fun _ =>
    (runOnRecv_local hc).bind fun _ => stateCleanup_local

theorem dispatch_local (cb : Option Callback) :
    Respects (World.SameAt fd) (dispatch cb burst callback) := by
  cases cb with
  | none => exact .pure _
  | some cb =>
    cases cb with
    | handleReadableEvent => exact handleReadableEvent_local burst hc
    | handleWritableEvent => exact handleWritableEvent_local

theorem handleReadable_local : Respects (World.SameAt fd) (handleReadable burst callback) :=
  this_local.bind fun _ => (assert_local _).bind fun _ => dispatch_local burst hc _

theorem handleWritable_local : Respects (World.SameAt fd) (handleWritable burst callback) :=
  this_local.bind fun _ => (assert_local _).bind fun _ => dispatch_local burst hc _

theorem handleWritePart_local : Respects (World.SameAt fd) (handleWritePart burst callback) :=
  isWritable_local.bind fun _ =>
    .ite (fun _ => (handleWritable_local burst hc).bind fun _ => .pure _) fun _ => .pure _

theorem handleGeneral_local : Respects (World.SameAt fd) (handleGeneral burst callback) := by
  refine isReadable_local.bind fun _ => .ite (fun _ => ?_) fun _ => handleWritePart_local burst hc
  exact (handleReadable_local burst hc).bind fun _ =>
    .ite (fun _ => .pure _) fun _ => handleWritePart_local burst hc

theorem loopEntry_local (mask : Mask) : Respects (World.SameAt fd) (loopEntry mask burst callback) :=
  (onIoContext_local (checked_local (fun c => { c with revents := mask }) fun _ => rfl)).bind fun _ =>
    handleGeneral_local burst hc

end Handlers

section Creation
variable {α : Type} {fd : Fd} {onConn : Exec α Unit}

theorem contextCreator_local (onRecv : Bool) (hc : Respects (World.SameAt fd) onConn) :
    Respects (World.SameAt fd) (contextCreator onRecv onConn) := by
  have hread : ∀ cb, Respects (Registration.SameAt fd) (IoContext.setReadCallback cb) := fun cb =>
    checked_local (fun c => { c with readableCb := some cb }) fun _ => rfl
  have hwrite : ∀ cb, Respects (Registration.SameAt fd) (IoContext.setWriteCallback cb) := fun cb =>
    checked_local (fun c => { c with writableCb := some cb }) fun _ => rfl
  have hinsert : Respects (World.SameAt fd)
      (modify fun w => { w with inserted := true } : Exec α Unit) :=
    respects_of fun _ _ _ h => .ok ⟨rfl, h.socket, h.ioContext, h.kernel⟩
  refine (onIoContext_local (setter_local _)).bind fun _ => ?_
  refine (onIoContext_local (setter_local _)).bind fun _ => ?_
  refine (onIoContext_local (setter_local _)).bind fun _ => ?_
  refine (onIoContext_local (hread _)).bind fun _ => (onIoContext_local (hwrite _)).bind fun _ => ?_
  refine (setState_local _).bind fun _ => hc.bind fun _ => ?_
  cases onRecv with
  | true => exact (setOnRecv_local _).bind fun _ => hinsert
  | false => exact hinsert

end Creation
end Netier
