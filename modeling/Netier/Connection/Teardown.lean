import Netier.Connection.Frame

/-! Tearing a registered connection down: the descriptor leaves its epoll set and is
closed, and the object leaves the registry. -/
namespace Netier
open Lib
variable {α : Type} {w w' : World α} {r : Nat}

/-- A live connection that `__contextes` owns and that reactor `r` watches. -/
structure Attached (w : World α) (r : Nat) : Prop extends Healthy w where
  owned : w.inserted = true
  reactor : w.context.ioContext.reactor = some r
  fd : w.context.ioContext.fd = w.context.socket.fd
  opened : w.context.socket.fd ∈ w.kernel.fds
  watched : (w.kernel.interest r w.context.socket.fd).isSome

theorem Attached.of_framed (h : Attached w r) (hk : Framed w w')
    (hl : Leaves w.context.state w'.context.state) : Attached w' r where
  toHealthy := h.toHealthy.of_framed hk hl
  owned := hk.inserted.trans h.owned
  reactor := by rw [hk.ioContext]; exact h.reactor
  fd := by rw [hk.ioContext, hk.socket]; exact h.fd
  opened := by rw [hk.socket, hk.fds]; exact h.opened
  watched := by rw [hk.socket, hk.interest]; exact h.watched

theorem Attached.of_effect {β : Type} {x : Exec α β} (h : Attached w r)
    (hx : Effect (Steps Act.IsQuiet) x w) : Attached (final (x w)) r :=
  h.of_framed (kept_of_effect hx).toFramed (leaves_of_effect hx)

/-- Both callbacks of the `IOContext` are bound to the handlers of its own context. -/
structure Bound (w : World α) : Prop where
  readableCb : w.context.ioContext.readableCb = some .handleReadableEvent
  writableCb : w.context.ioContext.writableCb = some .handleWritableEvent

/-- A set-up connection: VALID, with both handlers bound. -/
structure Ready (w : World α) (r : Nat) : Prop extends Attached w r, Bound w where
  valid : w.context.state = some .valid

theorem Ready.open (h : Ready w r) : Open w := ⟨h.live, h.valid⟩

/-- The destroyer ran: nothing of the connection is left in the kernel's tables, and
every other descriptor is as before. -/
structure Gone (w w' : World α) : Prop where
  socket : w'.context.socket = w.context.socket
  freed : w'.freed = true
  inserted : w'.inserted = false
  fds : w'.kernel.fds = w.kernel.fds.erase w.context.socket.fd
  interest : ∀ ep, w'.kernel.interest ep w.context.socket.fd = none
  others : ∀ ep fd, fd ≠ w.context.socket.fd → w'.kernel.interest ep fd = w.kernel.interest ep fd

theorem Gone.of_framed {w₁ : World α} (hk : Framed w w₁) (h : Gone w₁ w') : Gone w w' where
  socket := h.socket.trans hk.socket
  freed := h.freed
  inserted := h.inserted
  fds := by rw [h.fds, hk.fds, hk.socket]
  interest := fun ep => by rw [← hk.socket]; exact h.interest ep
  others := fun ep fd hne => by rw [h.others ep fd (by rwa [hk.socket]), hk.interest]

theorem destruct_run {s : Registration} (hr : s.ioContext.reactor = some r)
    (hfd : s.ioContext.fd ∈ s.kernel.fds) (hw : (s.kernel.interest r s.ioContext.fd).isSome) :
    IoContext.destruct s =
      .ok ⟨⟩ { s with kernel := s.kernel.setInterest r s.ioContext.fd none } := by
  obtain ⟨ev, hev⟩ := Option.isSome_iff_exists.1 hw
  have hdel : s.kernel.epollCtl r .del s.ioContext.fd ⟨s.ioContext.events, s.ioContext.address⟩ =
      some (s.kernel.setInterest r s.ioContext.fd none) := by
    simp [Kernel.epollCtl, hfd, hev]
  simp [IoContext.destruct, IoContext.delIOContext, IoContext.control, IoContext.requireReactor,
    bind_run, hr, hdel]

/-- What the destroyer leaves of a connection watched by reactor `r`. -/
def World.torn (w : World α) (r : Nat) : World α :=
  ({ w.log .destroyer with
    kernel := w.kernel.setInterest r w.context.ioContext.fd none }.assign w.context).release

theorem torn_gone (h : Attached w r) : Gone w (w.torn r) := by
  have hpos := h.positive
  refine ⟨rfl, rfl, rfl, ?_, ?_, ?_⟩
  · simp [World.torn, World.release, hpos, Kernel.close]
  · intro ep
    simp [World.torn, World.release, hpos, Kernel.close]
  · intro ep fd hne
    have hne' : ¬ (ep = r ∧ fd = w.context.ioContext.fd) := fun hc => hne (hc.2.trans h.fd)
    simp [World.torn, World.release, hpos, Kernel.close, hne, Kernel.setInterest_other _ _ hne']

/-- The destructor of a connection that reactor `r` watches. -/
theorem Attached.destruct_run (h : Attached w r) :
    Netier.destruct w = .ok ⟨⟩
      ({ w with kernel := w.kernel.setInterest r w.context.ioContext.fd none }.assign
        w.context).release := by
  have hdel := Netier.destruct_run (s := ⟨w.kernel, w.context.ioContext⟩) h.reactor
    (by rw [h.fd]; exact h.opened) (by rw [h.fd]; exact h.watched)
  rw [destruct, bind_of_ok (onIoContext_run h.live hdel)]
  rfl

theorem Attached.log (h : Attached w r) (e : Event α) : Attached (w.log e) r :=
  ⟨⟨h.live, h.state, h.positive⟩, h.owned, h.reactor, h.fd, h.opened, h.watched⟩

theorem contextDestroyer_run (h : Attached w r) :
    contextDestroyer w = .ok ⟨⟩ (w.torn r) := by
  have howned : (w.log .destroyer).inserted = true := h.owned
  rw [contextDestroyer, bind_of_ok (log_run _ _), bind_of_ok (get_run _), if_pos howned,
    (h.log .destroyer).destruct_run]
  rfl

theorem destroy_run (h : Attached w r) : destroy w = .ok ⟨⟩ (w.torn r) := by
  obtain ⟨s, hs, hm⟩ := h.state
  rw [destroy, bind_of_ok (requireNotMoved_run h.live hs hm),
    bind_of_ok (getFd_run h.live h.positive), contextDestroyer_run h]

theorem stateCleanup_valid (h : Open w) : stateCleanup w = .ok 0 w := by
  rw [stateCleanup, bind_of_ok (readState_run h.live h.valid)]
  rfl

/-- A connection that is no longer VALID is torn down by the next cleanup. -/
theorem stateCleanup_run (h : Attached w r) (hv : w.context.state ≠ some .valid) :
    stateCleanup w = .ok (-1) (w.torn r) := by
  obtain ⟨s, hs, hm⟩ := h.state
  have hshut : s = .closed ∨ s = .invalid := by
    cases s with
    | valid => exact absurd hs hv
    | moved => exact absurd rfl hm
    | closed => exact .inl rfl
    | invalid => exact .inr rfl
  rw [stateCleanup, bind_of_ok (readState_run h.live hs), if_pos hshut, bind_of_ok (destroy_run h)]
  rfl

/-- A connection as the server leaves it when it has accepted descriptor `fd` for
reactor `r`, with the answers the kernel has in store for it. -/
def World.setUp (r : Nat) (fd : Fd) (onRecv : Bool) (answers : Nat → WriteAnswer) : World α where
  context :=
    { socket := ⟨fd⟩
      ioContext := ⟨0, some r, fd, epollin ||| epollout ||| epollet, 0, some .handleWritableEvent,
        some .handleReadableEvent, true⟩
      buffer := .empty
      wbuffer := .empty
      onRecv
      state := some .valid }
  wire := ⟨answers, .eagain, [], []⟩
  taken := []
  freed := false
  inserted := true
  history := []
  kernel :=
    { fds := {fd}
      interest := fun ep => Function.update (fun _ => none) fd
        (if ep = r then some ⟨epollin ||| epollout ||| epollet, 0⟩ else none)
      files := 0 }

theorem setUp_ready {fd : Fd} (h : 0 < fd) (onRecv : Bool) (answers : Nat → WriteAnswer) :
    Ready (World.setUp (α := α) r fd onRecv answers) r where
  live := rfl
  state := ⟨_, rfl, by decide⟩
  positive := h
  owned := rfl
  reactor := rfl
  fd := rfl
  opened := Finset.mem_singleton_self fd
  watched := by simp [World.setUp]
  valid := rfl
  readableCb := rfl
  writableCb := rfl

/-- The socket is full at the first `write(2)` and takes one byte at each later one. -/
def fullOnce : Nat → WriteAnswer
  | 0 => .failed .eagain
  | _ => .room 1

theorem fullOnce_fits (r : Nat) (fd : Fd) (onRecv : Bool) :
    (World.setUp (α := α) r fd onRecv fullOnce).Fits := by
  rintro (_ | i) n hn
  · simp [World.setUp, fullOnce] at hn
  · simp only [World.setUp, fullOnce, WriteAnswer.room.injEq] at hn
    simp [← hn, writeMax]

end Netier
