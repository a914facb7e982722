import Netier.Connection.Record
import Netier.Server.Creation

/-! What is set up at each phase of the creation of a connection, whatever the reactor
thread does in between. -/
namespace Netier
open Lib
variable {α : Type} {w w' : World α} {r : Nat}

section Registration
variable {s : Registration}

theorem setEvents_run {ev : Mask} (hr : s.ioContext.reactor = some r)
    (hfd : s.ioContext.fd ∈ s.kernel.fds)
    (hreg : s.ioContext.registered = (s.kernel.interest r s.ioContext.fd).isSome)
    (hset : Kernel.settable (s.kernel.interest r s.ioContext.fd) ev) :
    IoContext.setEvents ev s =
      .ok ⟨⟩ ⟨s.kernel.setInterest r s.ioContext.fd (some ⟨ev, s.ioContext.address⟩),
        { s.ioContext with events := ev, registered := true }⟩ := by
  cases hi : s.kernel.interest r s.ioContext.fd with
  | none =>
    rw [hi] at hreg hset
    simp [IoContext.setEvents, IoContext.addIOContext, IoContext.control, IoContext.setRegister,
      IoContext.requireReactor, bind_run, hr, hreg, Kernel.epollCtl, hfd, hi, hset]
  | some e =>
    have hreg : s.ioContext.registered = true := by rw [hreg, hi]; rfl
    rw [hi] at hset
    simp [IoContext.setEvents, IoContext.addIOContext, IoContext.control, IoContext.requireReactor,
      bind_run, hr, hreg, Kernel.epollCtl, hfd, hi, hset]

theorem getEvents_run (hr : s.ioContext.reactor = some r) :
    IoContext.getEvents s = .ok s.ioContext.events s := by
  simp [IoContext.getEvents, IoContext.requireReactor, bind_run, map_run, hr]

theorem enable_run (bits : Mask) (hr : s.ioContext.reactor = some r)
    (hfd : s.ioContext.fd ∈ s.kernel.fds)
    (hreg : s.ioContext.registered = (s.kernel.interest r s.ioContext.fd).isSome)
    (hset : Kernel.settable (s.kernel.interest r s.ioContext.fd) (s.ioContext.events ||| bits)) :
    (do IoContext.setEvents ((← IoContext.getEvents) ||| bits) : Register Unit) s =
      .ok ⟨⟩ ⟨s.kernel.setInterest r s.ioContext.fd
          (some ⟨s.ioContext.events ||| bits, s.ioContext.address⟩),
        { s.ioContext with events := s.ioContext.events ||| bits, registered := true }⟩ := by
  rw [bind_of_ok (getEvents_run hr), setEvents_run hr hfd hreg hset]

theorem setReadCallback_run {cb : Callback} (hr : s.ioContext.reactor = some r) :
    IoContext.setReadCallback cb s =
      .ok ⟨⟩ { s with ioContext := { s.ioContext with readableCb := some cb } } := by
  simp [IoContext.setReadCallback, IoContext.requireReactor, bind_run, hr]

theorem setWriteCallback_run {cb : Callback} (hr : s.ioContext.reactor = some r) :
    IoContext.setWriteCallback cb s =
      .ok ⟨⟩ { s with ioContext := { s.ioContext with writableCb := some cb } } := by
  simp [IoContext.setWriteCallback, IoContext.requireReactor, bind_run, hr]

end Registration

theorem Phase.eq_returned (p : Phase) : p = .returned ↔ p.rank = 9 := by cases p <;> simp [Phase.rank]

theorem Phase.rank_next {p : Phase} (hp : p.rank < 9) : p.next.rank = p.rank + 1 := by
  cases p <;> simp_all [next, rank]

/-- The events the descriptor is registered for. -/
def Phase.mask : Phase → Mask
  | .enableRead => 0
  | .enableWrite => epollin
  | .setET => epollin ||| epollout
  | _ => epollin ||| epollout ||| epollet

/-- The entry of the descriptor in the interest set of its reactor. -/
theorem Phase.mask_next {p : Phase} (hp : 2 < p.rank) : p.next.mask = p.mask := by
  cases p <;> simp_all [next, rank, mask]

def Phase.entry (p : Phase) (address : Nat) : Option EpollEvent :=
  if 0 < p.rank then some ⟨p.mask, address⟩ else none

/-- No step of the creation asks for `EPOLLEXCLUSIVE`. -/
theorem Phase.mask_plain (p : Phase) : exclusive p.mask = false := by
  cases p <;> decide

theorem Phase.entry_settable (p : Phase) (address : Nat) : Kernel.settable (p.entry address) p.next.mask := by
  rw [Phase.entry]
  split_ifs <;> simp [Kernel.settable, Phase.mask_plain]

/-- What holds of a live connection before the step `p` of its creation. -/
structure Staged (r : Nat) (p : Phase) (w : World α) : Prop where
  live : w.freed = false
  positive : 0 < w.context.socket.fd
  reactor : w.context.ioContext.reactor = some r
  fd : w.context.ioContext.fd = w.context.socket.fd
  opened : w.context.socket.fd ∈ w.kernel.fds
  registered : w.context.ioContext.registered = decide (0 < p.rank)
  events : w.context.ioContext.events = p.mask
  interest : w.kernel.interest r w.context.socket.fd = p.entry w.context.ioContext.address
  readable : w.context.ioContext.readableCb = if 3 < p.rank then some .handleReadableEvent else none
  writable : w.context.ioContext.writableCb = if 4 < p.rank then some .handleWritableEvent else none
  state : 5 < p.rank → ∃ s, w.context.state = some s ∧ s ≠ .moved
  owned : w.inserted = decide (p = .returned)

/-- A connection before the first step of its creation. -/
structure Allocated (r : Nat) (w : World α) : Prop extends Staged r .enableRead w where
  taken : w.taken = []
  buffer : w.context.buffer = .empty
  delivered : w.wire.delivered = []
  history : w.history = []

/-- The kernel has just returned `fd` from `accept(2)`. -/
theorem Conn.create_allocated {address : Nat} {fd : Fd} {state : Option State} {k : Kernel}
    {answers : Nat → WriteAnswer} (hpos : 0 < fd) (hopen : fd ∈ k.fds) (hnone : k.interest r fd = none) :
    Allocated r (⟨Conn.create address r fd state answers, k⟩ : World α) where
  live := rfl
  positive := hpos
  reactor := rfl
  fd := rfl
  opened := hopen
  registered := rfl
  events := rfl
  interest := hnone
  readable := rfl
  writable := rfl
  state := fun h => absurd h (by decide)
  owned := rfl
  taken := rfl
  buffer := rfl
  delivered := rfl
  history := rfl

/-- What a step of the creation leaves alone. -/
structure Advanced (r : Nat) (w w' : World α) : Prop where
  socket : w'.context.socket = w.context.socket
  address : w'.context.ioContext.address = w.context.ioContext.address
  revents : w'.context.ioContext.revents = w.context.ioContext.revents
  seen : w'.seen = w.seen
  delivered : w'.wire.delivered = w.wire.delivered
  fds : w'.kernel.fds = w.kernel.fds
  others : ∀ ep fd, ¬ (ep = r ∧ fd = w.context.socket.fd) →
    w'.kernel.interest ep fd = w.kernel.interest ep fd
  grew : Grew Event.IsWork w w'

namespace Advanced
variable {w'' : World α}

theorem trans (h : Advanced r w w') (h' : Advanced r w' w'') : Advanced r w w'' where
  socket := h'.socket.trans h.socket
  address := h'.address.trans h.address
  revents := h'.revents.trans h.revents
  seen := h'.seen.trans h.seen
  delivered := h'.delivered.trans h.delivered
  fds := h'.fds.trans h.fds
  others := fun ep fd hne => by rw [h'.others ep fd (by rwa [h.socket]), h.others ep fd hne]
  grew := h.grew.trans h'.grew

end Advanced

namespace Staged
variable {p : Phase}

/-- The kernel's tables and the `IOContext` are replaced. -/
theorem rewire {s : Registration} {x : Register Unit} (h : Staged r p w)
    (hx : x ⟨w.kernel, w.context.ioContext⟩ = .ok ⟨⟩ s)
    (haddress : s.ioContext.address = w.context.ioContext.address)
    (hrevents : s.ioContext.revents = w.context.ioContext.revents)
    (hfds : s.kernel.fds = w.kernel.fds)
    (hothers : ∀ ep fd, ¬ (ep = r ∧ fd = w.context.socket.fd) →
      s.kernel.interest ep fd = w.kernel.interest ep fd) :
    ∃ w', onIoContext x w = .ok ⟨⟩ w' ∧ Advanced r w w' ∧ w'.kernel = s.kernel ∧
      w'.context = { w.context with ioContext := s.ioContext } ∧ w'.freed = false ∧
      w'.inserted = w.inserted :=
  ⟨_, onIoContext_run h.live hx,
    ⟨rfl, haddress, hrevents, rfl, rfl, hfds, hothers, ⟨[⟨.assign, _⟩], rfl, by simp [Event.IsWork]⟩⟩,
    rfl, rfl, h.live, rfl⟩

theorem registered_eq (h : Staged r p w) :
    w.context.ioContext.registered =
      (w.kernel.interest r w.context.ioContext.fd).isSome := by
  rw [h.registered, h.fd, h.interest, Phase.entry]
  split <;> simp_all

/-- The three steps that register the descriptor. -/
theorem enable (bits : Mask) (h : Staged r p w) (hp : p.rank < 3)
    (hmask : p.mask ||| bits = p.next.mask) :
    ∃ w', onIoContext (do IoContext.setEvents ((← IoContext.getEvents) ||| bits)) w = .ok ⟨⟩ w' ∧
      Staged r p.next w' ∧ Advanced r w w' := by
  have hnext := Phase.rank_next (p := p) (by omega)
  have hset : Kernel.settable (w.kernel.interest r w.context.ioContext.fd)
      (w.context.ioContext.events ||| bits) := by
    rw [h.fd, h.interest, h.events, hmask]
    exact p.entry_settable _
  have hx := enable_run (s := ⟨w.kernel, w.context.ioContext⟩) bits h.reactor
    (by rw [h.fd]; exact h.opened) h.registered_eq hset
  obtain ⟨w', hrun, hadv, hk, hc, hlive, howned⟩ := h.rewire hx rfl rfl rfl fun ep fd hne =>
    Kernel.setInterest_other _ _ (by rwa [h.fd])
  refine ⟨w', hrun, ⟨hlive, ?_, ?_, ?_, ?_, ?_, ?_, ?_, ?_, ?_, ?_, ?_⟩, hadv⟩
  · rw [hc]; exact h.positive
  · rw [hc]; exact h.reactor
  · rw [hc]; exact h.fd
  · rw [hc, hk]; exact h.opened
  · rw [hc]; simp [hnext]
  · rw [hc, ← hmask, ← h.events]
  · rw [hc, hk, Phase.entry, if_pos (by omega), ← hmask, ← h.events, ← h.fd]
    exact Kernel.setInterest_self _ _ _ _
  · rw [hc, if_neg (by omega)]; simpa [show ¬ 3 < p.rank by omega] using h.readable
  · rw [hc, if_neg (by omega)]; simpa [show ¬ 4 < p.rank by omega] using h.writable
  · intro hs; omega
  · rw [howned, h.owned, decide_eq_decide, p.eq_returned, p.next.eq_returned]; omega

/-- The two steps that install the callbacks. -/
theorem install {x : Register Unit} {c : IoContext} (h : Staged r p w) (hp : 2 < p.rank)
    (hp' : p.rank < 5) (hx : x ⟨w.kernel, w.context.ioContext⟩ = .ok ⟨⟩ ⟨w.kernel, c⟩)
    (hsame : { c with readableCb := none, writableCb := none } =
      { w.context.ioContext with readableCb := none, writableCb := none })
    (hread : c.readableCb = if 3 < p.next.rank then some .handleReadableEvent else none)
    (hwrite : c.writableCb = if 4 < p.next.rank then some .handleWritableEvent else none) :
    ∃ w', onIoContext x w = .ok ⟨⟩ w' ∧ Staged r p.next w' ∧ Advanced r w w' := by
  have hnext := Phase.rank_next (p := p) (by omega)
  have hmask := Phase.mask_next hp
  simp only [IoContext.mk.injEq, true_and] at hsame
  obtain ⟨haddress, hreactor, hfd, hevents, hrevents, hregistered⟩ := hsame
  obtain ⟨w', hrun, hadv, hk, hc, hlive, howned⟩ := h.rewire hx haddress hrevents rfl fun _ _ _ => rfl
  refine ⟨w', hrun, ⟨hlive, ?_, ?_, ?_, ?_, ?_, ?_, ?_, ?_, ?_, ?_, ?_⟩, hadv⟩
  · rw [hc]; exact h.positive
  · rw [hc]; exact hreactor.trans h.reactor
  · rw [hc]; exact hfd.trans h.fd
  · rw [hc, hk]; exact h.opened
  · rw [hc, decide_eq_true (show 0 < p.next.rank by omega)]
    exact hregistered.trans (h.registered.trans (decide_eq_true (by omega)))
  · rw [hc, hmask]; exact hevents.trans h.events
  · have hi := h.interest
    rw [Phase.entry, if_pos (by omega)] at hi ⊢
    rw [hc, hk, hmask, haddress]
    exact hi
  · rw [hc]; exact hread
  · rw [hc]; exact hwrite
  · intro hs; omega
  · rw [howned, h.owned, decide_eq_decide, p.eq_returned, p.next.eq_returned]; omega

/-- A step that leaves the `IOContext` and the kernel's tables alone. -/
theorem relabel (h : Staged r p w) (hp : 4 < p.rank) (hlive : w'.freed = false)
    (hsocket : w'.context.socket = w.context.socket)
    (hio : w'.context.ioContext = w.context.ioContext) (hkernel : w'.kernel = w.kernel)
    (hstate : ∃ s, w'.context.state = some s ∧ s ≠ .moved)
    (howned : w'.inserted = decide (p.next = .returned)) : Staged r p.next w' := by
  have hmask := Phase.mask_next (p := p) (by omega)
  have hnext : 4 < p.next.rank := by
    cases p <;> simp_all [Phase.next, Phase.rank]
  refine ⟨hlive, ?_, ?_, ?_, ?_, ?_, ?_, ?_, ?_, ?_, fun _ => hstate, howned⟩
  · rw [hsocket]; exact h.positive
  · rw [hio]; exact h.reactor
  · rw [hio, hsocket]; exact h.fd
  · rw [hsocket, hkernel]; exact h.opened
  · rw [hio, decide_eq_true (show 0 < p.next.rank by omega)]
    exact h.registered.trans (decide_eq_true (by omega))
  · rw [hio, hmask]; exact h.events
  · have hi := h.interest
    rw [Phase.entry, if_pos (by omega)] at hi ⊢
    rw [hio, hsocket, hkernel, hmask]
    exact hi
  · have hr := h.readable
    rw [if_pos (by omega)] at hr ⊢
    rw [hio, hr]
  · have hw := h.writable
    rw [if_pos (by omega)] at hw ⊢
    rw [hio, hw]

/-- Every step of the creation succeeds, whenever it comes. -/
theorem exec (h : Staged r p w) (hp : p ≠ .returned) (onRecv : Bool) :
    ∃ w', p.exec onRecv w = .ok ⟨⟩ w' ∧ Staged r p.next w' ∧ Advanced r w w' := by
  have grew (c : Context α) : Grew Event.IsWork w (w.assign c) :=
    ⟨[⟨.assign, c⟩], rfl, by simp [Event.IsWork]⟩
  cases p with
  | enableRead => exact h.enable epollin (by decide) (by decide)
  | enableWrite => exact h.enable epollout (by decide) (by decide)
  | setET => exact h.enable epollet (by decide) (by decide)
  | setReadCallback =>
    exact h.install (by decide) (by decide) (setReadCallback_run h.reactor) rfl rfl h.writable
  | setWriteCallback =>
    exact h.install (by decide) (by decide) (setWriteCallback_run h.reactor) rfl h.readable rfl
  | setValid =>
    refine ⟨_, setState_run h.live _, ?_, ⟨rfl, rfl, rfl, rfl, rfl, rfl, fun _ _ _ => rfl, grew _⟩⟩
    exact h.relabel (by decide) h.live rfl rfl rfl ⟨_, rfl, by decide⟩ h.owned
  | onConn =>
    refine ⟨w, rfl, ?_, ⟨rfl, rfl, rfl, rfl, rfl, rfl, fun _ _ _ => rfl, .refl w⟩⟩
    exact h.relabel (by decide) h.live rfl rfl rfl (h.state (by decide)) h.owned
  | setOnRecv =>
    obtain ⟨s, hs, hm⟩ := h.state (by decide)
    cases onRecv with
    | false =>
      refine ⟨w, rfl, ?_, ⟨rfl, rfl, rfl, rfl, rfl, rfl, fun _ _ _ => rfl, .refl w⟩⟩
      exact h.relabel (by decide) h.live rfl rfl rfl ⟨s, hs, hm⟩ h.owned
    | true =>
      have hrun : Netier.setOnRecv true w = .ok ⟨⟩ (w.assign { w.context with onRecv := true }) := by
        rw [Netier.setOnRecv, bind_of_ok (requireNotMoved_run h.live hs hm), assign_run h.live]
      refine ⟨_, hrun, ?_, ⟨rfl, rfl, rfl, rfl, rfl, rfl, fun _ _ _ => rfl, grew _⟩⟩
      exact h.relabel (by decide) h.live rfl rfl rfl ⟨s, hs, hm⟩ h.owned
  | insert =>
    refine ⟨_, rfl, ?_, ⟨rfl, rfl, rfl, rfl, rfl, rfl, fun _ _ _ => rfl, ⟨[], rfl, by simp⟩⟩⟩
    exact h.relabel (by decide) h.live rfl rfl rfl (h.state (by decide)) rfl
  | returned => exact absurd rfl hp

end Staged

/-- What the work and the calls on a connection leave alone while it is not torn down. -/
structure Untouched (w w' : World α) : Prop where
  socket : w'.context.socket = w.context.socket
  ioContext : w'.context.ioContext = w.context.ioContext
  freed : w'.freed = w.freed
  inserted : w'.inserted = w.inserted
  fds : w'.kernel.fds = w.kernel.fds
  interest : w'.kernel.interest = w.kernel.interest
  leaves : Leaves w.context.state w'.context.state

theorem Works.untouched (h : Works w w') : Untouched w w' :=
  ⟨h.socket, h.ioContext, h.freed, h.inserted, h.fds, h.interest, h.leaves⟩

theorem Untouched.trans {w'' : World α} (h : Untouched w w') (h' : Untouched w' w'') :
    Untouched w w'' where
  socket := h'.socket.trans h.socket
  ioContext := h'.ioContext.trans h.ioContext
  freed := h'.freed.trans h.freed
  inserted := h'.inserted.trans h.inserted
  fds := h'.fds.trans h.fds
  interest := h'.interest.trans h.interest
  leaves := h.leaves.trans h'.leaves

/-- An object the map does not own is not torn down, not even by its destroyer. -/
theorem Steps.untouched (h : Steps Act.IsEvent w w') (hin : w.inserted = false) : Untouched w w' := by
  have hleaves := h.leaves
  obtain ⟨a, ha, he, rfl⟩ := h
  have work (hw : a.IsWork) : Untouched w (w.next a) := by
    have hf := Steps.framed ⟨a, hw, he, rfl⟩
    exact ⟨hf.socket, hf.ioContext, hf.freed, hf.inserted, hf.fds, hf.interest, hleaves⟩
  cases a with
  | deregister s => exact absurd he.2.1 (by simp [hin])
  | release => exact absurd he.2 (by simp [hin])
  | revents mask => exact ha.elim
  | entered | returned | destroyer => exact ⟨rfl, rfl, rfl, rfl, rfl, rfl, hleaves⟩
  | _ => exact work trivial

theorem untouched_of_effect {β : Type} {x : Exec α β} (hx : Effect (Steps Act.IsEvent) x w)
    (hin : w.inserted = false) : Untouched w (final (x w)) :=
  hx.keeps (I := Untouched w) (fun _ _ h hs => h.trans (hs.untouched (h.inserted.trans hin)))
    ⟨rfl, rfl, rfl, rfl, rfl, rfl, .inl rfl⟩

theorem Staged.of_untouched {p : Phase} (h : Staged r p w) (hu : Untouched w w') : Staged r p w' where
  live := hu.freed.trans h.live
  positive := by rw [hu.socket]; exact h.positive
  reactor := by rw [hu.ioContext]; exact h.reactor
  fd := by rw [hu.ioContext, hu.socket]; exact h.fd
  opened := by rw [hu.socket, hu.fds]; exact h.opened
  registered := by rw [hu.ioContext]; exact h.registered
  events := by rw [hu.ioContext]; exact h.events
  interest := by rw [hu.interest, hu.socket, hu.ioContext]; exact h.interest
  readable := by rw [hu.ioContext]; exact h.readable
  writable := by rw [hu.ioContext]; exact h.writable
  state := fun hp => by
    obtain ⟨s, hs, hm⟩ := h.state hp
    rcases hu.leaves with he | ⟨_, he | he⟩
    · exact ⟨s, he.trans hs, hm⟩
    · exact ⟨_, he, by decide⟩
    · exact ⟨_, he, by decide⟩
  owned := hu.inserted.trans h.owned

/-- A created connection is registered, with its handlers bound. -/
theorem Staged.attached (h : Staged r .returned w) : Attached w r where
  live := h.live
  state := h.state (by decide)
  positive := h.positive
  owned := h.owned
  reactor := h.reactor
  fd := h.fd
  opened := h.opened
  watched := by rw [h.interest]; rfl

theorem Staged.bound (h : Staged r .returned w) : Bound w := ⟨h.readable, h.writable⟩

theorem Staged.polled {p : Phase} (h : Staged r p w) (mask : Mask) : Staged r p (w.polled mask) :=
  ⟨h.live, h.positive, h.reactor, h.fd, h.opened, h.registered, h.events, h.interest, h.readable,
    h.writable, h.state, h.owned⟩

section Setup
variable {s s' : Setup α} {onRecv : Bool}

theorem advance_inv (h : s.advance onRecv = some s') :
    s.phase ≠ .returned ∧ ∃ w, s.phase.exec onRecv s.world = .ok ⟨⟩ w ∧
      s' = { s with world := w, phase := s.phase.next } := by
  unfold Setup.advance at h
  split at h
  · cases h
  · obtain ⟨w, hw, rfl⟩ := Option.map_eq_some_iff.1 h
    exact ⟨‹_›, w, completed_eq_some.1 hw, rfl⟩

theorem poll_inv {mask : Mask} (h : s.poll r mask = some s') :
    s.polled = false ∧ s.world.freed = false ∧
      (s.world.kernel.interest r s.world.context.socket.fd).isSome ∧
      ∃ w, onIoContext (IoContext.setRevents mask) s.world = .ok ⟨⟩ w ∧
        s' = { s with world := w, polled := true } := by
  unfold Setup.poll at h
  split at h
  · cases h
  · rename_i hc
    obtain ⟨w, hw, rfl⟩ := Option.map_eq_some_iff.1 h
    simp only [Bool.or_eq_true, not_or, Bool.not_eq_true, Option.isNone_eq_false_iff] at hc
    exact ⟨hc.1.1, hc.1.2, hc.2, w, completed_eq_some.1 hw, rfl⟩

variable [Zero α]

theorem onConn_inv {c : PublicCall α} (h : s.onConn c = some s') :
    s.phase = .onConn ∧ ∃ w, c.exec s.world = .ok ⟨⟩ w ∧ s' = { s with world := w } := by
  unfold Setup.onConn at h
  split at h
  · obtain ⟨w, hw, rfl⟩ := Option.map_eq_some_iff.1 h
    exact ⟨‹_›, w, completed_eq_some.1 hw, rfl⟩
  · cases h

theorem handle_inv {burst : Burst α} {callback : List (Call α)} (h : s.handle burst callback = some s') :
    s.polled = true ∧ ∃ w, handleGeneral burst (runCalls callback) s.world = .ok ⟨⟩ w ∧
      s' = { s with world := w, polled := false } := by
  unfold Setup.handle at h
  split at h
  · obtain ⟨w, hw, rfl⟩ := Option.map_eq_some_iff.1 h
    exact ⟨‹_›, w, completed_eq_some.1 hw, rfl⟩
  · cases h

theorem PublicCall.exec_effect (c : PublicCall α) {w : World α} :
    Effect (Steps Act.IsEvent) c.exec w := by
  cases c with
  | call c => exact effect_mono (fun _ ha => ha.body.event) c.exec_effect
  | handleReadableEvent burst callback =>
    exact (handleReadableEvent_effect burst (runCalls_body _)).bind fun _ _ _ => Effect.pure _
  | handleWritableEvent => exact handleWritableEvent_effect.bind fun _ _ _ => Effect.pure _

/-- A step of either thread keeps the creation on its way, except that a connection that is
in the map may be torn down by its handlers. -/
theorem Staged.step {l : SetupLabel α} (h : Staged r s.phase s.world)
    (hs : s.step r onRecv l = some s') :
    Staged r s'.phase s'.world ∧
        (s'.phase = .returned → s'.world.destroyerCalls = s.world.destroyerCalls ∧
          (s.phase = .returned ∨ l = .advance ∧ s.phase = .insert)) ∨
      s.phase = .returned ∧ s'.phase = .returned ∧ Gone s.world s'.world ∧
        s'.world.destroyerCalls = s.world.destroyerCalls + 1 := by
  cases l with
  | advance =>
    obtain ⟨hp, w, hrun, rfl⟩ := advance_inv hs
    obtain ⟨w', hrun', hstaged, hadv⟩ := h.exec hp onRecv
    rw [hrun] at hrun'
    cases hrun'
    have hsame := hadv.grew.calls fun _ => Event.IsWork.not_destroyer
    refine .inl ⟨hstaged, fun hnext => ⟨hsame, .inr ⟨rfl, ?_⟩⟩⟩
    have hnext : s.phase.next = .returned := hnext
    cases hphase : s.phase <;> simp_all [Phase.next]
  | onConn c =>
    obtain ⟨hp, w, hrun, rfl⟩ := onConn_inv hs
    have hu := untouched_of_effect (c.exec_effect (w := s.world)) (by rw [h.owned, hp]; rfl)
    rw [hrun] at hu
    refine .inl ⟨h.of_untouched hu, fun hret => ?_⟩
    rw [hp] at hret
    cases hret
  | poll mask =>
    obtain ⟨_, _, _, w, hrun, rfl⟩ := poll_inv hs
    rw [setRevents_run h.live h.reactor mask] at hrun
    cases hrun
    exact .inl ⟨h.polled mask, fun hret => ⟨by simp [World.polled], .inl hret⟩⟩
  | handle burst callback =>
    obtain ⟨_, w, hrun, rfl⟩ := handle_inv hs
    by_cases hp : s.phase = .returned
    · rw [hp] at h
      have hend := (handleGeneral_ensures (runCalls_body _) h.attached h.bound burst
        fun _ _ => any_calms callback).ok hrun
      cases hend with
      | stays hw _ _ =>
        refine .inl ⟨?_, fun _ => ⟨hw.calls, .inl hp⟩⟩
        have hstaged := h.of_untouched hw.untouched
        rwa [← hp] at hstaged
      | goes hg hc _ => exact .inr ⟨hp, hp, hg, hc⟩
    · have hu := untouched_of_effect (handleGeneral_effect (w := s.world) burst (runCalls_body callback))
        (by rw [h.owned]; simpa using hp)
      rw [hrun] at hu
      exact .inl ⟨h.of_untouched hu, fun hret => absurd hret hp⟩

end Setup
end Netier
