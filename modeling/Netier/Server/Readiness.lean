import Netier.Connection.Hearing
import Netier.Server.StaysOut

/-! Bytes that arrive while a connection is being created: the readiness events they make,
and what becomes of an event that is handled before the callbacks are there. -/
namespace Netier
open Lib

/-- `arrived` are the bytes that have reached the socket; `available` says that `epoll_wait`
has an EPOLLIN event of the descriptor to report. -/
structure Incoming (α : Type) extends Setup α where
  arrived : List α
  available : Bool

inductive IncomingLabel (α : Type) where
  | arrive (b : α)
  | thread (l : SetupLabel α)

variable {α : Type} {w w' w₀ : World α} {r : Nat}

namespace Incoming

def start (w : World α) : Incoming α := ⟨.start w, [], false⟩

/-- What `read(2)` has not returned yet. -/
def pending (s : Incoming α) : List α := s.arrived.drop s.world.wire.delivered.length

/-- The entry of the descriptor in the interest set of its reactor. -/
def entry (s : Incoming α) (r : Nat) : Option EpollEvent :=
  s.world.kernel.interest r s.world.context.socket.fd

/-- Whether an event is available after a step. An `epoll_ctl` call makes one of the bytes
that are pending; a poll consumes the event if the descriptor is edge-triggered. -/
def edge (s : Incoming α) (r : Nat) : SetupLabel α → Bool
  | .advance => s.available || (s.phase.rank < 3 && !s.pending.isEmpty)
  | .poll _ => s.available && !(s.entry r).any fun e => (e.events &&& epollet) != 0
  | _ => s.available

/-- `read(2)` returns the pending bytes in order, and `EAGAIN` only after the last. -/
def Answers (s : Incoming α) (burst : Burst α) : Prop :=
  burst.bytes <+: s.pending ∧ (burst.last.state = .valid → burst.bytes = s.pending)

/-- The kernel's answers to a step are those of the socket. -/
def Genuine (s : Incoming α) : SetupLabel α → Prop
  | .poll mask => s.available = true → s.pending ≠ [] → (mask &&& epollin) ≠ 0
  | .handle burst _ => s.Answers burst
  | .onConn (.handleReadableEvent burst _) => s.Answers burst
  | _ => True

instance [DecidableEq α] (s : Incoming α) (burst : Burst α) : Decidable (s.Answers burst) :=
  inferInstanceAs (Decidable (_ ∧ _))

instance [DecidableEq α] (s : Incoming α) (l : SetupLabel α) : Decidable (s.Genuine l) :=
  match l with
  | .poll mask =>
    inferInstanceAs (Decidable (s.available = true → s.pending ≠ [] → (mask &&& epollin) ≠ 0))
  | .handle burst _ => inferInstanceAs (Decidable (s.Answers burst))
  | .onConn (.handleReadableEvent burst _) => inferInstanceAs (Decidable (s.Answers burst))
  | .onConn (.call _) | .onConn .handleWritableEvent | .advance => inferInstanceAs (Decidable True)

/-- A step of the network or of one of the threads, on a server with a callback. -/
def step [Zero α] [DecidableEq α] (r : Nat) (s : Incoming α) : IncomingLabel α → Option (Incoming α)
  | .arrive b =>
    some { s with arrived := s.arrived ++ [b], available := s.available || (s.entry r).isSome }
  | .thread l =>
    if s.Genuine l then
      (s.toSetup.step r true l).map fun t =>
        { toSetup := t, arrived := s.arrived, available := s.edge r l }
    else none

/-- A handler that finds bytes pending has a callback to tell; before the read callback is
bound it leaves them to a further event. -/
def Prompt (s : Incoming α) : IncomingLabel α → Prop
  | .thread (.handle _ _) =>
    (s.world.context.ioContext.revents &&& epollin) ≠ 0 → s.pending ≠ [] →
      if s.world.context.ioContext.readableCb.isSome then s.world.context.onRecv = true
      else s.available = true
  | .thread (.onConn (.handleReadableEvent _ _)) => s.pending ≠ [] → s.world.context.onRecv = true
  | _ => True

instance (s : Incoming α) (l : IncomingLabel α) : Decidable (s.Prompt l) :=
  match l with
  | .thread (.handle _ _) =>
    inferInstanceAs (Decidable ((s.world.context.ioContext.revents &&& epollin) ≠ 0 → s.pending ≠ [] →
      if s.world.context.ioContext.readableCb.isSome then s.world.context.onRecv = true
      else s.available = true))
  | .thread (.onConn (.handleReadableEvent _ _)) =>
    inferInstanceAs (Decidable (s.pending ≠ [] → s.world.context.onRecv = true))
  | .thread (.onConn (.call _)) | .thread (.onConn .handleWritableEvent) | .thread .advance |
    .thread (.poll _) | .arrive _ => inferInstanceAs (Decidable True)

end Incoming

/-- The `i`-th byte to arrive was in `__buffer` during an invocation of `onRecv`. -/
def ShownAt (w : World α) (input : List α) (i : Nat) : Prop :=
  ∃ m ∈ w.history, ∃ taken, m.event = .onRecv (taken ++ m.context.buffer.bytes) ∧
    taken ++ m.context.buffer.bytes <+: input ∧ taken.length ≤ i ∧
      i < (taken ++ m.context.buffer.bytes).length

/-- What was read is the beginning of what has arrived, and all of it was shown. -/
structure Accounted (w : World α) (input : List α) : Prop where
  arrived : w.wire.delivered <+: input
  seen : w.seen = w.wire.delivered
  shown : ∀ i < w.wire.delivered.length, ShownAt w input i

namespace Accounted
variable {input data : List α}

theorem arrive (h : Accounted w input) (b : α) : Accounted w (input ++ [b]) where
  arrived := h.arrived.trans (List.prefix_append _ _)
  seen := h.seen
  shown := fun i hi => by
    obtain ⟨m, hm, taken, he, hp, hfacts⟩ := h.shown i hi
    exact ⟨m, hm, taken, he, hp.trans (List.prefix_append _ _), hfacts⟩

theorem hears (h : Accounted w input) (hh : Hears w w' data)
    (hd : data <+: input.drop w.wire.delivered.length) : Accounted w' input := by
  have harrived : w.wire.delivered ++ data <+: input := by
    obtain ⟨rest, rfl⟩ := h.arrived
    rw [List.drop_left] at hd
    exact (List.prefix_append_right_inj _).2 hd
  refine ⟨hh.delivered ▸ harrived, by rw [hh.seen, hh.delivered, h.seen], fun i hi => ?_⟩
  by_cases hold : i < w.wire.delivered.length
  · obtain ⟨m, hm, hfacts⟩ := h.shown i hold
    exact ⟨m, hh.grew.mem hm, hfacts⟩
  · rw [hh.delivered, List.length_append] at hi
    have hne : data ≠ [] := by
      rintro rfl
      simp at hi
      omega
    obtain ⟨m, hm, taken, he, hall, htaken⟩ := hh.shown hne
    rw [h.seen] at hall htaken
    refine ⟨m, hm, taken, he, hall ▸ harrived, by omega, ?_⟩
    rw [hall, List.length_append]
    exact hi

end Accounted

namespace Incoming
variable [Zero α] {s s' : Incoming α}

/-- A connection on its way: what was read was shown, and pending bytes have an event that
is available or about to be handled. -/
structure Told (r : Nat) (s : Incoming α) : Prop where
  staged : Staged r s.phase s.world
  accounted : Accounted s.world s.arrived
  waiting : 0 < s.phase.rank → s.pending ≠ [] → s.available = true ∨
    s.polled = true ∧ (s.world.context.ioContext.revents &&& epollin) ≠ 0

omit [Zero α] in
theorem Told.arrive (h : Told r s) (b : α) :
    Told r { s with arrived := s.arrived ++ [b], available := s.available || (s.entry r).isSome } where
  staged := h.staged
  accounted := h.accounted.arrive b
  waiting := fun hrank _ => by
    have hentry : (s.entry r).isSome = true := by
      rw [entry, h.staged.interest, Phase.entry, if_pos hrank]
      rfl
    exact .inl (by simp [hentry])

omit [Zero α] in
/-- A thread moves, having read nothing or all that was pending. -/
theorem Told.moves {t : Setup α} {available : Bool} {data : List α} (h : Told r s)
    (hstaged : Staged r t.phase t.world) (hh : Hears s.world t.world data)
    (hall : data = [] ∨ data = s.pending)
    (hw : data ≠ s.pending → 0 < t.phase.rank → s.pending ≠ [] → available = true ∨
      t.polled = true ∧ (t.world.context.ioContext.revents &&& epollin) ≠ 0) :
    Told r { toSetup := t, arrived := s.arrived, available } := by
  refine ⟨hstaged, h.accounted.hears hh ?_, fun hrank hne => ?_⟩
  · rcases hall with rfl | rfl
    · exact List.nil_prefix
    · exact List.prefix_refl _
  · have hpending : ({ toSetup := t, arrived := s.arrived, available } : Incoming α).pending =
        s.pending.drop data.length := by
      simp only [pending, hh.delivered, List.length_append, List.drop_drop]
    by_cases hdata : data = s.pending
    · rw [hpending, hdata, List.drop_length] at hne
      exact absurd rfl hne
    · refine hw hdata hrank fun hnil => hne ?_
      rw [hpending, hnil, List.drop_nil]

omit [Zero α] in
theorem advanced_hears (h : Advanced r w w') : Hears w w' [] where
  seen := by rw [List.append_nil, h.seen]
  delivered := by rw [List.append_nil, h.delivered]
  grew := h.grew.mono fun _ _ => trivial
  shown := fun hne => absurd rfl hne

theorem Told.onConn {c : PublicCall α} {t : Setup α} (h : Told r s)
    (hs : s.toSetup.onConn c = some t) (hg : s.Genuine (.onConn c))
    (hp : s.Prompt (.thread (.onConn c))) (hstaged : Staged r t.phase t.world) :
    Told r { toSetup := t, arrived := s.arrived, available := s.available } ∨
      t.world.destroyerCalls ≠ 0 := by
  obtain ⟨hphase, w, hrun, rfl⟩ := onConn_inv hs
  have hio := ioContext_of_effect (c.exec_effect (w := s.world))
  rw [hrun] at hio
  have waits {data : List α} (_ : data ≠ s.pending) (hrank : 0 < s.phase.rank) (hne : s.pending ≠ []) :
      s.available = true ∨ s.polled = true ∧ (w.context.ioContext.revents &&& epollin) ≠ 0 := by
    rw [show w.context.ioContext = s.world.context.ioContext from hio]
    exact h.waiting hrank hne
  cases c with
  | call c =>
    have hset := Settles.of_effect (settles_of_effect (c.exec_effect (w := s.world)))
    rw [show c.exec s.world = .ok ⟨⟩ w from hrun] at hset
    exact .inl (h.moves hstaged hset.hears (.inl rfl) waits)
  | handleWritableEvent =>
    have hset := Settles.of_effect (handleWritableEvent_settles (w := s.world))
    obtain ⟨ret, w₁, hrun, hret⟩ := bind_inv hrun
    cases hret
    rw [hrun] at hset
    exact .inl (h.moves hstaged hset.hears (.inl rfl) waits)
  | handleReadableEvent burst callback =>
    obtain ⟨ret, w₁, hrun, hret⟩ := bind_inv hrun
    cases hret
    have hr : burst.bytes ≠ [] → s.world.context.onRecv = true := by
      intro hne
      exact hp fun hnil => hne (List.prefix_nil.1 (hnil ▸ hg.1))
    rcases ReadEvent.handle_hears ⟨burst, callback⟩ h.staged.live h.staged.positive hrun hr with
      hcalls | ⟨hlast, hh⟩
    · exact .inr hcalls
    · exact .inl (h.moves hstaged hh (.inr (hg.2 hlast)) waits)

theorem Told.handle {burst : Burst α} {callback : List (Call α)} {t : Setup α} (h : Told r s)
    (hs : s.toSetup.handle burst callback = some t) (hg : s.Genuine (.handle burst callback))
    (hp : s.Prompt (.thread (.handle burst callback))) (hstaged : Staged r t.phase t.world) :
    Told r { toSetup := t, arrived := s.arrived, available := s.available } ∨
      t.world.destroyerCalls ≠ 0 := by
  obtain ⟨_, w, hrun, rfl⟩ := handle_inv hs
  have hreadable := h.staged.readable
  have hwritable := h.staged.writable
  have hr : (s.world.context.ioContext.revents &&& epollin) ≠ 0 →
      s.world.context.ioContext.readableCb = some .handleReadableEvent → burst.bytes ≠ [] →
        s.world.context.onRecv = true := by
    intro hmask hcb hne
    have hprompt := hp hmask fun hnil => hne (List.prefix_nil.1 (hnil ▸ hg.1))
    rwa [hcb] at hprompt
  have hgeneral := handleGeneral_hears h.staged.live h.staged.positive h.staged.reactor
    (by rw [hreadable]; split <;> simp) (by rw [hwritable]; split <;> simp) hrun hr
  cases hgeneral with
  | destroyed hcalls => exact .inr hcalls
  | read hmask hcb hlast hh =>
    exact .inl (h.moves hstaged hh (.inr (hg.2 hlast)) fun hne => absurd (hg.2 hlast) hne)
  | skipped hskip hh =>
    refine .inl (h.moves hstaged hh (.inl rfl) fun _ hrank hne => .inl ?_)
    rcases h.waiting hrank hne with havail | ⟨_, hmask⟩
    · exact havail
    · have hcb := hskip.resolve_left hmask
      have hprompt := hp hmask hne
      rwa [hcb] at hprompt

variable [DecidableEq α]

/-- Every prompt step keeps the bytes accounted for, or the destroyer has been called. -/
theorem Told.step {l : IncomingLabel α} (h : Told r s) (hs : s.step r l = some s')
    (hp : s.Prompt l) : Told r s' ∨ s'.world.destroyerCalls ≠ 0 := by
  cases l with
  | arrive b =>
    cases hs
    exact .inl (h.arrive b)
  | thread l =>
    simp only [Incoming.step] at hs
    split at hs
    · rename_i hg
      obtain ⟨t, ht, rfl⟩ := Option.map_eq_some_iff.1 hs
      rcases h.staged.step ht with ⟨hstaged, _⟩ | ⟨_, _, _, hcalls⟩
      · cases l with
        | advance =>
          obtain ⟨hphase, w, hrun, rfl⟩ := advance_inv ht
          obtain ⟨w', hrun', _, hadv⟩ := h.staged.exec hphase true
          rw [hrun] at hrun'
          cases hrun'
          refine .inl (h.moves hstaged (advanced_hears hadv) (.inl rfl) fun _ _ hne => ?_)
          by_cases hrank : 0 < s.phase.rank
          · rcases h.waiting hrank hne with havail | ⟨hpolled, hmask⟩
            · exact .inl (by simp [edge, havail])
            · exact .inr ⟨hpolled, by rwa [hadv.revents]⟩
          · refine .inl ?_
            have hlt : s.phase.rank < 3 := by omega
            simp [edge, hlt, hne]
        | onConn c => exact h.onConn ht hg hp hstaged
        | poll mask =>
          obtain ⟨hpolled, _, _, w, hrun, rfl⟩ := poll_inv ht
          rw [setRevents_run h.staged.live h.staged.reactor mask] at hrun
          cases hrun
          have hh : Hears s.world (s.world.polled mask) [] :=
            ⟨(List.append_nil _).symm, (List.append_nil _).symm, ⟨[⟨.assign, _⟩], rfl, by simp⟩,
              fun hne => absurd rfl hne⟩
          refine .inl (h.moves hstaged hh (.inl rfl) fun _ hrank hne => .inr ⟨rfl, ?_⟩)
          rcases h.waiting hrank hne with havail | ⟨hbusy, _⟩
          · exact hg havail hne
          · rw [hpolled] at hbusy
            cases hbusy
        | handle burst callback => exact h.handle ht hg hp hstaged
      · exact .inr (by rw [hcalls]; exact Nat.succ_ne_zero _)
    · cases hs

end Incoming

end Netier
