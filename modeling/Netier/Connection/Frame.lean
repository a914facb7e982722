import Netier.Connection.Effects

/-! What the actions leave alone: the frame of every output and input call, the state
machine of a connection, and the bounds on what the kernel takes at once. -/
namespace Netier
open Lib
variable {α : Type} {w w' w'' : World α}

/-- What the application has been offered so far: the bytes it took, then `__buffer`. -/
def World.seen (w : World α) : List α := w.taken ++ w.context.buffer.bytes

def Event.isDestroyer : Event α → Bool
  | .destroyer => true
  | _ => false

/-- How often the destroyer has been called. -/
def World.destroyerCalls (w : World α) : Nat := w.history.countP fun m => m.event.isDestroyer

@[simp] theorem destroyerCalls_log (w : World α) (e : Event α) :
    (w.log e).destroyerCalls = w.destroyerCalls + if e.isDestroyer then 1 else 0 := by
  simp [World.destroyerCalls, World.log, List.countP_cons]

@[simp] theorem destroyerCalls_assign (w : World α) (c : Context α) :
    (w.assign c).destroyerCalls = w.destroyerCalls := by
  simp [World.destroyerCalls, World.assign, World.log, Event.isDestroyer]

@[simp] theorem destroyerCalls_sysWrite (w : World α) (buf : List α) :
    (w.sysWrite buf).2.destroyerCalls = w.destroyerCalls := by
  cases hw : w.wire.answers 0 <;>
    simp [World.sysWrite, hw, World.destroyerCalls, World.log, Event.isDestroyer]

@[simp] theorem destroyerCalls_sysRead (w : World α) (writer : Nat) (answer : ReadAnswer α) :
    (w.sysRead writer answer).2.destroyerCalls = w.destroyerCalls := by
  cases answer <;> simp [World.sysRead, World.destroyerCalls, World.log, Event.isDestroyer]

/-- The frame of everything a connection does while it stays in the registry. -/
structure Framed (w w' : World α) : Prop where
  socket : w'.context.socket = w.context.socket
  ioContext : w'.context.ioContext = w.context.ioContext
  freed : w'.freed = w.freed
  inserted : w'.inserted = w.inserted
  fds : w'.kernel.fds = w.kernel.fds
  interest : w'.kernel.interest = w.kernel.interest
  calls : w'.destroyerCalls = w.destroyerCalls

namespace Framed

theorem refl (w : World α) : Framed w w := ⟨rfl, rfl, rfl, rfl, rfl, rfl, rfl⟩

theorem trans (h : Framed w w') (h' : Framed w' w'') : Framed w w'' where
  socket := h'.socket.trans h.socket
  ioContext := h'.ioContext.trans h.ioContext
  freed := h'.freed.trans h.freed
  inserted := h'.inserted.trans h.inserted
  fds := h'.fds.trans h.fds
  interest := h'.interest.trans h.interest
  calls := h'.calls.trans h.calls

end Framed

theorem Steps.framed (h : Steps Act.IsWork w w') : Framed w w' := by
  obtain ⟨a, ha, _, rfl⟩ := h
  cases a with
  | buffer | wbuffer | state | setOnRecv =>
    exact ⟨rfl, rfl, rfl, rfl, rfl, rfl, destroyerCalls_assign _ _⟩
  | take => exact ⟨rfl, rfl, rfl, rfl, rfl, rfl, destroyerCalls_assign _ _⟩
  | fopen => exact ⟨rfl, rfl, rfl, rfl, rfl, rfl, rfl⟩
  | invoke => exact ⟨rfl, rfl, rfl, rfl, rfl, rfl, destroyerCalls_log _ _⟩
  | write buf =>
    refine ⟨?_, ?_, ?_, ?_, ?_, ?_, destroyerCalls_sysWrite w buf⟩
    all_goals cases hw : w.wire.answers 0 <;> simp [World.next, World.sysWrite, hw]
  | read writer answer =>
    refine ⟨?_, ?_, ?_, ?_, ?_, ?_, destroyerCalls_sysRead w writer answer⟩
    all_goals cases answer <;> rfl
  | _ => exact ha.elim

/-- The quiet calls also leave what was received as it was. -/
structure Kept (w w' : World α) : Prop extends Framed w w' where
  onRecv : w'.context.onRecv = w.context.onRecv
  seen : w'.seen = w.seen
  delivered : w'.wire.delivered = w.wire.delivered

theorem Kept.refl (w : World α) : Kept w w := ⟨.refl w, rfl, rfl, rfl⟩

theorem Kept.trans (h : Kept w w') (h' : Kept w' w'') : Kept w w'' where
  toFramed := h.toFramed.trans h'.toFramed
  onRecv := h'.onRecv.trans h.onRecv
  seen := h'.seen.trans h.seen
  delivered := h'.delivered.trans h.delivered

theorem Steps.kept (h : Steps Act.IsQuiet w w') : Kept w w' := by
  refine ⟨(h.mono fun _ ha => ha.work).framed, ?_, ?_, ?_⟩
  all_goals
    obtain ⟨a, ha, _, rfl⟩ := h
    cases a with
    | wbuffer | state | fopen => rfl
    | write buf => cases hw : w.wire.answers 0 <;> simp [World.next, World.sysWrite, World.seen, hw]
    | take => simp [World.next, World.take, World.seen, Buffer.clear, Buffer.empty]
    | _ => exact ha.elim

section Effect
variable {β : Type} {x : Exec α β}

theorem kept_of_effect (hx : Effect (Steps Act.IsQuiet) x w) : Kept w (final (x w)) :=
  hx.keeps (I := Kept w) (fun _ _ h hs => h.trans hs.kept) (Kept.refl w)

theorem framed_of_effect (hx : Effect (Steps Act.IsWork) x w) :
    Framed w (final (x w)) :=
  hx.keeps (I := Framed w) (fun _ _ h hs => h.trans hs.framed) (Framed.refl w)

end Effect

/-- What is freed stays freed. -/
theorem Steps.freed {S : Act α → Prop} (h : Steps S w w') (hf : w.freed = true) : w'.freed = true := by
  obtain ⟨a, _, _, rfl⟩ := h
  cases a with
  | write buf => simpa [World.next] using hf
  | read writer answer => simpa [World.next] using hf
  | release => rfl
  | _ => exact hf

/-- No action moves a connection to another socket. -/
theorem Steps.socket {S : Act α → Prop} (h : Steps S w w') : w'.context.socket = w.context.socket := by
  obtain ⟨a, _, _, rfl⟩ := h
  cases a with
  | write buf => simp [World.next]
  | read writer answer => cases answer <;> rfl
  | _ => rfl

theorem socket_of_effect {S : Act α → Prop} {β : Type} {x : Exec α β} (hx : Effect (Steps S) x w) :
    (final (x w)).context.socket = w.context.socket :=
  hx.keeps (I := fun v => v.context.socket = w.context.socket) (fun _ _ h hs => hs.socket.trans h) rfl

/-- A live object whose state is known and not MOVED, over a descriptor `getFd` accepts. -/
structure Healthy (w : World α) : Prop where
  live : w.freed = false
  state : ∃ s, w.context.state = some s ∧ s ≠ .moved
  positive : 0 < w.context.socket.fd

/-- The state machine of a connection: VALID is left at most once. -/
def Leaves (s s' : Option State) : Prop :=
  s' = s ∨ s = some .valid ∧ (s' = some .closed ∨ s' = some .invalid)

theorem Leaves.trans {s s' s'' : Option State} (h : Leaves s s') (h' : Leaves s' s'') :
    Leaves s s'' := by
  rcases h with rfl | ⟨rfl, hs'⟩
  · exact h'
  · rcases h' with rfl | ⟨rfl, _⟩
    · exact .inr ⟨rfl, hs'⟩
    · simp at hs'

theorem Leaves.of_valid {s : Option State} (h : Leaves s (some .valid)) : s = some .valid := by
  rcases h with h | ⟨h, _⟩
  · exact h.symm
  · exact h

theorem Leaves.eq_of_ne {s s' : Option State} (h : Leaves s s') (hs : s ≠ some .valid) : s' = s := by
  rcases h with h | ⟨h, _⟩
  · exact h
  · exact absurd h hs

theorem Steps.leaves {S : Act α → Prop} (h : Steps S w w') :
    Leaves w.context.state w'.context.state := by
  obtain ⟨a, _, he, rfl⟩ := h
  cases a with
  | state s =>
    obtain ⟨ho, hs⟩ := he
    exact .inr ⟨ho.valid, by simpa [World.next] using hs⟩
  | deregister r => exact .inl rfl
  | read writer answer => exact .inl (by simp [World.next])
  | write buf => exact .inl (by simp [World.next])
  | _ => exact .inl rfl

theorem leaves_of_effect {S : Act α → Prop} {β : Type} {x : Exec α β} (hx : Effect (Steps S) x w) :
    Leaves w.context.state (final (x w)).context.state :=
  hx.keeps (I := fun v => Leaves w.context.state v.context.state)
    (fun _ _ h hs => h.trans hs.leaves) (.inl rfl)

/-- What is no longer open does not become so again. -/
theorem Steps.open_before {S : Act α → Prop} (hs : Steps S w w') (ho : Open w') : Open w := by
  refine ⟨?_, (ho.valid ▸ hs.leaves).of_valid⟩
  by_contra hf
  have hfreed := hs.freed (by simpa using hf)
  rw [ho.live] at hfreed
  cases hfreed

theorem not_open_of_effect {S : Act α → Prop} {β : Type} {x : Exec α β} (hx : Effect (Steps S) x w)
    (h : ¬ Open w) : ¬ Open (final (x w)) :=
  hx.keeps (I := fun v => ¬ Open v) (fun _ _ hv hs ho => hv (hs.open_before ho)) h

theorem Healthy.of_framed (h : Healthy w) (hk : Framed w w')
    (hl : Leaves w.context.state w'.context.state) : Healthy w' := by
  obtain ⟨s, hs, hm⟩ := h.state
  refine ⟨hk.freed.trans h.live, ?_, by rw [hk.socket]; exact h.positive⟩
  rcases hl with he | ⟨_, he | he⟩
  · exact ⟨s, he.trans hs, hm⟩
  · exact ⟨_, he, by decide⟩
  · exact ⟨_, he, by decide⟩

/-- The most that Linux transfers in one `write(2)`. -/
def writeMax : Nat := 0x7ffff000

/-- Every count the kernel will return stays within the limit. -/
def World.Fits (w : World α) : Prop := ∀ i n, w.wire.answers i = .room n → n ≤ writeMax

theorem World.Fits.sysWrite (h : w.Fits) (buf : List α) : (w.sysWrite buf).2.Fits := by
  intro i n hn
  apply h (i + 1) n
  cases ha : w.wire.answers 0 <;> simpa [World.sysWrite, ha] using hn

theorem Steps.fits {S : Act α → Prop} (hs : Steps S w w') (h : w.Fits) : w'.Fits := by
  obtain ⟨a, _, _, rfl⟩ := hs
  cases a with
  | write buf => exact h.sysWrite buf
  | read writer answer => cases answer <;> exact h
  | _ => exact h

theorem World.Fits.of_effect {S : Act α → Prop} {β : Type} {x : Exec α β} (h : w.Fits)
    (hx : Effect (Steps S) x w) : (final (x w)).Fits :=
  hx.keeps (I := World.Fits) (fun _ _ h hs => hs.fits h) h

/-- The conversion to `int` changes no count the kernel will return for `n` bytes at most. -/
def World.Counts (w : World α) (n : Nat) : Prop :=
  ∀ i k, w.wire.answers i = .room k → min k n < 2147483648

theorem World.Fits.counts (h : w.Fits) (n : Nat) : w.Counts n := by
  intro i k hk
  have hle := h i k hk
  simp only [writeMax] at hle
  omega

theorem World.counts_of_lt {n : Nat} (h : n < 2147483648) : w.Counts n :=
  fun _ _ _ => Nat.lt_of_le_of_lt (Nat.min_le_right _ _) h

theorem World.Counts.mono {m n : Nat} (h : w.Counts n) (hle : m ≤ n) : w.Counts m := by
  intro i k hk
  have hlt := h i k hk
  omega

theorem World.Counts.later {n used : Nat} (h : w.Counts n)
    (hw : w'.wire.answers = fun i => w.wire.answers (i + used)) : w'.Counts n := by
  intro i k hk
  rw [hw] at hk
  exact h (i + used) k hk

end Netier
