import Netier.Lib.Flags
import Netier.Socket.Acceptor

/-! `setBlocking` and the flags of a descriptor: what a sequence of calls makes of them, and
what that means for the listening socket of an `Acceptor`. -/
namespace Netier
open Lib

/-- `accept(2)` waits if no connection is pending and the flags do not forbid it. -/
def Descriptors.AcceptBlocks (d : Descriptors) (fd : Fd) (pending : List NewDescriptor) : Prop :=
  pending = [] ∧ d.flags fd &&& oNonblock = 0

def setBlockings (s : Socket) : List Bool → OnDescriptors Unit
  | [] => pure ()
  | b :: bs => do
    s.setBlocking b
    setBlockings s bs

/-- After the calls `O_NONBLOCK` is as the last one names it, and no other flag, of this or any
other descriptor, has changed. -/
def SetsAsNamed (s : Socket) (bs : List Bool) (last : Bool) (d : Descriptors) : Prop :=
  ∃ d', setBlockings s (bs ++ [last]) d = .ok ⟨⟩ d' ∧
    Sets oNonblock (if last then 0 else oNonblock) (d.flags s.fd) (d'.flags s.fd) ∧
      ∀ fd, fd ≠ s.fd → d'.flags fd = d.flags fd

/-- No call clears a flag: where the last one sets the descriptor to block, none before it set
it not to, or there is no other flag; where it sets it not to block, neither did any
before it, and the flags are `O_NONBLOCK` and nothing else. -/
def Harmless (bs : List Bool) (last : Bool) (flags : StatusFlags) : Prop :=
  if last then false ∉ bs ∨ flags &&& ~~~oNonblock = 0 else true ∉ bs ∧ flags = oNonblock

section Calls
variable {s : Socket} {d : Descriptors}

/-- Each call reads the flags that the one before it stored. -/
theorem setBlockings_run (bs : List Bool) (hfd : 0 < s.fd) (hopen : s.fd ∈ d.kernel.fds) :
    ∃ d', setBlockings s bs d = .ok ⟨⟩ d' ∧
      d'.flags s.fd = bs.foldl (fun flags b => Socket.blockingFlags b flags) (d.flags s.fd) ∧
      ∀ fd, fd ≠ s.fd → d'.flags fd = d.flags fd := by
  induction bs generalizing d with
  | nil => exact ⟨d, rfl, rfl, fun _ _ => rfl⟩
  | cons b bs ih =>
    have hstep := setBlocking_run b hfd (d := d)
    rw [Descriptors.getFl_of_open hopen] at hstep
    obtain ⟨d', hrun, hself, hother⟩ :=
      ih (d := d.setFl s.fd (Socket.blockingFlags b (d.flags s.fd))) (by simpa using hopen)
    refine ⟨d', by rw [setBlockings, bind_of_ok hstep, hrun], ?_, fun fd hne => ?_⟩
    · rw [hself, Descriptors.setFl_self _ hopen, List.foldl_cons]
    · rw [hother fd hne, Descriptors.setFl_other _ _ hne]

end Calls

section Flags
variable {flags : StatusFlags} {bs : List Bool} {last : Bool}

/-- The bits that a branch of `setBlocking` leaves. -/
def blockingMask (block : Bool) : StatusFlags := if block then ~~~oNonblock else oNonblock

theorem foldl_blockingFlags (bs : List Bool) (flags : StatusFlags) :
    bs.foldl (fun flags b => Socket.blockingFlags b flags) flags =
      bs.foldl (fun flags b => flags &&& blockingMask b) flags := by
  congr
  funext flags b
  cases b <;> rfl

/-- The other flags survive until the descriptor is first set not to block, and `O_NONBLOCK`
until it is first set to block. -/
theorem blockingFlags_kept (bs : List Bool) (flags : StatusFlags) (block : Bool) :
    bs.foldl (fun flags b => Socket.blockingFlags b flags) flags &&& blockingMask block =
      if (!block) ∈ bs then 0 else flags &&& blockingMask block := by
  rw [foldl_blockingFlags]
  refine foldl_and blockingMask (fun c => ?_) bs flags block
  cases c with
  | true => exact BitVec.and_not_self _
  | false => exact BitVec.not_and_self _

theorem blockingFlags_sets_iff (bs : List Bool) (last : Bool) (flags : StatusFlags) :
    Sets oNonblock (if last then 0 else oNonblock) flags
        ((bs ++ [last]).foldl (fun flags b => Socket.blockingFlags b flags) flags) ↔
      Harmless bs last flags := by
  have hothers : bs.foldl (fun flags b => Socket.blockingFlags b flags) flags &&& ~~~oNonblock =
      if false ∈ bs then 0 else flags &&& ~~~oNonblock := blockingFlags_kept bs flags true
  have hnonblock : bs.foldl (fun flags b => Socket.blockingFlags b flags) flags &&& oNonblock =
      if true ∈ bs then 0 else flags &&& oNonblock := blockingFlags_kept bs flags false
  have hbit : ¬ 0#32 = oNonblock := by decide
  rw [List.foldl_append, List.foldl_cons, List.foldl_nil]
  generalize bs.foldl (fun flags b => Socket.blockingFlags b flags) flags = before at *
  cases last with
  | true =>
    show Sets oNonblock 0 flags (before &&& ~~~oNonblock) ↔
      false ∉ bs ∨ flags &&& ~~~oNonblock = 0
    rw [clear_sets_iff, hothers]
    by_cases hfalse : false ∈ bs
    · simp [hfalse, eq_comm]
    · simp [hfalse]
  | false =>
    show Sets oNonblock oNonblock flags (before &&& oNonblock) ↔ true ∉ bs ∧ flags = oNonblock
    rw [mask_sets_iff, hnonblock]
    by_cases htrue : true ∈ bs
    · simp [htrue, hbit]
    · simp [htrue, eq_mask_iff (a := flags)]

end Flags

/-- The calls do what they name exactly if none of them clears a flag. -/
theorem setBlockings_named_iff {s : Socket} {d : Descriptors} (bs : List Bool) (last : Bool)
    (hfd : 0 < s.fd) (hopen : s.fd ∈ d.kernel.fds) :
    SetsAsNamed s bs last d ↔ Harmless bs last (d.flags s.fd) := by
  obtain ⟨d', hrun, hself, hother⟩ := setBlockings_run (bs ++ [last]) hfd hopen
  rw [← blockingFlags_sets_iff, ← hself]
  constructor
  · rintro ⟨d'', hrun', hsets, _⟩
    rw [hrun] at hrun'
    cases hrun'
    exact hsets
  · intro hsets
    exact ⟨d', hrun, hsets, hother⟩

section Construction
variable {d d' : Descriptors} {o : NewDescriptor}

/-- `Socket(bool)` makes the first call, on the flags that `socket(2)` gave. -/
theorem createBlocking_run (block : Bool) (hfd : 0 < o.fd) :
    Socket.createBlocking (some o) block d =
      (do setBlockings ⟨o.fd⟩ [block]; pure ⟨o.fd⟩ : OnDescriptors Socket) (d.add o) := by
  have hset := setBlocking_run (s := ⟨o.fd⟩) block hfd (d := d.add o)
  have hfirst : setBlockings ⟨o.fd⟩ [block] (d.add o) = .ok ⟨⟩ _ := bind_of_ok hset
  rw [Socket.createBlocking, bind_of_ok (create_run o d), asserted _ (by simpa using hfd),
    bind_of_ok hset, bind_of_ok hfirst]

/-- Whether `accept(2)` may wait shows in the flags. -/
theorem never_blocks_iff (fd : Fd) :
    (∀ pending, ¬ d.AcceptBlocks fd pending) ↔ d.flags fd &&& oNonblock ≠ 0 := by
  constructor
  · intro h heq
    exact h [] ⟨rfl, heq⟩
  · rintro h pending ⟨_, heq⟩
    exact h heq

/-- The listening socket of an acceptor does not block exactly if it did not from the start. -/
theorem acceptor_never_blocks_iff {address r : Nat} {bindFailed listenFailed : Bool} {a : Acceptor}
    (h : Acceptor.create (some o) address r bindFailed listenFailed d = .ok a d') :
    (∀ pending, ¬ d'.AcceptBlocks a.socket.fd pending) ↔ o.flags &&& oNonblock ≠ 0 := by
  obtain ⟨_, hsocket, hflags, _⟩ := acceptor_create_inv h
  rw [never_blocks_iff, hsocket, hflags, BitVec.and_assoc, BitVec.and_self]

end Construction

/-- The calls set what they name and nothing else exactly if none of them clears a flag, and an
acceptor's `accept(2)` cannot block exactly if `socket(2)` gave it a socket that does not. -/
theorem setBlocking_iff (d : Descriptors) :
    (∀ (s : Socket) (bs : List Bool) (last : Bool), 0 < s.fd → s.fd ∈ d.kernel.fds →
      (SetsAsNamed s bs last d ↔ Harmless bs last (d.flags s.fd))) ∧
    ∀ (o : NewDescriptor) (address r : Nat) (bindFailed listenFailed : Bool) (a : Acceptor)
      (d' : Descriptors), Acceptor.create (some o) address r bindFailed listenFailed d = .ok a d' →
      ((∀ pending, ¬ d'.AcceptBlocks a.socket.fd pending) ↔ o.flags &&& oNonblock ≠ 0) :=
  ⟨fun _ bs last hfd hopen => setBlockings_named_iff bs last hfd hopen,
    fun _ _ _ _ _ _ _ h => acceptor_never_blocks_iff h⟩

/-- What `socket(2)` gives: descriptor 3, for reading and writing. -/
def plainSocket : NewDescriptor := ⟨3, 0x2⟩

theorem plainSocket_acceptor :
    ∃ a d', Acceptor.create (some plainSocket) 0 0 false false .start = .ok a d' := ⟨_, _, rfl⟩

theorem setBlocking_false_clears_the_flags :
    (¬ ∀ (s : Socket) (d : Descriptors) (bs : List Bool) (last : Bool), 0 < s.fd →
      s.fd ∈ d.kernel.fds → SetsAsNamed s bs last d) ∧
    ¬ ∀ (d d' : Descriptors) (o : NewDescriptor) (address r : Nat) (bindFailed listenFailed : Bool)
      (a : Acceptor), Acceptor.create (some o) address r bindFailed listenFailed d = .ok a d' →
      ∀ pending, ¬ d'.AcceptBlocks a.socket.fd pending := by
  constructor
  · intro h
    have hnamed := h ⟨3⟩ (.add .start plainSocket) [] false (by decide) (add_open _ _)
    obtain ⟨_, hflags⟩ := (setBlockings_named_iff [] false (by decide) (add_open _ plainSocket)).1 hnamed
    exact absurd hflags (by decide)
  · intro h
    obtain ⟨a, d', hrun⟩ := plainSocket_acceptor
    exact (acceptor_never_blocks_iff hrun).1 (h _ _ _ _ _ _ _ _ hrun) (by decide)

theorem setBlocking_for_plain_socket :
    (SetsAsNamed ⟨3⟩ [] true (.add .start plainSocket) ↔
      Harmless [] true ((Descriptors.start.add plainSocket).flags 3)) ∧
    ∃ a d', Acceptor.create (some plainSocket) 0 0 false false .start = .ok a d' ∧
      ((∀ pending, ¬ d'.AcceptBlocks a.socket.fd pending) ↔ plainSocket.flags &&& oNonblock ≠ 0) := by
  obtain ⟨a, d', hrun⟩ := plainSocket_acceptor
  exact ⟨(setBlocking_iff _).1 ⟨3⟩ [] true (by decide) (add_open _ plainSocket),
    a, d', hrun, (setBlocking_iff _).2 _ _ _ _ _ _ _ hrun⟩

end Netier
