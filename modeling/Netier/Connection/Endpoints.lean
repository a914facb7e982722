import Netier.Connection.Operations
import Netier.Connection.Overloads
import Netier.Connection.Passes

/-! Two endpoints: what one sends with `write(const std::string &)`, and what the callback of
the other gets from `readString()`. -/
namespace Netier
open Lib
variable {α : Type} {w w' sender peer : World α}

/-- The bytes `write` hands to the kernel for a string: `size()` of them and the terminator. -/
def StdString.terminated (s : StdString α) : List α := s.chars ++ [s.terminator]

/-- Every `write(2)` has room for each of the strings. -/
def World.Roomy (w : World α) (strings : List (StdString α)) : Prop :=
  ∀ i, ∃ n, w.wire.answers i = .room n ∧ ∀ s ∈ strings, s.terminated.length ≤ n

section Sending

theorem passes_at_once {answers : Nat → WriteAnswer} {k n : Nat} (h : answers 0 = .room k)
    (hn : 0 < n) (hle : n ≤ k) : passes answers n = ⟨[n], .done⟩ := by
  obtain ⟨k, rfl⟩ := Nat.exists_eq_add_of_lt (Nat.lt_of_lt_of_le hn hle)
  obtain ⟨n, rfl⟩ := Nat.exists_eq_add_of_lt hn
  have hmin : min (0 + k + 1) (0 + n + 1) = 0 + n + 1 := Nat.min_eq_right hle
  rw [passes, passesUpTo, if_neg (by omega), h]
  simp only [hmin, Nat.sub_self, passesUpTo]
  rfl

/-- A string that the kernel has room for goes out at once, with its terminator. -/
theorem writeString_run (s : StdString α) (h : Open w) (hfd : 0 < w.context.socket.fd) {k : Nat}
    (hroom : w.wire.answers 0 = .room k) (hle : s.terminated.length ≤ k)
    (hint : s.terminated.length < 2147483648) :
    ∃ w', writeString s w = .ok .success w' ∧
      w'.wire.accepted = w.wire.accepted ++ s.terminated ∧ w'.context = w.context ∧
      w'.freed = w.freed ∧ w'.wire.answers = fun i => w.wire.answers (i + 1) := by
  have hpos : 0 < s.terminated.length := by simp [StdString.terminated]
  have hlen : (toInt s.terminated.length).toNat = s.terminated.length := by
    rw [toInt_of_lt (by omega) (by omega), Int.toNat_natCast]
  have hpasses := passes_at_once hroom hpos hle
  obtain ⟨w', hwrote, hrun⟩ := syncWrite_passes h hfd s.terminated
    (World.counts_of_lt (by omega)) (p := ⟨[s.terminated.length], .done⟩) (by rw [hlen, hpasses])
  refine ⟨w', ?_, ?_, ?_, hwrote.live.trans h.live.symm, hwrote.answers⟩
  · rw [writeString_open h]
    exact hrun
  · rw [hwrote.accepted]
    simp
  · rw [hwrote.context, Stop.state, ← h.valid]

/-- All of them go out, in their order. -/
theorem sendStrings_run [Zero α] (strings : List (StdString α)) (h : Open w)
    (hfd : 0 < w.context.socket.fd) (hroom : w.Roomy strings)
    (hint : ∀ s ∈ strings, s.terminated.length < 2147483648) :
    ∃ w', runCalls (strings.map fun s => .output (.writeString s)) w = .ok ⟨⟩ w' ∧
      w'.wire.accepted = w.wire.accepted ++ strings.flatMap StdString.terminated := by
  induction strings generalizing w with
  | nil => exact ⟨w, rfl, (List.append_nil _).symm⟩
  | cons s strings ih =>
    obtain ⟨k, hk, hle⟩ := hroom 0
    obtain ⟨w₁, hrun, haccepted, hcontext, hfreed, hanswers⟩ :=
      writeString_run s h hfd hk (hle s List.mem_cons_self) (hint s List.mem_cons_self)
    have hroom₁ : w₁.Roomy strings := by
      intro i
      obtain ⟨n, hn, hall⟩ := hroom (i + 1)
      exact ⟨n, by rw [hanswers]; exact hn, fun s' hs => hall s' (List.mem_cons_of_mem _ hs)⟩
    obtain ⟨w', hrest, haccepted'⟩ := ih (w := w₁) ⟨hfreed.trans h.live, by rw [hcontext]; exact h.valid⟩
      (by rw [hcontext]; exact hfd) hroom₁ fun s' hs => hint s' (List.mem_cons_of_mem _ hs)
    refine ⟨w', ?_, ?_⟩
    · have hcall : (Call.output (.writeString s)).exec w = .ok ⟨⟩ w₁ := bind_of_ok hrun
      rw [List.map_cons, runCalls, bind_of_ok hcall, hrest]
    · rw [haccepted', haccepted, List.flatMap_cons, List.append_assoc]

end Sending

variable [Zero α]

/-- Readable events whose callback is a single `readString()`, with the strings it returns. -/
inductive Receives : World α → List (Burst α) → List (List α) → World α → Prop where
  | nil (w : World α) : Receives w [] [] w
  | cons {w v w₁ w' : World α} {b : Burst α} {bs : List (Burst α)} {s : List α} {ss : List (List α)}
      {ret : Int} : Reaches w b → readString (w.atOnRecv b) = .ok s v →
      handleReadableEvent b (runCalls [.readString]) w = .ok ret w₁ → Receives w₁ bs ss w' →
      Receives w (b :: bs) (s :: ss) w'

/-- An endpoint with nothing left to read, whose callback is installed. -/
structure Listening (w : World α) : Prop extends Open w where
  positive : 0 < w.context.socket.fd
  onRecv : w.context.onRecv = true
  empty : w.context.buffer.bytes = []

section Receiving
variable {b : Burst α} {bs : List (Burst α)} {ss : List (List α)}

/-- One event returns what it has read, and leaves the endpoint as it was. -/
theorem Listening.event (h : Listening w) (hlast : b.last.state = .valid) :
    ∃ v w₁, Reaches w b ∧ readString (w.atOnRecv b) = .ok b.bytes v ∧
      handleReadableEvent b (runCalls [.readString]) w = .ok 0 w₁ ∧ Listening w₁ := by
  have hreach : Reaches w b := ⟨h.toOpen, h.onRecv, hlast⟩
  obtain ⟨w₁, hat, ho₁, hcb, _, hrec⟩ := hreach.loop
  have ho : Open w₁.invoke := ⟨ho₁.live, ho₁.valid⟩
  have hbuf : w₁.context.buffer.bytes = b.bytes := by
    rw [hrec.context]
    simp [h.empty]
  have hread : readString w₁.invoke = .ok b.bytes w₁.invoke.take := by
    rw [readString, guarded_open ho, bind_of_ok (this_run ho.live), bind_of_ok (modify_run _ _), ← hbuf]
    rfl
  have htaken : Open w₁.invoke.take := ⟨ho.live, ho.valid⟩
  have hcalls : runCalls [.readString] w₁.invoke = .ok ⟨⟩ w₁.invoke.take := by
    have hcall : (Call.readString : Call α).exec w₁.invoke = .ok ⟨⟩ w₁.invoke.take := bind_of_ok hread
    rw [runCalls, bind_of_ok hcall]
    rfl
  refine ⟨_, w₁.invoke.take.log (.returned .readable 0), hreach, by rw [hat]; exact hread, ?_, ?_⟩
  · rw [handleReadableEvent_reaches hreach h.positive, hat, bind_of_ok hcalls,
      bind_of_ok (stateCleanup_valid htaken)]
    rfl
  · refine ⟨⟨htaken.live, htaken.valid⟩, ?_, hcb, rfl⟩
    have hsocket : w₁.context.socket = w.context.socket := by rw [hrec.context]; rfl
    exact hsocket ▸ h.positive

theorem Listening.receives (h : Listening w) (hlast : ∀ b ∈ bs, b.last.state = .valid) :
    ∃ ss w', Receives w bs ss w' ∧ ss.flatten = bs.flatMap Burst.bytes := by
  induction bs generalizing w with
  | nil => exact ⟨[], w, .nil w, rfl⟩
  | cons b bs ih =>
    obtain ⟨v, w₁, hreach, hread, hrun, h₁⟩ := h.event (hlast b List.mem_cons_self)
    obtain ⟨ss, w', hrest, hflat⟩ := ih h₁ fun b' hb => hlast b' (List.mem_cons_of_mem _ hb)
    exact ⟨b.bytes :: ss, w', .cons hreach hread hrun hrest, by simp [hflat]⟩

/-- However the stream was cut into blocks and events, the strings are its bytes. -/
theorem Receives.flatten (h : Receives w bs ss w') (hl : Listening w)
    (hlast : ∀ b ∈ bs, b.last.state = .valid) : ss.flatten = bs.flatMap Burst.bytes := by
  induction h with
  | nil => rfl
  | cons _ hread hrun _ ih =>
    obtain ⟨v, w₁, _, hread', hrun', h₁⟩ := hl.event (hlast _ List.mem_cons_self)
    rw [hread] at hread'
    rw [hrun] at hrun'
    cases hread'
    cases hrun'
    rw [List.flatten_cons, List.flatMap_cons,
      ih h₁ fun b hb => hlast b (List.mem_cons_of_mem _ hb)]

end Receiving

/-- However the kernel cuts the stream, what `readString()` returns in all is each string that
was written, followed by its terminator. -/
theorem strings_arrive_terminated (strings : List (StdString α)) (bursts : List (Burst α))
    (hs : Open sender) (hfd : 0 < sender.context.socket.fd) (hroom : sender.Roomy strings)
    (hint : ∀ s ∈ strings, s.terminated.length < 2147483648) (hp : Listening peer)
    (hlast : ∀ b ∈ bursts, b.last.state = .valid) :
    ∃ sender', runCalls (strings.map fun s => .output (.writeString s)) sender = .ok ⟨⟩ sender' ∧
      (sender'.wire.accepted = sender.wire.accepted ++ bursts.flatMap Burst.bytes →
        (∃ received peer', Receives peer bursts received peer') ∧
        ∀ received peer', Receives peer bursts received peer' →
          received.flatten = strings.flatMap fun s => s.chars ++ [s.terminator]) := by
  obtain ⟨sender', hrun, haccepted⟩ := sendStrings_run strings hs hfd hroom hint
  refine ⟨sender', hrun, fun hstream => ⟨?_, fun received peer' hrec => ?_⟩⟩
  · obtain ⟨received, peer', hrec, _⟩ := hp.receives hlast
    exact ⟨received, peer', hrec⟩
  · rw [haccepted, List.append_cancel_left_eq] at hstream
    rw [hrec.flatten hp hlast, ← hstream]
    rfl

/-- The string "a", and the readable event it arrives in. -/
def letter : StdString UInt8 := ⟨[0x61], 0⟩

def letterBurst : Burst UInt8 := ⟨[⟨[0x61, 0], by simp, by simp [readBufSize]⟩], .failed .eagain⟩

theorem setUp_listening (fd : Fd) (hfd : 0 < fd) (answers : Nat → WriteAnswer) :
    Listening (World.setUp 0 fd true answers : World UInt8) := by
  have h0 : Ready (World.setUp 0 fd true answers : World UInt8) 0 := setUp_ready hfd true answers
  exact ⟨h0.open, h0.positive, rfl, rfl⟩

theorem letter_roomy :
    (World.setUp 0 5 true fun _ => .room 2 : World UInt8).Roomy [letter] :=
  fun _ => ⟨2, rfl, by simp [letter, StdString.terminated]⟩

theorem letterBurst_again : ∀ b ∈ [letterBurst], b.last.state = .valid := by
  simp [letterBurst, ReadEnd.state, Errno.again]

/-- The terminator arrives as a character of its own. -/
theorem terminator_arrives :
    ¬ ∀ (strings : List (StdString UInt8)) (bursts : List (Burst UInt8)) (sender peer : World UInt8),
      Open sender → 0 < sender.context.socket.fd → sender.Roomy strings → Listening peer →
      (∀ b ∈ bursts, b.last.state = .valid) → ∀ sender' received peer',
        runCalls (strings.map fun s => .output (.writeString s)) sender = .ok ⟨⟩ sender' →
        sender'.wire.accepted = sender.wire.accepted ++ bursts.flatMap Burst.bytes →
        Receives peer bursts received peer' → received.flatten = strings.flatMap StdString.chars := by
  intro h
  have hs := setUp_listening 5 (by decide) fun _ => .room 2
  have hp := setUp_listening 6 (by decide) fullOnce
  obtain ⟨sender', hrun, haccepted⟩ := sendStrings_run [letter] hs.toOpen hs.positive letter_roomy
    (by simp [letter, StdString.terminated])
  obtain ⟨received, peer', hrec, hflat⟩ := hp.receives letterBurst_again
  have heq := h _ _ _ _ hs.toOpen hs.positive letter_roomy hp letterBurst_again _ _ _ hrun haccepted hrec
  rw [hflat] at heq
  exact absurd heq (by decide)

theorem letter_arrives_terminated :
    ∃ sender', runCalls ([letter].map fun s => .output (.writeString s))
        (World.setUp 0 5 true fun _ => .room 2) = .ok ⟨⟩ sender' ∧
      (sender'.wire.accepted = [0x61, 0] →
        (∃ received peer', Receives (World.setUp 0 6 true fullOnce) [letterBurst] received peer') ∧
        ∀ received peer', Receives (World.setUp 0 6 true fullOnce) [letterBurst] received peer' →
          received.flatten = [0x61, 0]) := by
  have hs := setUp_listening 5 (by decide) fun _ => .room 2
  have hp := setUp_listening 6 (by decide) fullOnce
  exact strings_arrive_terminated [letter] [letterBurst] hs.toOpen hs.positive letter_roomy
    (by simp [letter, StdString.terminated]) hp letterBurst_again

end Netier
