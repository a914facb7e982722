import Netier.Connection.Output
import Netier.Connection.Teardown

/-! The overloads of `write` for rvalues. Each passes its argument on to itself, so on an
open connection no depth of the stack lets it return. -/
namespace Netier
open Lib
variable {α : Type} {w : World α}

/-- Where the overload for a const reference returns, the one for an rvalue returns if the
stack is deep enough, and leaves the same result, bytes accepted, `__wbuffer` and state. -/
def Agrees (lvalue : Exec α ER) (rvalue : Nat → Exec α ER) (w : World α) : Prop :=
  ∀ ret w', lvalue w = .ok ret w' → ∃ depth w'', rvalue depth w = .ok ret w'' ∧
    w''.wire.accepted = w'.wire.accepted ∧ w''.context.wbuffer = w'.context.wbuffer ∧
    w''.context.state = w'.context.state

theorem writeStringMove_overflows (depth : Nat) (data : StdString α) (h : Open w) :
    writeStringMove depth data w = .error .stackOverflow w := by
  induction depth with
  | zero => rfl
  | succ depth ih => rw [writeStringMove, guarded_open h, ih]

theorem writeVectorMove_overflows (depth : Nat) (data : List α) (h : Open w) :
    writeVectorMove depth data w = .error .stackOverflow w := by
  induction depth with
  | zero => rfl
  | succ depth ih => rw [writeVectorMove, guarded_open h, ih]

/-- An overload that never returns agrees with none that does. -/
theorem not_agrees {lvalue : Exec α ER} {rvalue : Nat → Exec α ER}
    (hl : ∃ ret w', lvalue w = .ok ret w') (hr : ∀ depth, rvalue depth w = .error .stackOverflow w) :
    ¬ Agrees lvalue rvalue w := by
  intro h
  obtain ⟨ret, w', hrun⟩ := hl
  obtain ⟨depth, w'', hok, _⟩ := h ret w' hrun
  rw [hr depth] at hok
  cases hok

theorem writeString_open (h : Open w) (data : StdString α) :
    writeString data w = syncWrite (data.chars ++ [data.terminator]) w := by
  rw [writeString, guarded_open h]

theorem writeVector_open (h : Open w) (data : List α) : writeVector data w = syncWrite data w := by
  rw [writeVector, guarded_open h]

theorem writeString_not_agrees (h : Open w) (hfd : 0 < w.context.socket.fd) (data : StdString α) :
    ¬ Agrees (writeString data) (writeStringMove · data) w :=
  not_agrees (by rw [writeString_open h]; exact syncWrite_run h hfd _)
    fun depth => writeStringMove_overflows depth data h

theorem writeVector_not_agrees (h : Open w) (hfd : 0 < w.context.socket.fd) (data : List α) :
    ¬ Agrees (writeVector data) (writeVectorMove · data) w :=
  not_agrees (by rw [writeVector_open h]; exact syncWrite_run h hfd data)
    fun depth => writeVectorMove_overflows depth data h

/-- On no VALID connection, for no data and under no answers of the kernel does an overload
for rvalues agree with the one for const references. -/
theorem rvalue_overloads_disagree (h : Open w) (hfd : 0 < w.context.socket.fd) :
    (∀ data : StdString α, ¬ Agrees (writeString data) (writeStringMove · data) w) ∧
      ∀ data : List α, ¬ Agrees (writeVector data) (writeVectorMove · data) w :=
  ⟨writeString_not_agrees h hfd, writeVector_not_agrees h hfd⟩

/-- `write("\x61")` with a temporary, while the kernel takes whatever it is given. -/
theorem write_literal_overflows :
    ¬ ∀ (data : StdString UInt8) (w : World UInt8), Open w → 0 < w.context.socket.fd →
      Agrees (writeString data) (writeStringMove · data) w := by
  intro h
  have h0 : Ready (World.setUp 0 5 true fun _ => .room 2 : World UInt8) 0 :=
    setUp_ready (by decide) true _
  exact writeString_not_agrees h0.open h0.positive ⟨[0x61], 0⟩ (h _ _ h0.open h0.positive)

theorem rvalue_overloads_disagree_on_literal :
    ¬ Agrees (writeString ⟨[0x61], 0⟩) (writeStringMove · ⟨[0x61], 0⟩)
      (World.setUp 0 5 true fun _ => .room 2 : World UInt8) := by
  have h0 : Ready (World.setUp 0 5 true fun _ => .room 2 : World UInt8) 0 :=
    setUp_ready (by decide) true _
  exact (rvalue_overloads_disagree h0.open h0.positive).1 _

end Netier
