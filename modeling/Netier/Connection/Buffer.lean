import Mathlib.Data.List.Basic
import Mathlib.Data.UInt

/-! `Buffer`: a byte vector with an append window at its end and a read cursor at
its start. Bytes are of any type with a zero, the value `resize` fills with. -/
namespace Netier

structure Buffer (α : Type) where
  bytes : List α
  deriving DecidableEq, Repr

namespace Buffer
variable {α : Type}

def empty : Buffer α := ⟨[]⟩
def size (b : Buffer α) : Nat := b.bytes.length

/-- Opens a window of `size` zero bytes; the result is the offset of the window. -/
def getWriter [Zero α] (b : Buffer α) (size : Nat) : Option (Nat × Buffer α) :=
  if 0 < size then some (b.size, ⟨b.bytes ++ List.replicate size 0⟩) else none

/-- Stores `data` from offset `pos` on, as a system call does through the window's pointer. -/
def store (b : Buffer α) (pos : Nat) (data : List α) : Buffer α :=
  ⟨b.bytes.take pos ++ data ++ b.bytes.drop (pos + data.length)⟩

def put (b : Buffer α) (data : List α) : Buffer α := ⟨b.bytes ++ data⟩

/-- `erase` up to the cursor; past the end it is undefined. -/
def moveReadCursor (b : Buffer α) (size : Nat) : Option (Buffer α) :=
  if size ≤ b.size then some ⟨b.bytes.drop size⟩ else none

def get (b : Buffer α) : List α × Buffer α := (b.bytes, empty)
def clear (_ : Buffer α) : Buffer α := empty

def shrink (b : Buffer α) (size : Nat) : Option (Buffer α) :=
  if size ≤ b.size then some ⟨b.bytes.take (b.size - size)⟩ else none

@[simp] theorem getWriter_pos [Zero α] (b : Buffer α) {size : Nat} (h : 0 < size) :
    b.getWriter size = some (b.size, ⟨b.bytes ++ List.replicate size 0⟩) := by
  simp [getWriter, h]

@[simp] theorem moveReadCursor_of_le (b : Buffer α) {n : Nat} (h : n ≤ b.size) :
    b.moveReadCursor n = some ⟨b.bytes.drop n⟩ := by
  simp [moveReadCursor, h]

@[simp] theorem shrink_zero (b : Buffer α) : b.shrink 0 = some b := by
  simp [shrink, Buffer.size]

/-- A window of `size` zeros at the end, filled from its start and cut back by
what was not filled, appends exactly the data. -/
theorem shrink_store_window [Zero α] (bytes data : List α) (size : Nat) :
    ((⟨bytes ++ List.replicate size 0⟩ : Buffer α).store bytes.length data).shrink
      (size - data.length) = some ⟨bytes ++ data⟩ := by
  have hs : ((⟨bytes ++ List.replicate size 0⟩ : Buffer α).store bytes.length data).bytes =
      bytes ++ data ++ List.replicate (size - data.length) 0 := by
    simp [store, List.drop_append, List.drop_replicate]
  have hl : ((⟨bytes ++ List.replicate size 0⟩ : Buffer α).store bytes.length data).size =
      bytes.length + data.length + (size - data.length) := by
    simp only [Buffer.size, hs, List.length_append, List.length_replicate]
  have hc : (bytes ++ data).length = bytes.length + data.length := List.length_append
  unfold shrink
  rw [if_pos (by omega), hl, hs, Nat.add_sub_cancel, ← hc, List.take_left]

end Buffer
end Netier
