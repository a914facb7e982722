import Mathlib.Data.BitVec

/-! Words of flags: what it means to set the bits of a mask and no other, and which
operations do so. -/
namespace Netier.Lib
variable {n : Nat} {named wanted a b bits : BitVec n}

/-- From `a` to `b` the named bits took the values they have in `wanted`, and no other bit
changed. -/
structure Sets (named wanted a b : BitVec n) : Prop where
  inside : b &&& named = wanted &&& named
  outside : b &&& ~~~named = a &&& ~~~named

/-- What has no bit in common with the named ones is as before. -/
theorem Sets.other (h : Sets named wanted a b) (hbits : bits &&& named = 0) : b &&& bits = a &&& bits := by
  obtain ⟨_, hout⟩ := h
  have hsplit : bits = ~~~named &&& bits ||| bits &&& named := by grind
  have hsub : ~~~named &&& bits = bits := by simpa [hbits] using hsplit.symm
  calc
    b &&& bits = b &&& ~~~named &&& bits := by rw [BitVec.and_assoc, hsub]
    _ = a &&& ~~~named &&& bits := by rw [hout]
    _ = a &&& bits := by rw [BitVec.and_assoc, hsub]

theorem or_sets (a bits : BitVec n) : Sets bits bits a (a ||| bits) where
  inside := by grind
  outside := by grind

theorem and_not_sets (a bits : BitVec n) : Sets bits 0 a (a &&& ~~~bits) where
  inside := by grind
  outside := by grind

/-- A word that is stored as a whole names every bit. -/
theorem store_sets (a b : BitVec n) : Sets (BitVec.allOnes n) b a b where
  inside := rfl
  outside := by grind

/-- Clearing the bits of another word serves as well if it agrees on all others. -/
theorem clear_sets_iff : Sets bits 0 a (b &&& ~~~bits) ↔ b &&& ~~~bits = a &&& ~~~bits := by
  constructor
  · rintro ⟨_, hout⟩
    grind
  · intro heq
    exact ⟨by grind, by grind⟩

/-- Masking keeps the bits of the mask where they were set, and clears every other bit. -/
theorem mask_sets_iff : Sets bits bits a (b &&& bits) ↔ b &&& bits = bits ∧ a &&& ~~~bits = 0 := by
  constructor
  · rintro ⟨hin, hout⟩
    exact ⟨by grind, by grind⟩
  · rintro ⟨hin, hout⟩
    exact ⟨by grind, by grind⟩

/-- A word is the mask if it has all bits of the mask and no other. -/
theorem eq_mask_iff : a = bits ↔ a &&& bits = bits ∧ a &&& ~~~bits = 0 := by
  constructor
  · rintro rfl
    exact ⟨by grind, by grind⟩
  · rintro ⟨hin, hout⟩
    calc
      a = a &&& bits ||| a &&& ~~~bits := by grind
      _ = bits := by simp [hin, hout]

/-- A run of maskings, each with one of two masks that have no bit in common: a mask keeps what
it kept at first until the other one has been used. -/
theorem foldl_and (mask : Bool → BitVec n) (h : ∀ c, mask (!c) &&& mask c = 0) (bs : List Bool)
    (a : BitVec n) (c : Bool) :
    bs.foldl (fun a b => a &&& mask b) a &&& mask c = if (!c) ∈ bs then 0 else a &&& mask c := by
  induction bs generalizing a with
  | nil => rfl
  | cons b bs ih =>
    rw [List.foldl_cons, ih, BitVec.and_assoc]
    by_cases hb : b = c
    · subst hb
      simp
    · have hother : b = !c := by
        rw [Bool.eq_not]
        exact hb
      subst hother
      simp [h]

end Netier.Lib
