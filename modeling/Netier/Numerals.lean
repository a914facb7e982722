import Mathlib.Data.Nat.Digits.Defs
import Mathlib.Data.Nat.Digits.Lemmas
import Netier.CString

/-! Numbers written out, and what `strtol` and `atoi` read from them. -/
namespace Netier
variable {base n d : Nat} {ds : List Nat}

def digitByte (d : Nat) : UInt8 := if d < 10 then UInt8.ofNat (48 + d) else UInt8.ofNat (87 + d)

/-- The digits of `n`, the most significant one first; none for 0. -/
def digitText (base n : Nat) : List UInt8 := (Nat.digits base n).reverse.map digitByte

theorem digitValue_digitByte : ∀ d < 16, digitValue (digitByte d) = d := by decide
theorem digitByte_ne_zero : ∀ d < 16, digitByte d ≠ 0 := by decide
theorem digitByte_not_space : ∀ d < 16, isspace (digitByte d) = false := by decide
theorem digitByte_not_sign : ∀ d < 16, digitByte d ≠ 45 ∧ digitByte d ≠ 43 := by decide
theorem digitByte_not_prefix : ∀ d < 16, tolower (digitByte d) ≠ 120 := by decide
theorem digitByte_alnum : ∀ d < 16, isalnum (digitByte d) := by decide

theorem cstr_digits (hds : ∀ d ∈ ds, d < 16) : cstr (ds.map digitByte) = ds.map digitByte := by
  refine cstr_eq fun c hc => ?_
  obtain ⟨d, hd, rfl⟩ := List.mem_map.1 hc
  exact digitByte_ne_zero d (hds d hd)

theorem dropWhile_digits (hds : ∀ d ∈ ds, d < 16) :
    (ds.map digitByte).dropWhile isspace = ds.map digitByte := by
  cases ds with
  | nil => rfl
  | cons d ds => simp [digitByte_not_space d (hds d (by simp))]

theorem sign_digits (hds : ∀ d ∈ ds, d < 16) : sign (ds.map digitByte) = (false, ds.map digitByte) := by
  cases ds with
  | nil => rfl
  | cons d ds =>
    obtain ⟨hminus, hplus⟩ := digitByte_not_sign d (hds d (by simp))
    rw [List.map_cons, sign]
    · exact fun s h => hminus (List.cons.inj h).1
    · exact fun s h => hplus (List.cons.inj h).1

theorem skipPrefix_digits (hds : ∀ d ∈ ds, d < 16) :
    skipPrefix base (ds.map digitByte) = ds.map digitByte := by
  unfold skipPrefix
  split
  · rename_i x s heq
    have hx : x ∈ ds.map digitByte := by simp [heq]
    obtain ⟨d, hd, rfl⟩ := List.mem_map.1 hx
    rw [if_neg fun h => digitByte_not_prefix d (hds d hd) h.2, heq]
  · rfl

theorem takeWhile_digits (hds : ∀ d ∈ ds, d < base) (hbase : base ≤ 16) :
    (ds.map digitByte).takeWhile (isDigitOf base) = ds.map digitByte := by
  refine List.takeWhile_eq_self_iff.2 fun c hc => ?_
  obtain ⟨d, hd, rfl⟩ := List.mem_map.1 hc
  have hlt := hds d hd
  simpa [isDigitOf, digitValue_digitByte d (by omega)] using hlt

theorem strtol_digits (hds : ∀ d ∈ ds, d < base) (hbase : base ≤ 16) :
    strtol base (ds.map digitByte) = min (numeral base (ds.map digitByte) : Int) longMax := by
  have hds' : ∀ d ∈ ds, d < 16 := fun d hd => lt_of_lt_of_le (hds d hd) hbase
  simp [strtol, cstr_digits hds', dropWhile_digits hds', sign_digits hds', skipPrefix_digits hds',
    takeWhile_digits hds hbase]

/-- Writing a number out and collecting its digits gives the number. -/
theorem numeral_digitText (hone : 1 < base) (hbase : base ≤ 16) (n : Nat) :
    numeral base (digitText base n) = n := by
  have hfold : ∀ ds : List Nat, (∀ d ∈ ds, d < base) →
      numeral base (ds.reverse.map digitByte) = Nat.ofDigits base ds := by
    intro ds hds
    induction ds with
    | nil => rfl
    | cons d ds ih =>
      obtain ⟨hd, hds⟩ := List.forall_mem_cons.1 hds
      have hih := ih hds
      simp only [numeral] at hih ⊢
      simp only [List.reverse_cons, List.map_append, List.map_cons, List.map_nil, List.foldl_append,
        List.foldl_cons, List.foldl_nil, hih, Nat.ofDigits_cons, digitValue_digitByte d (by omega)]
      ring
  rw [digitText, hfold _ fun d hd => Nat.digits_lt_base hone hd, Nat.ofDigits_digits]

theorem digitText_digits (hone : 1 < base) (n : Nat) : ∀ d ∈ (Nat.digits base n).reverse, d < base :=
  fun _ hd => Nat.digits_lt_base hone (List.mem_reverse.1 hd)

theorem strtol_digitText (hone : 1 < base) (hbase : base ≤ 16) {n : Nat} (hn : (n : Int) ≤ longMax) :
    strtol base (digitText base n) = n := by
  have hstrtol := strtol_digits (digitText_digits hone n) hbase
  change strtol base (digitText base n) = min (numeral base (digitText base n) : Int) longMax at hstrtol
  rw [hstrtol, numeral_digitText hone hbase, min_eq_left hn]

theorem atoi_digitText {n : Nat} (hn : n < 2 ^ 31) : atoi (digitText 10 n) = n := by
  rw [atoi, strtol_digitText (by decide) (by decide) (by unfold longMax; omega)]
  exact Int.bmod_eq_of_le (by omega) (by omega)

theorem forall_digitText {p : UInt8 → Prop} (hone : 1 < base) (hp : ∀ d < base, p (digitByte d)) (n : Nat) :
    ∀ c ∈ digitText base n, p c := by
  intro c hc
  obtain ⟨d, hd, rfl⟩ := List.mem_map.1 hc
  exact hp d (digitText_digits hone n d hd)

end Netier
