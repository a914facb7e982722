import Mathlib.Algebra.BigOperators.Group.Finset.Piecewise
import Mathlib.Algebra.Order.BigOperators.Group.Finset
import Mathlib.Data.Fintype.Card

/-! How many parties of a system are in a given state, and how one party's move, or a
move of all that are in one state, changes the number. -/
namespace Netier.Lib
variable {ι σ : Type} [Fintype ι] [DecidableEq ι] [DecidableEq σ]

def census (f : ι → σ) (q : σ) : Nat := (Finset.univ.filter fun i => f i = q).card

variable {f : ι → σ} {i : ι} {p q : σ}

/-- One party moves: `q` loses it if it was there and gains it if it went there. -/
theorem census_update (f : ι → σ) (i : ι) (p q : σ) :
    census (Function.update f i p) q + (if f i = q then 1 else 0) =
      census f q + (if p = q then 1 else 0) := by
  have hfun : (fun j => if Function.update f i p j = q then 1 else 0) =
      Function.update (fun j => if f j = q then 1 else 0) i (if p = q then 1 else 0) := by
    funext j
    by_cases hj : j = i
    · subst hj
      simp
    · simp [hj]
  have hsum := Finset.sum_eq_add_sum_sdiff_singleton_of_mem (Finset.mem_univ i)
    (fun j => if f j = q then 1 else 0)
  rw [census, census, Finset.card_filter, Finset.card_filter, hfun,
    Finset.sum_update_of_mem (Finset.mem_univ i), hsum]
  omega

theorem census_join (h : f i ≠ q) : census (Function.update f i q) q = census f q + 1 := by
  simpa [h] using census_update f i q q

theorem census_leave (h : f i = q) (hp : p ≠ q) :
    census (Function.update f i p) q + 1 = census f q := by
  simpa [h, hp] using census_update f i p q

omit [DecidableEq ι] in
theorem census_eq_zero : census f q = 0 ↔ ∀ i, f i ≠ q := by
  simp [census, Finset.filter_eq_empty_iff]

/-- The parties' weights, each by the state it is in. -/
def burden (weight : σ → Nat) (f : ι → σ) : Nat := ∑ i, weight (f i)

omit [DecidableEq σ] in
theorem burden_update (weight : σ → Nat) (f : ι → σ) (i : ι) (p : σ) :
    burden weight (Function.update f i p) + weight (f i) = burden weight f + weight p := by
  have hfun : (fun j => weight (Function.update f i p j)) =
      Function.update (fun j => weight (f j)) i (weight p) := by
    funext j
    by_cases hj : j = i
    · subst hj
      simp
    · simp [hj]
  have hsum := Finset.sum_eq_add_sum_sdiff_singleton_of_mem (Finset.mem_univ i) (fun j => weight (f j))
  rw [burden, burden, hfun, Finset.sum_update_of_mem (Finset.mem_univ i), hsum]
  omega

omit [DecidableEq ι] [DecidableEq σ] in
theorem burden_le {weight : σ → Nat} {bound : Nat} (h : ∀ p, weight p ≤ bound) (f : ι → σ) :
    burden weight f ≤ Fintype.card ι * bound := by
  simpa [burden] using Finset.sum_le_card_nsmul Finset.univ _ bound fun i _ => h (f i)

end Netier.Lib
