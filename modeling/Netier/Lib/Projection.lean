import Netier.Lib.Run

/-! A system of parts that act on their own: what a part goes through is decided by the
steps of that part. -/
namespace Netier.Lib
variable {σ ℓ κ : Type} [DecidableEq κ]

/-- Steps have an owner, and `same k` says that two states do not differ for part `k`: an own
step has the same outcome for its part in both, and the steps of the others leave it alone. -/
structure Separate (step : σ → ℓ → σ → Prop) (owner : ℓ → κ) (same : κ → σ → σ → Prop) : Prop where
  equiv : ∀ k, Equivalence (same k)
  own : ∀ {s s' t t' l}, same (owner l) s t → step s l s' → step t l t' → same (owner l) s' t'
  others : ∀ {s s' l k}, owner l ≠ k → step s l s' → same k s s'

/-- The steps of one part. -/
def stepsOf (owner : ℓ → κ) (k : κ) (ls : List ℓ) : List ℓ := ls.filter fun l => owner l = k

section Steps
variable {owner : ℓ → κ} {k : κ} {l : ℓ} {ls : List ℓ}

theorem stepsOf_snoc_own (h : owner l = k) :
    stepsOf owner k (ls ++ [l]) = stepsOf owner k ls ++ [l] := by
  simp [stepsOf, h]

theorem stepsOf_snoc_other (h : owner l ≠ k) :
    stepsOf owner k (ls ++ [l]) = stepsOf owner k ls := by
  simp [stepsOf, h]

end Steps

namespace Separate
variable {step : σ → ℓ → σ → Prop} {owner : ℓ → κ} {same : κ → σ → σ → Prop} {k : κ}
  {s s' t t' : σ} {l : ℓ} {ls ks fs : List ℓ}

/-- A part that takes no step stays as it is. -/
theorem idle (hsep : Separate step owner same) (h : Run step s ls s') (hnone : stepsOf owner k ls = []) :
    same k s s' := by
  induction h with
  | nil => exact (hsep.equiv k).refl _
  | @snoc a b ls l hrun hstep ih =>
    by_cases hk : owner l = k
    · rw [stepsOf_snoc_own hk] at hnone
      simp at hnone
    · rw [stepsOf_snoc_other hk] at hnone
      exact (hsep.equiv k).trans (ih hnone) (hsep.others hk hstep)

/-- The last step of a part, with what went before it and what the others did after it. -/
theorem last_own (hsep : Separate step owner same) (h : Run step s ls s')
    (hlast : stepsOf owner k ls = fs ++ [l]) :
    ∃ pre a b, Run step s pre a ∧ stepsOf owner k pre = fs ∧ owner l = k ∧ step a l b ∧ same k b s' := by
  induction h with
  | nil => simp [stepsOf] at hlast
  | @snoc a b ls l' hrun hstep ih =>
    by_cases hk : owner l' = k
    · rw [stepsOf_snoc_own hk] at hlast
      obtain ⟨hfs, hl⟩ := List.append_inj' hlast rfl
      cases hl
      exact ⟨ls, a, b, hrun, hfs, hk, hstep, (hsep.equiv k).refl _⟩
    · rw [stepsOf_snoc_other hk] at hlast
      obtain ⟨pre, a', b', hpre, hfs, hown, hstep', hsame⟩ := ih hlast
      exact ⟨pre, a', b', hpre, hfs, hown, hstep', (hsep.equiv k).trans hsame (hsep.others hk hstep)⟩

/-- Two runs in which a part takes the same steps end alike for that part, whatever the
other parts do and in whatever order. -/
theorem same_of_steps (hsep : Separate step owner same) (h : Run step s ls s') (h' : Run step t ks t')
    (hst : same k s t) (hsteps : stepsOf owner k ls = stepsOf owner k ks) : same k s' t' := by
  induction h generalizing ks t' with
  | nil => exact (hsep.equiv k).trans hst (hsep.idle h' hsteps.symm)
  | @snoc a b ls l hrun hstep ih =>
    by_cases hk : owner l = k
    · rw [stepsOf_snoc_own hk] at hsteps
      obtain ⟨pre, a', b', hpre, hfs, _, hstep', hsame⟩ := hsep.last_own h' hsteps.symm
      have hbefore := ih hpre hfs.symm
      subst hk
      exact (hsep.equiv _).trans (hsep.own hbefore hstep hstep') hsame
    · rw [stepsOf_snoc_other hk] at hsteps
      exact (hsep.equiv k).trans ((hsep.equiv k).symm (hsep.others hk hstep)) (ih h' hsteps)

/-- Where a state that is the same for a part allows the steps of that part, they are a run of
their own; `J` is what such a run keeps. -/
theorem alone {J : σ → Prop} (hsep : Separate step owner same)
    (hallowed : ∀ {s s' t l}, owner l = k → same k s t → J t → step s l s' → ∃ t', step t l t' ∧ J t')
    (h : Run step s ls s') (hJ : J s) : ∃ t, Run step s (stepsOf owner k ls) t ∧ same k s' t ∧ J t := by
  induction h with
  | nil => exact ⟨_, .nil _, (hsep.equiv k).refl _, hJ⟩
  | @snoc a b ls l hrun hstep ih =>
    obtain ⟨t, ht, hsame, hJt⟩ := ih
    by_cases hk : owner l = k
    · obtain ⟨t', hstep', hJt'⟩ := hallowed hk hsame hJt hstep
      rw [stepsOf_snoc_own hk]
      subst hk
      exact ⟨t', ht.snoc hstep', hsep.own hsame hstep hstep', hJt'⟩
    · rw [stepsOf_snoc_other hk]
      exact ⟨t, ht, (hsep.equiv k).trans ((hsep.equiv k).symm (hsep.others hk hstep)) hsame, hJt⟩

end Separate
end Netier.Lib
