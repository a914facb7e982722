import Netier.Lib.Outcome

/-! One program run twice, from two states that are related: when the two runs end alike.
The rules follow the program, as those for a single run do. -/
namespace Netier.Lib
variable {ε σ β γ : Type} {R : σ → σ → Prop}

/-- Both runs return, the same value and in related states, or both fail, for the same reason. -/
inductive Alike (R : σ → σ → Prop) : EStateM.Result ε σ β → EStateM.Result ε σ β → Prop where
  | ok {b : β} {s t : σ} : R s t → Alike R (.ok b s) (.ok b t)
  | error {e : ε} {s t : σ} : Alike R (.error e s) (.error e t)

namespace Alike

theorem ok_inv {b : β} {s : σ} {y : EStateM.Result ε σ β} (h : Alike R (.ok b s) y) :
    ∃ t, y = .ok b t ∧ R s t := by
  cases h with
  | ok hst => exact ⟨_, rfl, hst⟩

theorem error_inv {e : ε} {s : σ} {y : EStateM.Result ε σ β} (h : Alike R (.error e s) y) :
    ∃ t, y = .error e t := by
  cases h with
  | error => exact ⟨_, rfl⟩

end Alike

/-- From related states the program always ends alike. -/
def Respects (R : σ → σ → Prop) (x : EStateM ε σ β) : Prop := ∀ s t, R s t → Alike R (x s) (x t)

namespace Respects
variable {x y : EStateM ε σ β}

theorem pure (b : β) : Respects R (Pure.pure b : EStateM ε σ β) := fun _ _ h => .ok h

theorem throw (e : ε) : Respects R (throwThe ε e : EStateM ε σ β) := fun _ _ _ => .error

theorem bind {f : β → EStateM ε σ γ} (hx : Respects R x) (hf : ∀ b, Respects R (f b)) :
    Respects R (x >>= f) := by
  intro s t h
  have hst := hx s t h
  rw [bind_run, bind_run]
  cases hs : x s with
  | ok b s' =>
    rw [hs] at hst
    obtain ⟨t', ht, hrel⟩ := hst.ok_inv
    rw [ht]
    exact hf b s' t' hrel
  | error e s' =>
    rw [hs] at hst
    obtain ⟨t', ht⟩ := hst.error_inv
    rw [ht]
    exact .error

theorem modify {f : σ → σ} (hf : ∀ s t, R s t → R (f s) (f t)) :
    Respects R (modify f : EStateM ε σ PUnit) := fun s t h => .ok (hf s t h)

theorem ite {c : Prop} [Decidable c] (hx : c → Respects R x) (hy : ¬ c → Respects R y) :
    Respects R (if c then x else y) := by
  split
  · exact hx ‹_›
  · exact hy ‹_›

end Respects
end Netier.Lib
