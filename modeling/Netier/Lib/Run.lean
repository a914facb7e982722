import Mathlib.Algebra.GroupWithZero.Nat
import Mathlib.Data.List.Basic

/-! Finite labelled runs of a transition relation, in the order the steps were taken. -/
namespace Netier.Lib
variable {σ ℓ : Type}

inductive Run (step : σ → ℓ → σ → Prop) : σ → List ℓ → σ → Prop where
  | nil (s : σ) : Run step s [] s
  | snoc {s t u : σ} {ls : List ℓ} {l : ℓ} : Run step s ls t → step t l u → Run step s (ls ++ [l]) u

namespace Run
variable {step : σ → ℓ → σ → Prop} {s t u : σ} {ls ks : List ℓ} {l : ℓ}

/-- What holds at the start and is kept by every step holds wherever a run arrives. -/
theorem invariant {I : σ → Prop} (h : Run step s ls t) (hs : I s)
    (hstep : ∀ a l b, I a → step a l b → I b) : I t := by
  induction h with
  | nil => exact hs
  | snoc _ hl ih => exact hstep _ _ _ ih hl

/-- What holds may depend on the labels so far. -/
theorem history {I : List ℓ → σ → Prop} (h : Run step s ls t) (hs : I [] s)
    (hstep : ∀ ks a l b, I ks a → step a l b → I (ks ++ [l]) b) : I ls t := by
  induction h with
  | nil => exact hs
  | snoc _ hl ih => exact hstep _ _ _ _ ih hl

theorem append (h : Run step s ls t) (k : Run step t ks u) : Run step s (ls ++ ks) u := by
  induction k with
  | nil => simpa using h
  | snoc _ hl ih =>
    rw [← List.append_assoc]
    exact ih.snoc hl

theorem single (h : step s l t) : Run step s [l] t := by
  simpa using (Run.nil s).snoc h

theorem cons (h : step s l t) (k : Run step t ls u) : Run step s (l :: ls) u :=
  (Run.single h).append k

theorem mono {step' : σ → ℓ → σ → Prop} (h : Run step s ls t)
    (hle : ∀ a l b, step a l b → step' a l b) : Run step' s ls t := by
  induction h with
  | nil => exact .nil _
  | snoc _ hl ih => exact ih.snoc (hle _ _ _ hl)

/-- An invariant of the steps may show that they are steps of another relation as well. -/
theorem mono_of_invariant {step' : σ → ℓ → σ → Prop} {I : σ → Prop} (h : Run step s ls t) (hs : I s)
    (hstep : ∀ a l b, I a → step a l b → I b ∧ step' a l b) : Run step' s ls t := by
  have hboth : I t ∧ Run step' s ls t := by
    induction h with
    | nil => exact ⟨hs, .nil _⟩
    | snoc _ hl ih =>
      obtain ⟨hi, hl'⟩ := hstep _ _ _ ih.1 hl
      exact ⟨hi, ih.2.snoc hl'⟩
  exact hboth.2

/-- The run up to one of its steps, and the step. -/
theorem at_label (h : Run step s ls t) (hl : l ∈ ls) :
    ∃ pre a b, pre ++ [l] <+: ls ∧ Run step s pre a ∧ step a l b := by
  induction h with
  | nil => cases hl
  | @snoc a b ks k hrun hstep ih =>
    rcases List.mem_append.1 hl with hl | hl
    · obtain ⟨pre, a', b', hpre, hbefore, hstep'⟩ := ih hl
      exact ⟨pre, a', b', hpre.trans (List.prefix_append _ _), hbefore, hstep'⟩
    · rw [List.mem_singleton.1 hl]
      exact ⟨ks, a, b, List.prefix_rfl, hrun, hstep⟩

/-- What holds of every label may be assumed at every step. -/
theorem restrict {P : ℓ → Prop} (h : Run step s ls t) (hP : ∀ l ∈ ls, P l) :
    Run (fun a l b => step a l b ∧ P l) s ls t := by
  induction h with
  | nil => exact .nil _
  | snoc _ hl ih =>
    exact (ih fun l hm => hP l (List.mem_append_left _ hm)).snoc ⟨hl, hP _ (by simp)⟩

/-- Where each step takes its cost from a reserve and adds its yield to it, so does the run. -/
theorem budget {I : σ → Prop} {reserve : σ → Nat} {cost yields : ℓ → Nat} (h : Run step s ls t) (hs : I s)
    (hstep : ∀ a l b, I a → step a l b → I b ∧ reserve b + cost l ≤ reserve a + yields l) :
    I t ∧ reserve t + (ls.map cost).sum ≤ reserve s + (ls.map yields).sum := by
  induction h with
  | nil => exact ⟨hs, Nat.le_refl _⟩
  | snoc _ hl ih =>
    obtain ⟨hi, hle⟩ := hstep _ _ _ ih.1 hl
    refine ⟨hi, ?_⟩
    simp only [List.map_append, List.map_singleton, List.sum_append, List.sum_singleton]
    omega

/-- What a part of the state does is a run of its own, if each step is one of its steps or leaves
it as it is. -/
theorem project {τ κ : Type} {step' : τ → κ → τ → Prop} {f : σ → τ} {g : ℓ → Option κ}
    (h : Run step s ls t) (hown : ∀ a l b k, g l = some k → step a l b → step' (f a) k (f b))
    (hother : ∀ a l b, g l = none → step a l b → f b = f a) : Run step' (f s) (ls.filterMap g) (f t) := by
  induction h with
  | nil => exact .nil _
  | @snoc a b ks l _ hl ih =>
    rw [List.filterMap_append]
    cases hg : g l with
    | none =>
      rw [hother _ _ _ hg hl]
      simpa [hg] using ih
    | some k => simpa [hg] using ih.snoc (hown _ _ _ _ hg hl)

end Run

/-- Of costs that are the same for some labels and nothing for the others. -/
theorem sum_flat (p : ℓ → Bool) (k : Nat) (ls : List ℓ) :
    (ls.map fun l => if p l then k else 0).sum = k * ls.countP p := by
  induction ls with
  | nil => rfl
  | cons l ls ih =>
    rw [List.map_cons, List.sum_cons, ih, List.countP_cons]
    split <;> simp [Nat.mul_add, Nat.add_comm]

/-- The state after the given steps, if each can be taken. -/
def runAll (step : σ → ℓ → Option σ) (s : σ) (ls : List ℓ) : Option σ := ls.foldlM step s

theorem run_of_runAll {step : σ → ℓ → Option σ} {s t : σ} {ls : List ℓ}
    (h : runAll step s ls = some t) : Run (fun a l b => step a l = some b) s ls t := by
  induction ls generalizing s with
  | nil =>
    cases h
    exact .nil _
  | cons l ls ih =>
    obtain ⟨b, hb, ht⟩ :=
      Option.bind_eq_some_iff.1 (show (step s l).bind (runAll step · ls) = some t from h)
    exact .cons hb (ih ht)

/-- A step function restricted to the steps that satisfy `P`. -/
def guarded (step : σ → ℓ → Option σ) (P : σ → ℓ → Prop) [∀ s l, Decidable (P s l)] (s : σ) (l : ℓ) :
    Option σ :=
  if P s l then step s l else none

theorem run_of_guarded {step : σ → ℓ → Option σ} {P : σ → ℓ → Prop} [∀ s l, Decidable (P s l)]
    {s t : σ} {ls : List ℓ} (h : runAll (guarded step P) s ls = some t) :
    Run (fun a l b => step a l = some b ∧ P a l) s ls t := by
  refine (run_of_runAll h).mono fun a l b hb => ?_
  unfold guarded at hb
  split at hb
  · exact ⟨hb, ‹_›⟩
  · cases hb

end Netier.Lib
