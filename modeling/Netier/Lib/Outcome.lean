import Mathlib.Logic.Relation

/-! Programs that may fail and keep their state when they do.
Rules for composing results, and for the steps a program takes whatever its outcome. -/
namespace Netier.Lib
variable {ε σ β γ : Type}

/-- The state an outcome leaves behind, also when it failed. -/
def final : EStateM.Result ε σ β → σ
  | .ok _ s => s
  | .error _ s => s

@[simp] theorem final_ok (b : β) (s : σ) : final (ε := ε) (.ok b s) = s := rfl
@[simp] theorem final_error (e : ε) (s : σ) : final (β := β) (.error e s) = s := rfl

/-- The state a program returned in. -/
def completed : EStateM.Result ε σ PUnit → Option σ
  | .ok _ s => some s
  | .error _ _ => none

theorem completed_eq_some {x : EStateM.Result ε σ PUnit} {s : σ} :
    completed x = some s ↔ x = .ok ⟨⟩ s := by
  cases x with
  | ok b t => simp [completed]
  | error e t => simp [completed]

theorem ok_of_toOption {x : Except ε β} {b : β} (h : x.toOption = some b) : x = .ok b := by
  cases x with
  | error e => cases h
  | ok c =>
    cases h
    rfl

@[simp] theorem pure_run (b : β) (s : σ) : (pure b : EStateM ε σ β) s = .ok b s := rfl
@[simp] theorem throw_run (e : ε) (s : σ) : (throw e : EStateM ε σ β) s = .error e s := rfl
@[simp] theorem get_run (s : σ) : (get : EStateM ε σ σ) s = .ok s s := rfl
@[simp] theorem set_run (s t : σ) : (set t : EStateM ε σ PUnit) s = .ok ⟨⟩ t := rfl
@[simp] theorem modify_run (f : σ → σ) (s : σ) :
    (modify f : EStateM ε σ PUnit) s = .ok ⟨⟩ (f s) := rfl

theorem bind_run (x : EStateM ε σ β) (f : β → EStateM ε σ γ) (s : σ) :
    (x >>= f) s = match x s with
      | .ok b s' => f b s'
      | .error e s' => .error e s' := rfl

theorem map_run (x : EStateM ε σ β) (f : β → γ) (s : σ) :
    (f <$> x) s = match x s with
      | .ok b s' => .ok (f b) s'
      | .error e s' => .error e s' := rfl

theorem bind_of_ok {x : EStateM ε σ β} {f : β → EStateM ε σ γ} {s s' : σ} {b : β}
    (h : x s = .ok b s') : (x >>= f) s = f b s' := by
  rw [bind_run, h]

theorem bind_of_error {x : EStateM ε σ β} {f : β → EStateM ε σ γ} {s s' : σ} {e : ε}
    (h : x s = .error e s') : (x >>= f) s = .error e s' := by
  rw [bind_run, h]

/-- A composed program that returned did so through both parts. -/
theorem bind_inv {x : EStateM ε σ β} {f : β → EStateM ε σ γ} {s t : σ} {c : γ}
    (h : (x >>= f) s = .ok c t) : ∃ b s', x s = .ok b s' ∧ f b s' = .ok c t := by
  rw [bind_run] at h
  cases hx : x s with
  | ok b s' => exact ⟨b, s', rfl, by rwa [hx] at h⟩
  | error e s' =>
    rw [hx] at h
    cases h

theorem final_bind_pure (x : EStateM ε σ β) (c : γ) (s : σ) :
    final ((x >>= fun _ => pure c) s) = final (x s) := by
  rw [bind_run]
  cases x s <;> rfl

/-- The program fails only as `F` allows, and whatever it returns satisfies `Q`. -/
def Ensures (F : ε → Prop) (Q : β → σ → Prop) (x : EStateM ε σ β) (s : σ) : Prop :=
  match x s with
  | .ok b t => Q b t
  | .error e _ => F e

/-- No failure is allowed. -/
def Never (_ : ε) : Prop := False

namespace Ensures
variable {F : ε → Prop} {Q : β → σ → Prop} {s t : σ} {x : EStateM ε σ β} {b : β}

theorem of_ok (h : x s = .ok b t) (hq : Q b t) : Ensures F Q x s := by
  unfold Ensures
  rw [h]
  exact hq

theorem of_error {e : ε} (h : x s = .error e t) (he : F e) : Ensures F Q x s := by
  unfold Ensures
  rw [h]
  exact he

theorem of_eq {y : EStateM ε σ β} (h : x s = y t) (hy : Ensures F Q y t) : Ensures F Q x s := by
  unfold Ensures at hy ⊢
  rwa [h]

theorem ok (hx : Ensures F Q x s) (h : x s = .ok b t) : Q b t := by
  unfold Ensures at hx
  rwa [h] at hx

theorem fault {e : ε} (hx : Ensures F Q x s) (h : x s = .error e t) : F e := by
  unfold Ensures at hx
  rwa [h] at hx

/-- A program that may not fail returns. -/
theorem returns (hx : Ensures Never Q x s) : ∃ b t, x s = .ok b t ∧ Q b t := by
  cases h : x s with
  | ok b t => exact ⟨b, t, rfl, hx.ok h⟩
  | error e t => exact (hx.fault h).elim

theorem bind {R : γ → σ → Prop} {f : β → EStateM ε σ γ} (hx : Ensures F Q x s)
    (hf : ∀ b t, Q b t → Ensures F R (f b) t) : Ensures F R (x >>= f) s := by
  cases h : x s with
  | ok b t =>
    have hr := hf b t (hx.ok h)
    unfold Ensures at hr ⊢
    rwa [bind_of_ok h]
  | error e t =>
    unfold Ensures
    rw [bind_of_error h]
    exact hx.fault h

theorem weaken {G : ε → Prop} {Q' : β → σ → Prop} (hx : Ensures F Q x s) (hg : ∀ e, F e → G e)
    (h : ∀ b t, Q b t → Q' b t) : Ensures G Q' x s := by
  cases hr : x s with
  | ok b t => exact of_ok hr (h b t (hx.ok hr))
  | error e t => exact of_error hr (hg e (hx.fault hr))

theorem mono {Q' : β → σ → Prop} (hx : Ensures F Q x s) (h : ∀ b t, Q b t → Q' b t) :
    Ensures F Q' x s :=
  hx.weaken (fun _ => id) h

end Ensures

/-- The program returns, in a state in `Q`. -/
def After (x : EStateM ε σ β) (Q : σ → Prop) (s : σ) : Prop := ∃ b t, x s = .ok b t ∧ Q t

theorem after_iff {x : EStateM ε σ β} {Q : σ → Prop} {s t : σ} {b : β} (h : x s = .ok b t) :
    After x Q s ↔ Q t := by
  constructor
  · rintro ⟨b', t', h', hq⟩
    rw [h] at h'
    cases h'
    exact hq
  · exact fun hq => ⟨b, t, h, hq⟩

/-- Wherever the program returns from a state in `I`, it is in a state in `I` again. -/
def Keeps (I : σ → Prop) (x : EStateM ε σ β) : Prop := ∀ s b t, I s → x s = .ok b t → I t

namespace Keeps
variable {I : σ → Prop} {x y : EStateM ε σ β}

theorem pure (b : β) : Keeps I (Pure.pure b : EStateM ε σ β) := by
  rintro s _ _ hs ⟨⟩
  exact hs

theorem throw (e : ε) : Keeps I (throwThe ε e : EStateM ε σ β) := by
  rintro s _ _ _ ⟨⟩

/-- A program that leaves the state alone. -/
theorem of_final (h : ∀ s, final (x s) = s) : Keeps I x := by
  intro s b t hs hx
  have hsame := h s
  rw [hx] at hsame
  cases hsame
  exact hs

theorem bind {f : β → EStateM ε σ γ} (hx : Keeps I x) (hf : ∀ b, Keeps I (f b)) :
    Keeps I (x >>= f) := by
  intro s c t hs h
  obtain ⟨b, s', hrun, hrest⟩ := bind_inv h
  exact hf b s' c t (hx s b s' hs hrun) hrest

theorem ite {c : Prop} [Decidable c] (hx : c → Keeps I x) (hy : ¬ c → Keeps I y) :
    Keeps I (if c then x else y) := by
  split
  · exact hx ‹_›
  · exact hy ‹_›

end Keeps

/-- The steps of `r` lead from a state to the state the program leaves behind. -/
def Effect (r : σ → σ → Prop) (x : EStateM ε σ β) (s : σ) : Prop :=
  Relation.ReflTransGen r s (final (x s))

namespace Effect
variable {r q : σ → σ → Prop} {s : σ}

theorem pure (b : β) : Effect r (Pure.pure b : EStateM ε σ β) s := .refl

theorem throw (e : ε) : Effect r (throwThe ε e : EStateM ε σ β) s := .refl

/-- Composition follows the program's order; the continuation may use what the
first part returned and the state it returned in. -/
theorem bind {x : EStateM ε σ β} {f : β → EStateM ε σ γ} (hx : Effect r x s)
    (hf : ∀ b s', x s = .ok b s' → Effect r (f b) s') : Effect r (x >>= f) s := by
  unfold Effect at *
  rw [bind_run]
  cases h : x s with
  | ok b s' =>
    rw [h] at hx
    exact hx.trans (hf b s' h)
  | error e s' =>
    rw [h] at hx
    exact hx

theorem ite {c : Prop} [Decidable c] {x y : EStateM ε σ β} (hx : c → Effect r x s)
    (hy : ¬ c → Effect r y s) : Effect r (if c then x else y) s := by
  split
  · exact hx ‹_›
  · exact hy ‹_›

theorem mono {x : EStateM ε σ β} (h : ∀ s t, r s t → q s t) (hx : Effect r x s) : Effect q x s :=
  Relation.ReflTransGen.mono (fun s t => h s t) _ _ hx

/-- What every step keeps, the whole program keeps. -/
theorem keeps {x : EStateM ε σ β} {I : σ → Prop} (hx : Effect r x s)
    (hr : ∀ s t, I s → r s t → I t) (hs : I s) : I (final (x s)) := by
  unfold Effect at hx
  generalize final (x s) = t at hx
  induction hx with
  | refl => exact hs
  | tail _ hstep ih => exact hr _ _ ih hstep

/-- The same, for the states the program returns in. -/
theorem returns {x : EStateM ε σ β} {I : σ → Prop} (hx : ∀ s, Effect r x s)
    (hr : ∀ s t, I s → r s t → I t) : Keeps I x := by
  intro s b t hs h
  have hend := (hx s).keeps hr hs
  rwa [h] at hend

end Effect
end Netier.Lib
