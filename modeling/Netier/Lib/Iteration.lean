import Mathlib.Data.List.Nodup
import Netier.Lib.Outcome

/-! Loops over the keys of a container that the loop's body may change. An iterator stands at
a key or behind the last one; erasing its element makes it stale. -/
namespace Netier.Lib
variable {ε σ κ : Type} [DecidableEq κ]

/-- Where an iterator at `k` is advanced to. -/
def following (k : κ) : List κ → Option κ
  | [] => none
  | x :: xs => if x = k then xs.head? else following k xs

/-- The iterator is read before the body and advanced after it; `stale` is how both fail if
its element is gone. -/
def walk (keys : σ → List κ) (stale unbounded : ε) (body : κ → EStateM ε σ PUnit) :
    Nat → Option κ → EStateM ε σ PUnit
  | 0, _ => throw unbounded
  | _ + 1, none => pure ⟨⟩
  | fuel + 1, some k => do
    if k ∈ keys (← get) then
      body k
      let s ← get
      if k ∈ keys s then walk keys stale unbounded body fuel (following k (keys s)) else throw stale
    else throw stale

/-- `for (auto &t : container)`, of at most so many passes. -/
def forEach (keys : σ → List κ) (stale unbounded : ε) (body : κ → EStateM ε σ PUnit) (fuel : Nat) :
    EStateM ε σ PUnit := do
  let s ← get
  walk keys stale unbounded body fuel (keys s).head?

section Walk
variable {keys : σ → List κ} {stale unbounded : ε} {body : κ → EStateM ε σ PUnit} {fuel : Nat}
  {s s' : σ} {k : κ}

theorem walk_end : walk keys stale unbounded body (fuel + 1) none s = .ok ⟨⟩ s := rfl

/-- The body erased the element it was run on. -/
theorem walk_stale (hk : k ∈ keys s) (hbody : body k s = .ok ⟨⟩ s') (hgone : k ∉ keys s') :
    walk keys stale unbounded body (fuel + 1) (some k) s = .error stale s' := by
  rw [walk, bind_of_ok (get_run s), if_pos hk, bind_of_ok hbody, bind_of_ok (get_run s'),
    if_neg hgone]
  rfl

theorem walk_inv (h : walk keys stale unbounded body (fuel + 1) (some k) s = .ok ⟨⟩ s') :
    ∃ t, body k s = .ok ⟨⟩ t ∧ k ∈ keys t := by
  by_cases hk : k ∈ keys s
  · rw [walk, bind_of_ok (get_run s), if_pos hk] at h
    obtain ⟨_, t, hbody, h⟩ := bind_inv h
    rw [bind_of_ok (get_run t)] at h
    by_cases hkeep : k ∈ keys t
    · exact ⟨t, hbody, hkeep⟩
    · rw [if_neg hkeep] at h
      cases h
  · rw [walk, bind_of_ok (get_run s), if_neg hk] at h
    cases h

/-- A loop whose body erases the element it is run on comes to its end only over an empty
container. -/
theorem forEach_erasing_returns_iff
    (herases : ∀ k s s', body k s = .ok ⟨⟩ s' → k ∉ keys s') :
    (∃ s', forEach keys stale unbounded body (fuel + 1) s = .ok ⟨⟩ s') ↔ keys s = [] := by
  rw [forEach, bind_of_ok (get_run s)]
  cases hkeys : keys s with
  | nil => exact iff_of_true ⟨s, walk_end⟩ rfl
  | cons k ks =>
    refine iff_of_false ?_ (by simp)
    rintro ⟨s', hrun⟩
    obtain ⟨t, hbody, hkeep⟩ := walk_inv hrun
    exact herases k s t hbody hkeep

theorem forEach_nil (h : keys s = []) :
    forEach keys stale unbounded body (fuel + 1) s = .ok ⟨⟩ s := by
  rw [forEach, bind_of_ok (get_run s), h]
  exact walk_end

/-- It is stale after its first pass. -/
theorem forEach_stale {ks : List κ} (hkeys : keys s = k :: ks) (hbody : body k s = .ok ⟨⟩ s')
    (hgone : k ∉ keys s') :
    forEach keys stale unbounded body (fuel + 1) s = .error stale s' := by
  rw [forEach, bind_of_ok (get_run s), hkeys]
  exact walk_stale (by simp [hkeys]) hbody hgone

end Walk
end Netier.Lib
