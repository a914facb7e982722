import Mathlib.Logic.Function.Basic

/-! Resources that are granted to an owner, handed from one owner to another, and released when
their owner goes. The same resource may be granted again once it has been released. -/
namespace Netier.Lib
variable {κ ρ : Type} [DecidableEq κ] [DecidableEq ρ]

/-- Who owns what, and every grant and release so far, newest first. -/
structure Holdings (κ ρ : Type) where
  owns : κ → Option ρ
  granted : List ρ
  released : List ρ

inductive Holding (κ ρ : Type) where
  | grant (k : κ) (x : ρ)
  | handOver (k j : κ)
  | drop (k : κ)

namespace Holdings

def empty : Holdings κ ρ := ⟨fun _ => none, [], []⟩

/-- `handOver k j` gives `k` what `j` owns. -/
def next (h : Holdings κ ρ) : Holding κ ρ → Holdings κ ρ
  | .grant k x => ⟨Function.update h.owns k (some x), x :: h.granted, h.released⟩
  | .handOver k j =>
    ⟨Function.update (Function.update h.owns k (h.owns j)) j none, h.granted, h.released⟩
  | .drop k =>
    ⟨Function.update h.owns k none, h.granted, (h.owns k).toList ++ h.released⟩

omit [DecidableEq κ] [DecidableEq ρ] in
/-- What is granted has no owner, and goes, as what is handed over does, to one who owns
nothing. -/
def Allows (h : Holdings κ ρ) : Holding κ ρ → Prop
  | .grant k x => h.owns k = none ∧ ∀ j, h.owns j ≠ some x
  | .handOver k j => h.owns k = none ∧ k ≠ j
  | .drop _ => True

omit [DecidableEq κ] in
/-- Nothing has two owners; what is owned has been released once less often than granted, and
everything else as often. -/
structure Settled (h : Holdings κ ρ) : Prop where
  exclusive : ∀ k j x, h.owns k = some x → h.owns j = some x → k = j
  held : ∀ k x, h.owns k = some x → h.granted.count x = h.released.count x + 1
  free : ∀ x, (∀ k, h.owns k ≠ some x) → h.granted.count x = h.released.count x

omit [DecidableEq κ] in
theorem empty_settled : (empty : Holdings κ ρ).Settled where
  exclusive := by simp [empty]
  held := by simp [empty]
  free := by simp [empty]

section Grant
variable {h : Holdings κ ρ} {k i : κ} {x y : ρ}

omit [DecidableEq ρ] in
theorem grant_owns_iff : (h.next (.grant k x)).owns i = some y ↔
    i = k ∧ x = y ∨ i ≠ k ∧ h.owns i = some y := by
  by_cases hi : i = k
  · subst hi
    simp [next]
  · simp [next, hi]

theorem Settled.grant (hs : h.Settled) (ha : h.Allows (.grant k x)) :
    (h.next (.grant k x)).Settled := by
  obtain ⟨hempty, hfree⟩ := ha
  refine ⟨fun a b y hy hy' => ?_, fun a y hy => ?_, fun y hy => ?_⟩
  · rcases grant_owns_iff.1 hy with ⟨rfl, rfl⟩ | ⟨_, hya⟩
    · rcases grant_owns_iff.1 hy' with ⟨rfl, _⟩ | ⟨_, hyb⟩
      · rfl
      · exact absurd hyb (hfree b)
    · rcases grant_owns_iff.1 hy' with ⟨rfl, rfl⟩ | ⟨_, hyb⟩
      · exact absurd hya (hfree a)
      · exact hs.exclusive a b y hya hyb
  · show (x :: h.granted).count y = h.released.count y + 1
    rcases grant_owns_iff.1 hy with ⟨rfl, rfl⟩ | ⟨_, hy⟩
    · rw [List.count_cons_self, hs.free x hfree]
    · have hne : x ≠ y := fun heq => hfree a (heq ▸ hy)
      rw [List.count_cons_of_ne hne, hs.held a y hy]
  · show (x :: h.granted).count y = h.released.count y
    have hne : x ≠ y := fun heq => hy k (grant_owns_iff.2 (.inl ⟨rfl, heq⟩))
    rw [List.count_cons_of_ne hne]
    refine hs.free y fun i hi => ?_
    have hik : i ≠ k := fun heq => by simp [heq ▸ hi] at hempty
    exact hy i (grant_owns_iff.2 (.inr ⟨hik, hi⟩))

end Grant

section HandOver
variable {h : Holdings κ ρ} {k j i : κ} {y : ρ}

omit [DecidableEq ρ] in
theorem handOver_owns_iff : (h.next (.handOver k j)).owns i = some y ↔
    i ≠ j ∧ (i = k ∧ h.owns j = some y ∨ i ≠ k ∧ h.owns i = some y) := by
  by_cases hj : i = j
  · subst hj
    simp [next]
  · by_cases hi : i = k
    · subst hi
      simp [next, hj]
    · simp [next, hi, hj]

theorem Settled.handOver (hs : h.Settled) (ha : h.Allows (.handOver k j)) :
    (h.next (.handOver k j)).Settled := by
  obtain ⟨hempty, hne⟩ := ha
  refine ⟨fun a b y hy hy' => ?_, fun a y hy => ?_, fun y hy => ?_⟩
  · obtain ⟨haj, ⟨rfl, hya⟩ | ⟨_, hya⟩⟩ := handOver_owns_iff.1 hy
    · obtain ⟨hbj, ⟨rfl, _⟩ | ⟨_, hyb⟩⟩ := handOver_owns_iff.1 hy'
      · rfl
      · exact absurd (hs.exclusive b j y hyb hya) hbj
    · obtain ⟨_, ⟨rfl, hyb⟩ | ⟨_, hyb⟩⟩ := handOver_owns_iff.1 hy'
      · exact absurd (hs.exclusive a j y hya hyb) haj
      · exact hs.exclusive a b y hya hyb
  · obtain ⟨_, ⟨_, hy⟩ | ⟨_, hy⟩⟩ := handOver_owns_iff.1 hy
    · exact hs.held j y hy
    · exact hs.held a y hy
  · refine hs.free y fun i hi => ?_
    by_cases hij : i = j
    · exact hy k (handOver_owns_iff.2 ⟨hne, .inl ⟨rfl, hij ▸ hi⟩⟩)
    · have hik : i ≠ k := fun heq => by simp [heq ▸ hi] at hempty
      exact hy i (handOver_owns_iff.2 ⟨hij, .inr ⟨hik, hi⟩⟩)

end HandOver

section Drop
variable {h : Holdings κ ρ} {k i : κ} {x y : ρ}

omit [DecidableEq ρ] in
theorem drop_owns_iff : (h.next (.drop k)).owns i = some y ↔ i ≠ k ∧ h.owns i = some y := by
  by_cases hi : i = k
  · subst hi
    simp [next]
  · simp [next, hi]

omit [DecidableEq ρ] in
theorem drop_released (hk : h.owns k = some x) :
    (h.next (.drop k)).released = x :: h.released := by
  simp [next, hk]

omit [DecidableEq ρ] in
theorem drop_released_none (hk : h.owns k = none) :
    (h.next (.drop k)).released = h.released := by
  simp [next, hk]

theorem Settled.drop (hs : h.Settled) (k : κ) : (h.next (.drop k)).Settled := by
  refine ⟨fun a b y hy hy' => ?_, fun a y hy => ?_, fun y hy => ?_⟩
  · exact hs.exclusive a b y (drop_owns_iff.1 hy).2 (drop_owns_iff.1 hy').2
  · obtain ⟨hak, hy⟩ := drop_owns_iff.1 hy
    cases hk : h.owns k with
    | none =>
      rw [drop_released_none hk]
      exact hs.held a y hy
    | some x =>
      have hne : x ≠ y := fun heq => hak (hs.exclusive a k y hy (heq ▸ hk))
      rw [drop_released hk, List.count_cons_of_ne hne]
      exact hs.held a y hy
  · have hothers : ∀ i, i ≠ k → h.owns i ≠ some y := fun i hik hi => hy i (drop_owns_iff.2 ⟨hik, hi⟩)
    cases hk : h.owns k with
    | none =>
      rw [drop_released_none hk]
      refine hs.free y fun i hi => ?_
      by_cases hik : i = k
      · simp [hik, hk] at hi
      · exact hothers i hik hi
    | some x =>
      rw [drop_released hk]
      by_cases hxy : x = y
      · subst hxy
        rw [List.count_cons_self]
        exact hs.held k x hk
      · rw [List.count_cons_of_ne hxy]
        refine hs.free y fun i hi => ?_
        by_cases hik : i = k
        · rw [hik, hk, Option.some.injEq] at hi
          exact hxy hi
        · exact hothers i hik hi

end Drop

/-- Every allowed step keeps the account. -/
theorem Settled.next {h : Holdings κ ρ} (hs : h.Settled) {a : Holding κ ρ} (ha : h.Allows a) :
    (h.next a).Settled := by
  cases a with
  | grant k x => exact hs.grant ha
  | handOver k j => exact hs.handOver ha
  | drop k => exact hs.drop k

end Holdings
end Netier.Lib
