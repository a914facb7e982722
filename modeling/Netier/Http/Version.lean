import Netier.Http.Text
import Netier.Http.Message

/-! The two version numbers of a message. They are collected in an `int`, and the parsers
do not ask whether the number fits. -/
namespace Netier.HttpParser
open Lib

def intMax : Nat := 2 ^ 31 - 1

/-- `version * 10 + input - '0'`, from left to right; beyond an `int` it is undefined. -/
def versionDigit (version : Nat) (input : UInt8) : Option Nat :=
  if version * 10 + input.toNat ≤ intMax then some (version * 10 + input.toNat - 48) else none

theorem versionDigit_none {v : Nat} {c : UInt8} (h : versionDigit v c = none) : intMax < v * 10 + c.toNat := by
  unfold versionDigit at h
  split_ifs at h with hfits
  exact not_le.1 hfits

/-- Digits whose value can be collected. -/
structure VersionNumber where
  digits : List UInt8
  digits_ne : digits ≠ []
  digits_text : ∀ c ∈ digits, isDigit c
  fits : numeral 10 digits + 48 ≤ intMax

def VersionNumber.value (n : VersionNumber) : Nat := numeral 10 n.digits

section Digits
variable {c : UInt8} {s run : List UInt8} {v w : Nat}

theorem digitValue_of_isDigit (hc : isDigit c) : digitValue c = c.toNat - 48 := by
  simp [digitValue, hc]

theorem isDigit_bounds (hc : isDigit c) : 48 ≤ c.toNat ∧ c.toNat ≤ 57 := by
  simpa [isDigit, UInt8.le_iff_toNat_le] using hc

/-- One more digit, if there is room for it. -/
def versionPush (v : Nat) (c : UInt8) : Option Nat := if isDigit c then versionDigit v c else none

theorem versionPush_eq_some : versionPush v c = some w ↔
    isDigit c ∧ w = v * 10 + digitValue c ∧ w + 48 ≤ intMax := by
  by_cases hc : isDigit c
  · have hb := isDigit_bounds hc
    simp only [versionPush, versionDigit, hc, if_true, digitValue_of_isDigit hc, true_and]
    split_ifs with hfits
    · rw [Option.some.injEq]
      omega
    · simp only [false_iff]
      omega
  · simp [versionPush, hc]

theorem le_foldl_digits (s : List UInt8) (v : Nat) : v ≤ s.foldl (fun n c => n * 10 + digitValue c) v := by
  induction s generalizing v with
  | nil => exact le_refl v
  | cons c s ih =>
    have h := ih (v * 10 + digitValue c)
    rw [List.foldl_cons]
    omega

theorem foldlM_versionPush (run : List UInt8) (hv : v + 48 ≤ intMax) :
    run.foldlM versionPush v = some w ↔ (∀ c ∈ run, isDigit c) ∧
      run.foldl (fun n c => n * 10 + digitValue c) v = w ∧ w + 48 ≤ intMax := by
  induction run generalizing v with
  | nil =>
    constructor
    · intro h
      cases h
      exact ⟨by simp, rfl, hv⟩
    · rintro ⟨_, rfl, _⟩
      rfl
  | cons c run ih =>
    rw [List.foldlM_cons, List.foldl_cons, List.forall_mem_cons]
    constructor
    · intro h
      obtain ⟨v', hpush, hrun⟩ := Option.bind_eq_some_iff.1 h
      obtain ⟨hc, rfl, hfits⟩ := versionPush_eq_some.1 hpush
      obtain ⟨hdigits, hvalue, hw⟩ := (ih hfits).1 hrun
      exact ⟨⟨hc, hdigits⟩, hvalue, hw⟩
    · rintro ⟨⟨hc, hdigits⟩, hvalue, hw⟩
      have hle := le_foldl_digits run (v * 10 + digitValue c)
      have hfits : v * 10 + digitValue c + 48 ≤ intMax := by omega
      refine Option.bind_eq_some_iff.2 ⟨_, versionPush_eq_some.2 ⟨hc, rfl, hfits⟩, ?_⟩
      exact (ih hfits).2 ⟨hdigits, hvalue, hw⟩

/-- Collecting digits succeeds on the numbers that fit. -/
theorem versionNumber_iff : (isDigit c ∧ run.foldlM versionPush (c.toNat - 48) = some v) ↔
    ∃ n : VersionNumber, n.digits = c :: run ∧ n.value = v := by
  have hnumeral : numeral 10 (c :: run) = run.foldl (fun n c => n * 10 + digitValue c) (digitValue c) := by
    simp [numeral]
  constructor
  · rintro ⟨hc, hrun⟩
    have hb := isDigit_bounds hc
    have hfits : c.toNat - 48 + 48 ≤ intMax := by
      unfold intMax
      omega
    obtain ⟨hdigits, hvalue, hw⟩ := (foldlM_versionPush run hfits).1 hrun
    rw [← digitValue_of_isDigit hc, ← hnumeral] at hvalue
    exact ⟨⟨c :: run, by simp, List.forall_mem_cons.2 ⟨hc, hdigits⟩, by rw [hvalue]; exact hw⟩,
      rfl, hvalue⟩
  · rintro ⟨⟨digits, _, htext, hfits⟩, rfl, rfl⟩
    obtain ⟨hc, hdigits⟩ := List.forall_mem_cons.1 htext
    have hb := isDigit_bounds hc
    refine ⟨hc, (foldlM_versionPush run ?_).2 ⟨hdigits, ?_, hfits⟩⟩
    · unfold intMax
      omega
    · rw [← digitValue_of_isDigit hc, ← hnumeral]
      rfl

end Digits

def printVersion (major minor : VersionNumber) : List UInt8 :=
  ascii "HTTP/" ++ (major.digits ++ 46 :: minor.digits)

theorem versionPush_none {v : Nat} {c : UInt8} (hc : isDigit c) (h : versionPush v c = none) :
    versionDigit v c = none := by
  simpa [versionPush, hc] using h

theorem versionPush_some {v w : Nat} {c : UInt8} (h : versionPush v c = some w) :
    isDigit c ∧ versionDigit v c = some w := by
  cases hc : isDigit c <;> simp_all [versionPush]

theorem isDigit_ne {c e : UInt8} (hc : isDigit c) (he : isDigit e = false) : c ≠ e := by
  rintro rfl
  simp [hc] at he

/-- The two states that read a number, in either parser. -/
theorem version_iff {σ : Type} {step : σ → UInt8 → Next σ Verdict} {start : σ} (loop next : Nat → σ)
    {e : UInt8}
    (he : isDigit e = false)
    (hstart : ∀ c, step start c = if isDigit c then .more (loop (c.toNat - 48)) else .stop .error start)
    (hloop : ∀ v c, step (loop v) c =
      if c = e then .more (next v)
      else if isDigit c then
        match versionDigit v c with
        | none => .stop .undefined (loop v)
        | some w => .more (loop w)
      else .stop .error (loop v)) {bs left : List UInt8} {t : σ} :
    feedRest step start bs = .stop (.completed, left) t ↔ ∃ (n : VersionNumber) (rest : List UInt8),
      bs = n.digits ++ e :: rest ∧ feedRest step (next n.value) rest = .stop (.completed, left) t := by
  have hexit : ∀ v, step (loop v) e = .more (next v) := fun v => by simp [hloop]
  have hrun : ∀ v bs, feedRest step (loop v) bs = .stop (.completed, left) t ↔
      ∃ run rest w, bs = run ++ e :: rest ∧ run.foldlM versionPush v = some w ∧
        feedRest step (loop w) (e :: rest) = .stop (.completed, left) t := by
    refine stop_tryLoop_iff loop versionPush ?push ?exit ?leave
    case push =>
      intro v c w hpush
      obtain ⟨hc, hdigit⟩ := versionPush_some hpush
      simp [hloop, isDigit_ne hc he, hc, hdigit]
    case exit =>
      intro v
      simp [versionPush, he]
    case leave =>
      intro v c hpush hne
      cases hc : isDigit c with
      | true => exact ⟨.undefined, loop v, by simp [hloop, hne, hc, versionPush_none hc hpush], by decide⟩
      | false => exact ⟨.error, loop v, by simp [hloop, hne, hc], by decide⟩
  simp only [rest_cons_more (hexit _)] at hrun
  cases bs with
  | nil => simp [feedRest]
  | cons c bs =>
    constructor
    · intro h
      cases hc : isDigit c with
      | false => rw [rest_cons_stop (by rw [hstart, hc]; rfl)] at h; cases h
      | true =>
        rw [rest_cons_more (by rw [hstart, hc]; rfl), hrun] at h
        obtain ⟨run, rest, v, rfl, hcollect, h⟩ := h
        obtain ⟨n, hdigits, rfl⟩ := versionNumber_iff.1 ⟨hc, hcollect⟩
        exact ⟨n, rest, by rw [hdigits]; rfl, h⟩
    · rintro ⟨n, rest, hsplit, h⟩
      obtain ⟨c', run, hdigits⟩ := List.exists_cons_of_ne_nil n.digits_ne
      obtain ⟨hc, hcollect⟩ := versionNumber_iff.2 ⟨n, hdigits, rfl⟩
      obtain ⟨rfl, rfl⟩ : c = c' ∧ bs = run ++ e :: rest := by simpa [hdigits] using hsplit
      rw [rest_cons_more (by rw [hstart, hc]; rfl), hrun]
      exact ⟨run, rest, n.value, rfl, hcollect, h⟩

end Netier.HttpParser
