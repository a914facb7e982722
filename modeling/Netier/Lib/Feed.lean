import Mathlib.Data.List.TakeWhile

/-! Machines that are fed one symbol after the other, until one of them makes the machine
stop with a verdict. What is left of the input then is not looked at. -/
namespace Netier.Lib
variable {σ τ β ω ι : Type}

inductive Next (σ ω : Type) where
  | more (s : σ)
  | stop (w : ω) (s : σ)
  deriving DecidableEq, Repr

def Next.andThen : Next σ ω → (σ → Next σ ω) → Next σ ω
  | .more s, f => f s
  | .stop w s, _ => .stop w s

def Next.map (f : σ → τ) : Next σ ω → Next τ ω
  | .more s => .more (f s)
  | .stop w s => .stop w (f s)

def feed (step : σ → β → Next σ ω) : σ → List β → Next σ ω
  | s, [] => .more s
  | s, b :: bs => (step s b).andThen fun s' => feed step s' bs

/-- The input comes in pieces. -/
def feedAll (step : σ → β → Next σ ω) : σ → List (List β) → Next σ ω
  | s, [] => .more s
  | s, p :: ps => (feed step s p).andThen fun s' => feedAll step s' ps

/-- Goes on as `andThen` does. What stops here leaves the rest of the input. -/
def Next.andRest (rest : List β) : Next σ ω → (σ → Next σ (ω × List β)) → Next σ (ω × List β)
  | .more s, f => f s
  | .stop w s, _ => .stop (w, rest) s

/-- The machine that tells with its verdict what is left of the input. -/
def feedRest (step : σ → β → Next σ ω) : σ → List β → Next σ (ω × List β)
  | s, [] => .more s
  | s, b :: bs => (step s b).andRest bs fun s' => feedRest step s' bs

def Next.forget : Next σ (ω × List β) → Next σ ω
  | .more s => .more s
  | .stop w s => .stop w.1 s

section Feed
variable {step : σ → β → Next σ ω} {s t : σ} {w : ω} {b : β} {bs cs left : List β}

theorem andThen_assoc (x : Next σ ω) (f g : σ → Next σ ω) :
    (x.andThen f).andThen g = x.andThen fun s => (f s).andThen g := by
  cases x <;> rfl

theorem feed_append (s : σ) (bs cs : List β) :
    feed step s (bs ++ cs) = (feed step s bs).andThen fun t => feed step t cs := by
  induction bs generalizing s with
  | nil => rfl
  | cons b bs ih => simp only [List.cons_append, feed, ih, andThen_assoc]

/-- How the input is cut into pieces makes no difference. -/
theorem feedAll_eq (s : σ) (ps : List (List β)) : feedAll step s ps = feed step s ps.flatten := by
  induction ps generalizing s with
  | nil => rfl
  | cons p ps ih => simp only [feedAll, List.flatten_cons, feed_append, ih]

theorem feed_cons_more (h : step s b = .more t) (bs : List β) :
    feed step s (b :: bs) = feed step t bs := by
  rw [feed, h]
  rfl

theorem feed_cons_stop (h : step s b = .stop w t) (bs : List β) :
    feed step s (b :: bs) = .stop w t := by
  rw [feed, h]
  rfl

theorem rest_cons_more (h : step s b = .more t) (bs : List β) :
    feedRest step s (b :: bs) = feedRest step t bs := by
  rw [feedRest, h]
  rfl

theorem rest_cons_stop (h : step s b = .stop w t) (bs : List β) :
    feedRest step s (b :: bs) = .stop (w, bs) t := by
  rw [feedRest, h]
  rfl

theorem feed_eq_rest (s : σ) (bs : List β) : feed step s bs = (feedRest step s bs).forget := by
  induction bs generalizing s with
  | nil => rfl
  | cons b bs ih =>
    cases hb : step s b with
    | more a => rw [feed_cons_more hb, rest_cons_more hb, ih]
    | stop w a =>
      rw [feed_cons_stop hb, rest_cons_stop hb]
      rfl

theorem feed_stop_iff : feed step s bs = .stop w t ↔ ∃ left, feedRest step s bs = .stop (w, left) t := by
  rw [feed_eq_rest]
  cases feedRest step s bs with
  | more a => simp [Next.forget]
  | stop v a =>
    obtain ⟨v, left⟩ := v
    simp [Next.forget]

/-- A machine that has stopped was stopped by one symbol, before which it went on. -/
theorem rest_stop_inv (h : feedRest step s bs = .stop (w, left) t) :
    ∃ pre b a, bs = pre ++ b :: left ∧ feed step s pre = .more a ∧ step a b = .stop w t := by
  induction bs generalizing s with
  | nil => cases h
  | cons b bs ih =>
    cases hb : step s b with
    | more a =>
      rw [rest_cons_more hb] at h
      obtain ⟨pre, c, a', rfl, hpre, hstop⟩ := ih h
      exact ⟨b :: pre, c, a', rfl, by rw [feed_cons_more hb, hpre], hstop⟩
    | stop w' a =>
      rw [rest_cons_stop hb] at h
      cases h
      exact ⟨[], b, s, rfl, rfl, hb⟩

theorem feed_stop_inv (h : feed step s bs = .stop w t) :
    ∃ pre b post a, bs = pre ++ b :: post ∧ feed step s pre = .more a ∧ step a b = .stop w t := by
  obtain ⟨post, h⟩ := feed_stop_iff.1 h
  obtain ⟨pre, b, a, hsplit, hpre, hstop⟩ := rest_stop_inv h
  exact ⟨pre, b, post, a, hsplit, hpre, hstop⟩

theorem feed_more_prefix (h : feed step s (bs ++ cs) = .more t) : ∃ a, feed step s bs = .more a := by
  rw [feed_append] at h
  cases hbs : feed step s bs with
  | more a => exact ⟨a, rfl⟩
  | stop w a =>
    rw [hbs] at h
    cases h

/-- It goes on as long as what it will stop at is not there as a whole. -/
theorem feed_waits (h : feedRest step s (bs ++ left) = .stop (w, left) t) {pre : List β} (hpre : pre <+: bs)
    (hne : pre ≠ bs) : ∃ a, feed step s pre = .more a := by
  obtain ⟨taken, b, a, hsplit, htaken, _⟩ := rest_stop_inv h
  obtain rfl : bs = taken ++ [b] := List.append_cancel_right (hsplit.trans (List.append_cons taken b left))
  obtain ⟨more, hmore⟩ := (List.prefix_concat_iff.1 hpre).resolve_left hne
  rw [← hmore] at htaken
  exact feed_more_prefix htaken

/-- What every symbol keeps holds as long as the machine goes on. -/
theorem feed_invariant {I : σ → Prop} (hstep : ∀ a b a', I a → step a b = .more a' → I a') (hs : I s)
    (h : feed step s bs = .more t) : I t := by
  induction bs generalizing s with
  | nil =>
    cases h
    exact hs
  | cons b bs ih =>
    cases hb : step s b with
    | more a =>
      rw [feed_cons_more hb] at h
      exact ih (hstep _ _ _ hs hb) h
    | stop w' a =>
      rw [feed_cons_stop hb] at h
      cases h

/-- What every symbol keeps may speak about the symbols that were read. -/
theorem feed_history {I : List β → σ → Prop}
    (hstep : ∀ pre a b a', I pre a → step a b = .more a' → I (pre ++ [b]) a')
    {pre : List β} (hs : I pre s) (h : feed step s bs = .more t) : I (pre ++ bs) t := by
  induction bs generalizing s pre with
  | nil =>
    cases h
    simpa using hs
  | cons b bs ih =>
    cases hb : step s b with
    | more a =>
      rw [feed_cons_more hb] at h
      simpa using ih (hstep _ _ _ _ hs hb) h
    | stop w' a =>
      rw [feed_cons_stop hb] at h
      cases h

@[simp] theorem map_more_iff {x : Next σ ω} {f : σ → τ} {t : τ} :
    x.map f = .more t ↔ ∃ s, x = .more s ∧ f s = t := by
  cases x with
  | more s => simp [Next.map]
  | stop w s => simp [Next.map]

@[simp] theorem map_stop_iff {x : Next σ ω} {f : σ → τ} {t : τ} :
    x.map f = .stop w t ↔ ∃ s, x = .stop w s ∧ f s = t := by
  cases x with
  | more s => simp [Next.map]
  | stop v s =>
    constructor
    · rintro h
      cases h
      exact ⟨s, rfl, rfl⟩
    · rintro ⟨_, h, rfl⟩
      cases h
      rfl

/-- A machine that takes the texts of a language stops at the end of a text and not before it:
what it has until then is no text. -/
theorem texts_awaited {print : ι → List β} {read : ι → Option σ}
    (htexts : ∀ bs left t, feedRest step s bs = .stop (w, left) t ↔ ∃ x, bs = print x ++ left ∧ read x = some t)
    {x : ι} (hx : read x = some t) {pre missing : List β} (hsplit : print x = pre ++ missing)
    (hmissing : missing ≠ []) : (∃ a, feed step s pre = .more a) ∧ ∀ y, print y = pre → read y = none := by
  have hstop : feedRest step s (print x ++ []) = .stop (w, []) t := (htexts _ _ _).2 ⟨x, rfl, hx⟩
  have hne : pre ≠ print x := by simpa [hsplit] using hmissing
  obtain ⟨a, ha⟩ := feed_waits hstop ⟨missing, hsplit.symm⟩ hne
  refine ⟨⟨a, ha⟩, ?_⟩
  rintro y rfl
  cases hy : read y with
  | none => rfl
  | some u =>
    have hearly : feed step s (print y) = .stop w u :=
      feed_stop_iff.2 ⟨[], (htexts _ _ _).2 ⟨y, by simp, hy⟩⟩
    rw [hearly] at ha
    cases ha

/-- One machine inside another. -/
theorem rest_map {step' : τ → β → Next τ ω} {f : σ → τ} (h : ∀ s b, step' (f s) b = (step s b).map f)
    (s : σ) (bs : List β) : feedRest step' (f s) bs = (feedRest step s bs).map f := by
  induction bs generalizing s with
  | nil => rfl
  | cons b bs ih =>
    cases hb : step s b with
    | more a =>
      rw [rest_cons_more hb, rest_cons_more (by rw [h, hb]; rfl), ih]
    | stop w a =>
      rw [rest_cons_stop hb, rest_cons_stop (by rw [h, hb]; rfl)]
      rfl

end Feed

section Stops
variable {step : σ → β → Next σ ω} {s t : σ} {w : ω} {bs left : List β}

/-- The symbol stops the machine, with another verdict. -/
def Rejects (step : σ → β → Next σ ω) (w : ω) (s : σ) (b : β) : Prop :=
  ∃ v t, step s b = .stop v t ∧ v ≠ w

theorem Rejects.not_stop {b : β} (h : Rejects step w s b) (bs : List β) :
    feedRest step s (b :: bs) ≠ .stop (w, left) t := by
  obtain ⟨v, u, hb, hne⟩ := h
  rw [rest_cons_stop hb]
  intro heq
  cases heq
  exact hne rfl

theorem stop_nil : feedRest step s [] ≠ .stop (w, left) t := by
  intro h
  cases h

/-- A state with one way on. -/
theorem stop_expect_iff {s' : σ} {b : β} (hb : step s b = .more s')
    (hne : ∀ c, c ≠ b → Rejects step w s c) :
    feedRest step s bs = .stop (w, left) t ↔ ∃ rest, bs = b :: rest ∧ feedRest step s' rest = .stop (w, left) t := by
  constructor
  · intro h
    cases bs with
    | nil => exact absurd h stop_nil
    | cons c rest =>
      by_cases hc : c = b
      · subst hc
        rw [rest_cons_more hb] at h
        exact ⟨rest, rfl, h⟩
      · exact absurd h ((hne c hc).not_stop rest)
  · rintro ⟨rest, rfl, h⟩
    rw [rest_cons_more hb, h]

/-- From one state to another there is one way, along a word. -/
def Spells (step : σ → β → Next σ ω) (w : ω) : σ → List β → σ → Prop
  | s, [], s' => s = s'
  | s, b :: bs, s' =>
    ∃ a, step s b = .more a ∧ (∀ c, c ≠ b → Rejects step w s c) ∧ Spells step w a bs s'

theorem stop_spells_iff {word : List β} {s' : σ} (hword : Spells step w s word s') :
    feedRest step s bs = .stop (w, left) t ↔ ∃ rest, bs = word ++ rest ∧ feedRest step s' rest = .stop (w, left) t := by
  induction word generalizing s bs with
  | nil =>
    cases hword
    simp
  | cons b word ih =>
    obtain ⟨a, hb, hne, hword⟩ := hword
    rw [stop_expect_iff hb hne]
    simp only [ih hword]
    constructor
    · rintro ⟨_, rfl, rest, rfl, h⟩
      exact ⟨rest, rfl, h⟩
    · rintro ⟨rest, rfl, h⟩
      exact ⟨word ++ rest, rfl, rest, rfl, h⟩

/-- A state that comes back to itself as long as it can add a symbol to what it holds. -/
theorem stop_tryLoop_iff {e : β} (loop : ι → σ) (push : ι → β → Option ι)
    (hloop : ∀ a b a', push a b = some a' → step (loop a) b = .more (loop a')) (he : ∀ a, push a e = none)
    (hne : ∀ a b, push a b = none → b ≠ e → Rejects step w (loop a) b) (a : ι) (bs : List β) :
    feedRest step (loop a) bs = .stop (w, left) t ↔
      ∃ run rest a', bs = run ++ e :: rest ∧ run.foldlM push a = some a' ∧
      feedRest step (loop a') (e :: rest) = .stop (w, left) t := by
  induction bs generalizing a with
  | nil => simp [feedRest]
  | cons b bs ih =>
    constructor
    · intro h
      cases hpush : push a b with
      | some a' =>
        rw [rest_cons_more (hloop a b a' hpush), ih] at h
        obtain ⟨run, rest, a'', rfl, hrun, h⟩ := h
        exact ⟨b :: run, rest, a'', rfl, by rw [List.foldlM_cons, hpush]; exact hrun, h⟩
      | none =>
        by_cases hb : b = e
        · subst hb
          exact ⟨[], bs, a, rfl, rfl, h⟩
        · exact absurd h ((hne a b hpush hb).not_stop bs)
    · rintro ⟨run, rest, a', hsplit, hrun, h⟩
      cases run with
      | nil =>
        cases hrun
        rw [hsplit]
        exact h
      | cons c run =>
        obtain ⟨rfl, rfl⟩ : b = c ∧ bs = run ++ e :: rest := by simpa using hsplit
        rw [List.foldlM_cons] at hrun
        obtain ⟨a₁, hpush, hrun⟩ := Option.bind_eq_some_iff.1 hrun
        rw [rest_cons_more (hloop a b a₁ hpush)]
        exact (ih a₁).2 ⟨run, rest, a', rfl, hrun, h⟩

theorem foldl_snoc (a run : List β) : run.foldl (fun a b => a ++ [b]) a = a ++ run := by
  induction run generalizing a with
  | nil => simp
  | cons b run ih => simp [ih]

section Loops
variable (P : β → Prop) [DecidablePred P] (loop : ι → σ) (push : ι → β → ι)

omit [DecidablePred P] in
/-- A state that takes symbols of one kind and comes back to itself. -/
theorem rest_loop (hloop : ∀ a b, P b → step (loop a) b = .more (loop (push a b))) (a : ι) {run : List β}
    (hrun : ∀ b ∈ run, P b) (bs : List β) :
    feedRest step (loop a) (run ++ bs) = feedRest step (loop (run.foldl push a)) bs := by
  induction run generalizing a with
  | nil => rfl
  | cons b run ih =>
    rw [List.cons_append, rest_cons_more (hloop a b (hrun b (by simp))),
      ih (push a b) fun c hc => hrun c (by simp [hc]), List.foldl_cons]

/-- Such a state is left by the first symbol of another kind. -/
theorem stop_loop_iff (hloop : ∀ a b, P b → step (loop a) b = .more (loop (push a b))) (a : ι) :
    feedRest step (loop a) bs = .stop (w, left) t ↔
      ∃ run b rest, bs = run ++ b :: rest ∧ (∀ c ∈ run, P c) ∧ ¬ P b ∧
      feedRest step (loop (run.foldl push a)) (b :: rest) = .stop (w, left) t := by
  constructor
  · intro h
    have hrun : ∀ c ∈ bs.takeWhile P, P c := fun c hc => by simpa using List.mem_takeWhile_imp hc
    have hsplit := bs.takeWhile_append_dropWhile (p := fun c => decide (P c))
    cases hdrop : bs.dropWhile P with
    | nil =>
      rw [hdrop] at hsplit
      rw [← hsplit, rest_loop P loop push hloop a hrun] at h
      exact absurd h stop_nil
    | cons b rest =>
      rw [hdrop] at hsplit
      have hb : ¬ P b := by
        have hhead := List.head?_dropWhile_not (fun c => decide (P c)) bs
        simpa [hdrop] using hhead
      rw [← hsplit, rest_loop P loop push hloop a hrun] at h
      exact ⟨_, b, rest, hsplit.symm, hrun, hb, h⟩
  · rintro ⟨run, b, rest, rfl, hrun, _, h⟩
    rw [rest_loop P loop push hloop a hrun, h]

/-- With one symbol that leaves it without the wrong verdict. -/
theorem stop_loop_until_iff (e : β) (hloop : ∀ a b, P b → step (loop a) b = .more (loop (push a b)))
    (he : ¬ P e) (hne : ∀ a b, ¬ P b → b ≠ e → Rejects step w (loop a) b) (a : ι) :
    feedRest step (loop a) bs = .stop (w, left) t ↔ ∃ run rest, bs = run ++ e :: rest ∧ (∀ c ∈ run, P c) ∧
      feedRest step (loop (run.foldl push a)) (e :: rest) = .stop (w, left) t := by
  rw [stop_loop_iff P loop push hloop]
  constructor
  · rintro ⟨run, b, rest, rfl, hrun, hb, h⟩
    by_cases hbe : b = e
    · subst hbe
      exact ⟨run, rest, rfl, hrun, h⟩
    · exact absurd h ((hne _ b hb hbe).not_stop rest)
  · rintro ⟨run, rest, rfl, hrun, h⟩
    exact ⟨run, e, rest, rfl, hrun, he, h⟩

omit [DecidablePred P] in
theorem feed_collect (loop : List β → σ) (hloop : ∀ a b, P b → step (loop a) b = .more (loop (a ++ [b])))
    (a : List β) {run : List β} (hrun : ∀ b ∈ run, P b) (bs : List β) :
    feed step (loop a) (run ++ bs) = feed step (loop (a ++ run)) bs := by
  rw [feed_eq_rest, rest_loop P loop _ hloop a hrun, foldl_snoc, feed_eq_rest]

end Loops

variable (P : β → Prop) [DecidablePred P]

/-- The loop appends what it takes to what it has. -/
theorem stop_collect_until_iff (loop : List β → σ) (e : β)
    (hloop : ∀ a b, P b → step (loop a) b = .more (loop (a ++ [b]))) (he : ¬ P e)
    (hne : ∀ a b, ¬ P b → b ≠ e → Rejects step w (loop a) b) (a : List β) :
    feedRest step (loop a) bs = .stop (w, left) t ↔ ∃ run rest, bs = run ++ e :: rest ∧ (∀ c ∈ run, P c) ∧
      feedRest step (loop (a ++ run)) (e :: rest) = .stop (w, left) t := by
  rw [stop_loop_until_iff P loop _ e hloop he hne]
  simp only [foldl_snoc]

/-- The loop forgets what it takes. -/
theorem stop_skip_iff (hloop : ∀ b, P b → step s b = .more s) :
    feedRest step s bs = .stop (w, left) t ↔ ∃ run b rest, bs = run ++ b :: rest ∧ (∀ c ∈ run, P c) ∧ ¬ P b ∧
      feedRest step s (b :: rest) = .stop (w, left) t :=
  stop_loop_iff P (fun _ : Unit => s) (fun a _ => a) (fun _ => hloop) ()

theorem stop_skip_until_iff (e : β) (hloop : ∀ b, P b → step s b = .more s) (he : ¬ P e)
    (hne : ∀ b, ¬ P b → b ≠ e → Rejects step w s b) :
    feedRest step s bs = .stop (w, left) t ↔ ∃ run rest, bs = run ++ e :: rest ∧ (∀ c ∈ run, P c) ∧
      feedRest step s (e :: rest) = .stop (w, left) t :=
  stop_loop_until_iff P (fun _ : Unit => s) (fun a _ => a) e (fun _ => hloop) he (fun _ => hne) ()

omit [DecidablePred P] in
/-- A loop that takes as many symbols as it was told, and then is done with them. -/
theorem stop_count_iff (loop : Nat → List β → σ) (done : List β → Next σ ω) (bound : Nat)
    (hmore : ∀ n a b, 0 < n → n < bound → step (loop (n + 1) a) b = .more (loop n (a ++ [b])))
    (hdone : ∀ a b, step (loop 1 a) b = done (a ++ [b])) {n : Nat} (hpos : 0 < n) (hn : n ≤ bound)
    (a bs : List β) :
    feedRest step (loop n a) bs = .stop (w, left) t ↔ ∃ data rest, bs = data ++ rest ∧ data.length = n ∧
      ((done (a ++ data)).andRest rest fun s' => feedRest step s' rest) = .stop (w, left) t := by
  induction n generalizing a bs with
  | zero => omega
  | succ n ih =>
    cases bs with
    | nil =>
      constructor
      · intro h
        exact absurd h stop_nil
      · rintro ⟨data, rest, hsplit, hlength, _⟩
        obtain ⟨rfl, rfl⟩ := List.append_eq_nil_iff.1 hsplit.symm
        cases hlength
    | cons b bs =>
      rcases Nat.eq_zero_or_pos n with rfl | hpos'
      · rw [feedRest, hdone]
        constructor
        · intro h
          exact ⟨[b], bs, rfl, rfl, h⟩
        · rintro ⟨data, rest, hsplit, hlength, h⟩
          obtain ⟨c, rfl⟩ := List.length_eq_one_iff.1 hlength
          obtain ⟨rfl, rfl⟩ : b = c ∧ bs = rest := by simpa using hsplit
          exact h
      · rw [rest_cons_more (hmore n a b hpos' (by omega)), ih hpos' (by omega)]
        constructor
        · rintro ⟨data, rest, rfl, hlength, h⟩
          exact ⟨b :: data, rest, rfl, by simp [hlength], by simpa using h⟩
        · rintro ⟨data, rest, hsplit, hlength, h⟩
          obtain ⟨c, data, rfl⟩ := List.exists_cons_of_length_eq_add_one hlength
          obtain ⟨rfl, rfl⟩ : b = c ∧ bs = data ++ rest := by simpa using hsplit
          exact ⟨data, rest, rfl, by simpa using hlength, by simpa using h⟩

end Stops

/-- A list is split in one way at its first symbol of another kind. -/
theorem split_unique {P : β → Prop} {xs ys r r' : List β} {a b : β} (hxs : ∀ c ∈ xs, P c)
    (hys : ∀ c ∈ ys, P c) (ha : ¬ P a) (hb : ¬ P b) (h : xs ++ a :: r = ys ++ b :: r') : xs = ys ∧ a = b ∧ r = r' := by
  induction xs generalizing ys with
  | nil =>
    cases ys with
    | nil => simpa using h
    | cons y ys =>
      obtain ⟨rfl, _⟩ : a = y ∧ r = ys ++ b :: r' := by simpa using h
      exact absurd (hys a (by simp)) ha
  | cons x xs ih =>
    cases ys with
    | nil =>
      obtain ⟨rfl, _⟩ : x = b ∧ xs ++ a :: r = r' := by simpa using h
      exact absurd (hxs x (by simp)) hb
    | cons y ys =>
      obtain ⟨rfl, htail⟩ : x = y ∧ xs ++ a :: r = ys ++ b :: r' := by simpa using h
      obtain ⟨rfl, hab, hr⟩ := ih (fun c hc => hxs c (by simp [hc])) (fun c hc => hys c (by simp [hc])) htail
      exact ⟨rfl, hab, hr⟩

section Star
variable {C D : σ → List β → Prop} {print : ι → List β} {read : σ → ι → Option σ}

/-- What is read as items one after the other, up to something else. -/
theorem star_iff (hprint : ∀ x, print x ≠ [])
    (hstep : ∀ s bs, C s bs ↔
      D s bs ∨ ∃ x rest s', bs = print x ++ rest ∧ read s x = some s' ∧ C s' rest) (s : σ) (bs : List β) :
    C s bs ↔ ∃ (xs : List ι) (rest : List β) (s' : σ),
      bs = xs.flatMap print ++ rest ∧ xs.foldlM read s = some s' ∧ D s' rest := by
  constructor
  · intro h
    induction hn : bs.length using Nat.strong_induction_on generalizing s bs with
    | _ n ih =>
      rcases (hstep s bs).1 h with hd | ⟨x, rest, s', rfl, hread, hrest⟩
      · exact ⟨[], bs, s, rfl, rfl, hd⟩
      · have hpos := List.length_pos_iff.2 (hprint x)
        rw [List.length_append] at hn
        obtain ⟨xs, rest', s'', rfl, hxs, hd⟩ := ih rest.length (by omega) s' rest hrest rfl
        refine ⟨x :: xs, rest', s'', by simp, ?_, hd⟩
        rw [List.foldlM_cons, hread]
        exact hxs
  · rintro ⟨xs, rest, s', rfl, hxs, hd⟩
    induction xs generalizing s with
    | nil =>
      cases hxs
      exact (hstep _ rest).2 (.inl hd)
    | cons x xs ih =>
      rw [List.foldlM_cons] at hxs
      obtain ⟨s₁, hread, hxs⟩ := Option.bind_eq_some_iff.1 hxs
      exact (hstep s _).2 (.inr ⟨x, xs.flatMap print ++ rest, s₁, by simp, hread, ih s₁ hxs⟩)

/-- Items that nothing is read from. -/
theorem star_plain_iff {C D : List β → Prop} (hprint : ∀ x, print x ≠ [])
    (hstep : ∀ bs, C bs ↔ D bs ∨ ∃ x rest, bs = print x ++ rest ∧ C rest) (bs : List β) :
    C bs ↔ ∃ (xs : List ι) (rest : List β), bs = xs.flatMap print ++ rest ∧ D rest := by
  have hread : ∀ xs : List ι, xs.foldlM (fun (_ : Unit) _ => some ()) () = some () := fun xs => by
    induction xs with
    | nil => rfl
    | cons x xs ih => exact ih
  have hstar : C bs ↔ ∃ (xs : List ι) (rest : List β) (s' : Unit), bs = xs.flatMap print ++ rest ∧
      xs.foldlM (fun _ _ => some ()) () = some s' ∧ D rest :=
    star_iff (C := fun _ => C) (D := fun _ => D) hprint (fun _ bs => (hstep bs).trans (by simp)) () bs
  simpa [hread] using hstar

end Star
end Netier.Lib
