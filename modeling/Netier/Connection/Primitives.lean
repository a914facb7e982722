import Netier.Connection.Context

/-! What the primitive steps return, and the state they return it in. -/
namespace Netier
open Lib
variable {α : Type} {w w' : World α}

theorem assert_run {σ : Type} (c : Bool) (s : σ) :
    assert c s = if c then .ok ⟨⟩ s else .error .assertion s := by
  cases c <;> rfl

theorem assert_inv {σ : Type} {c : Bool} {s t : σ} {u : Unit} (h : assert c s = .ok u t) : s = t := by
  rw [assert_run] at h
  split at h <;> cases h
  rfl

theorem this_run (h : w.freed = false) : this w = .ok w.context w := by
  simp [this, bind_run, h]

theorem this_inv {c : Context α} (h : this w = .ok c w') :
    w.freed = false ∧ w.context = c ∧ w = w' := by
  cases hf : w.freed with
  | true => simp [this, bind_run, hf] at h
  | false =>
    rw [this_run hf] at h
    cases h
    exact ⟨rfl, rfl, rfl⟩

@[simp] theorem this_final (w : World α) : final (this w) = w := by
  cases hf : w.freed <;> simp [this, bind_run, hf]

theorem readState_run {s : State} (h : w.freed = false) (hs : w.context.state = some s) :
    readState w = .ok s w := by
  simp [readState, bind_of_ok (this_run h), hs]

theorem readState_inv {s : State} (h : readState w = .ok s w') :
    w.freed = false ∧ w.context.state = some s ∧ w = w' := by
  cases hf : w.freed with
  | true => simp [readState, this, bind_run, hf] at h
  | false =>
    rw [readState, bind_of_ok (this_run hf)] at h
    cases hs : w.context.state with
    | none => simp [hs] at h
    | some s' =>
      simp only [hs, pure_run, EStateM.Result.ok.injEq] at h
      exact ⟨rfl, congrArg some h.1, h.2⟩

@[simp] theorem readState_final (w : World α) : final (readState w) = w := by
  cases hf : w.freed with
  | true => simp [readState, this, bind_run, hf]
  | false =>
    rw [readState, bind_of_ok (this_run hf)]
    cases w.context.state <;> rfl

theorem requireNotMoved_run {s : State} (h : w.freed = false) (hs : w.context.state = some s)
    (hm : s ≠ .moved) : requireNotMoved w = .ok ⟨⟩ w := by
  rw [requireNotMoved, bind_of_ok (readState_run h hs), assert_run]
  simp [hm]

@[simp] theorem requireNotMoved_final (w : World α) : final (requireNotMoved w) = w := by
  cases h : readState w with
  | ok s w' =>
    obtain ⟨_, _, rfl⟩ := readState_inv h
    rw [requireNotMoved, bind_of_ok h, assert_run]
    split <;> rfl
  | error e w' =>
    have hw := congrArg final h
    rw [readState_final] at hw
    rw [requireNotMoved, bind_of_error h]
    exact hw.symm

theorem requireNotMoved_inv {u : Unit} (h : requireNotMoved w = .ok u w') : w = w' := by
  have := congrArg final h
  simpa using this

theorem getFd_run (h : w.freed = false) (hfd : 0 < w.context.socket.fd) :
    getFd w = .ok w.context.socket.fd w := by
  rw [getFd, bind_of_ok (this_run h), bind_run, assert_run]
  simp [hfd]

@[simp] theorem getFd_final (w : World α) : final (getFd w) = w := by
  cases hf : w.freed with
  | true => simp [getFd, this, bind_run, hf]
  | false =>
    rw [getFd, bind_of_ok (this_run hf), bind_run, assert_run]
    by_cases hc : 0 < w.context.socket.fd <;> simp [hc]

theorem getFd_inv {fd : Fd} (h : getFd w = .ok fd w') : w = w' := by
  have := congrArg final h
  simpa using this

@[simp] theorem errno_run (w : World α) : errno w = .ok w.wire.errno w := rfl

@[simp] theorem log_run (w : World α) (e : Event α) : log e w = .ok ⟨⟩ (w.log e) := rfl

@[simp] theorem sysWrite_run (w : World α) (buf : List α) :
    sysWrite buf w = .ok (w.sysWrite buf).1 (w.sysWrite buf).2 := rfl

@[simp] theorem sysRead_run (w : World α) (writer : Nat) (answer : ReadAnswer α) :
    sysRead writer answer w = .ok (w.sysRead writer answer).1 (w.sysRead writer answer).2 := rfl

theorem assign_run (h : w.freed = false) (f : Context α → Context α) :
    assign f w = .ok ⟨⟩ (w.assign (f w.context)) := by
  rw [assign, bind_of_ok (this_run h), modify_run]

theorem assign_error {f : Context α → Context α} (h : w.freed = true) :
    assign f w = .error .useAfterFree w := by
  simp [assign, this, bind_run, h]

theorem setState_run (h : w.freed = false) (s : State) :
    setState s w = .ok ⟨⟩ (w.assign { w.context with state := some s }) := assign_run h _

theorem onWbuffer_run {f : Buffer α → Option (Buffer α)} {b : Buffer α} (h : w.freed = false)
    (hf : f w.context.wbuffer = some b) :
    onWbuffer f w = .ok ⟨⟩ (w.assign { w.context with wbuffer := b }) := by
  rw [onWbuffer, bind_of_ok (this_run h)]
  simp only [hf]
  exact assign_run h _

theorem onWbuffer_some (h : w.freed = false) (g : Buffer α → Buffer α) :
    onWbuffer (fun b => some (g b)) w =
      .ok ⟨⟩ (w.assign { w.context with wbuffer := g w.context.wbuffer }) :=
  onWbuffer_run h rfl

theorem onBuffer_run {f : Buffer α → Option (Buffer α)} {b : Buffer α} (h : w.freed = false)
    (hf : f w.context.buffer = some b) :
    onBuffer f w = .ok ⟨⟩ (w.assign { w.context with buffer := b }) := by
  rw [onBuffer, bind_of_ok (this_run h)]
  simp only [hf]
  exact assign_run h _

theorem onIoContext_run {x : Register Unit} {u : Unit} {r : Registration} (h : w.freed = false)
    (hx : x ⟨w.kernel, w.context.ioContext⟩ = .ok u r) :
    onIoContext x w =
      .ok ⟨⟩ ({ w with kernel := r.kernel }.assign { w.context with ioContext := r.ioContext }) := by
  rw [onIoContext, bind_of_ok (this_run h), bind_run]
  simp [hx]

theorem onIoContext_error {x : Register Unit} {e : Fault} {r : Registration} (h : w.freed = false)
    (hx : x ⟨w.kernel, w.context.ioContext⟩ = .error e r) : onIoContext x w = .error e w := by
  rw [onIoContext, bind_of_ok (this_run h), bind_run]
  simp [hx]

theorem onIoContext_inv {x : Register Unit} {u : Unit} (h : onIoContext x w = .ok u w') :
    ∃ r, x ⟨w.kernel, w.context.ioContext⟩ = .ok ⟨⟩ r ∧
      w' = { w with kernel := r.kernel }.assign { w.context with ioContext := r.ioContext } := by
  obtain ⟨c, w₁, hthis, h'⟩ := bind_inv h
  obtain ⟨hlive, _, _⟩ := this_inv hthis
  cases hx : x ⟨w.kernel, w.context.ioContext⟩ with
  | ok v r =>
    rw [onIoContext_run hlive hx] at h
    cases h
    exact ⟨r, rfl, rfl⟩
  | error e r =>
    rw [onIoContext_error hlive hx] at h
    cases h

end Netier
