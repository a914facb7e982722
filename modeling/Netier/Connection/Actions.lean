import Netier.Connection.Primitives

/-! The actions a thread running a connection's code can take, each with the state it
needs. Whatever a member function does, and however it ends, is a path of these. -/
namespace Netier
open Lib
variable {α : Type}

inductive Act (α : Type) where
  | buffer (b : Buffer α)
  | wbuffer (b : Buffer α)
  | state (s : State)
  | read (writer : Nat) (answer : ReadAnswer α)
  | write (buf : List α)
  | fopen
  | take
  | invoke
  | setOnRecv (installed : Bool)
  | revents (mask : Mask)
  | entered (h : Handler)
  | returned (h : Handler) (ret : Int)
  | destroyer
  | deregister (r : Registration)
  | release

/-- A live object whose state is VALID. -/
structure Open (w : World α) : Prop where
  live : w.freed = false
  valid : w.context.state = some .valid

namespace World

/-- The end of `~Context`: the socket is closed and the map entry is gone. -/
def release (w : World α) : World α :=
  { w with kernel := if 0 < w.context.socket.fd then w.kernel.close w.context.socket.fd else w.kernel
           freed := true
           inserted := false }

/-- `Epoll::poll` stores the mask of an event in the `IOContext` it is for. -/
def polled (w : World α) (mask : Mask) : World α :=
  w.assign { w.context with ioContext := { w.context.ioContext with revents := mask } }

def next (w : World α) : Act α → World α
  | .buffer b => w.assign { w.context with buffer := b }
  | .wbuffer b => w.assign { w.context with wbuffer := b }
  | .state s => w.assign { w.context with state := some s }
  | .read writer answer => (w.sysRead writer answer).2
  | .write buf => (w.sysWrite buf).2
  | .fopen => w.fopen
  | .take => w.take
  | .invoke => w.invoke
  | .setOnRecv installed => w.assign { w.context with onRecv := installed }
  | .revents mask => w.polled mask
  | .entered h => w.log (.entered h)
  | .returned h ret => w.log (.returned h ret)
  | .destroyer => w.log .destroyer
  | .deregister r => { w with kernel := r.kernel }.assign { w.context with ioContext := r.ioContext }
  | .release => w.release

/-- Input, output and the callback need the state VALID; tearing down needs the map
to own the object. -/
def Enabled (w : World α) : Act α → Prop
  | .buffer _ | .wbuffer _ | .read _ _ | .write _ | .fopen | .invoke => Open w
  | .state s => Open w ∧ (s = .closed ∨ s = .invalid)
  | .take | .setOnRecv _ | .revents _ | .destroyer => w.freed = false
  | .entered _ | .returned _ _ => True
  | .deregister r => w.freed = false ∧ w.inserted = true ∧
      IoContext.destruct ⟨w.kernel, w.context.ioContext⟩ = .ok ⟨⟩ r
  | .release => w.freed = false ∧ w.inserted = true

end World

namespace Act

def IsQueue : Act α → Prop
  | .wbuffer _ => True
  | _ => False

/-- What the output calls do, but for `writeFile`. -/
def IsSend : Act α → Prop
  | .wbuffer _ | .state _ | .write _ => True
  | _ => False

def IsOutput : Act α → Prop
  | .wbuffer _ | .state _ | .write _ | .fopen => True
  | _ => False

def IsQuiet : Act α → Prop
  | .take => True
  | a => a.IsOutput

def IsTeardown : Act α → Prop
  | .destroyer | .deregister _ | .release => True
  | _ => False

/-- What an application's call does. -/
def IsCall (a : Act α) : Prop := a.IsQuiet ∨ a.IsTeardown ∨ ∃ installed, a = .setOnRecv installed

def IsInput : Act α → Prop
  | .buffer _ | .state _ | .read _ _ => True
  | _ => False

theorem IsQueue.send {a : Act α} (h : a.IsQueue) : a.IsSend := by
  cases a <;> simp_all [IsQueue, IsSend]

theorem IsSend.output {a : Act α} (h : a.IsSend) : a.IsOutput := by
  cases a <;> simp_all [IsSend, IsOutput]

theorem IsOutput.quiet {a : Act α} (h : a.IsOutput) : a.IsQuiet := by
  cases a <;> simp_all [IsOutput, IsQuiet]

theorem IsSend.quiet {a : Act α} (h : a.IsSend) : a.IsQuiet := h.output.quiet

/-- What a connection does while it stays in the registry. -/
def IsWork : Act α → Prop
  | .buffer _ | .wbuffer _ | .state _ | .read _ _ | .write _ | .fopen | .take | .invoke |
    .setOnRecv _ => True
  | _ => False

theorem IsQuiet.work {a : Act α} (h : a.IsQuiet) : a.IsWork := by
  cases a <;> simp_all [IsQuiet, IsOutput, IsWork]

theorem IsInput.work {a : Act α} (h : a.IsInput) : a.IsWork := by
  cases a <;> simp_all [IsInput, IsWork]

/-- What the body of a handler does, with its callback and the teardown. -/
def IsBody (a : Act α) : Prop := a.IsWork ∨ a.IsTeardown

theorem IsCall.body {a : Act α} (h : a.IsCall) : a.IsBody := by
  rcases h with hq | ht | ⟨_, rfl⟩
  · exact .inl hq.work
  · exact .inr ht
  · exact .inl trivial

theorem IsSend.call {a : Act α} (h : a.IsSend) : a.IsCall := .inl h.quiet

theorem IsTeardown.call {a : Act α} (h : a.IsTeardown) : a.IsCall := .inr (.inl h)

/-- What the handling of an event does; `Epoll::poll` comes before it. -/
def IsEvent : Act α → Prop
  | .revents _ => False
  | _ => True

def IsAny (_ : Act α) : Prop := True

theorem IsBody.event {a : Act α} (h : a.IsBody) : a.IsEvent := by
  cases a <;> simp_all [IsBody, IsWork, IsTeardown, IsEvent]

end Act

/-- One enabled action out of `S`. -/
def Steps (S : Act α → Prop) (w w' : World α) : Prop := ∃ a, S a ∧ w.Enabled a ∧ w.next a = w'

theorem Steps.mono {S T : Act α → Prop} (h : ∀ a, S a → T a) {w w' : World α} (hw : Steps S w w') :
    Steps T w w' := by
  obtain ⟨a, ha, he, hn⟩ := hw
  exact ⟨a, h a ha, he, hn⟩

section Primitive
variable {S : Act α → Prop} {r : World α → World α → Prop} {w : World α} {β : Type}

/-- A program that leaves the state alone takes no step. -/
theorem effect_of_final {x : Exec α β} (h : final (x w) = w) : Effect r x w := by
  unfold Effect
  rw [h]

/-- A program that takes exactly the action `a`. -/
theorem effect_act {x : Exec α β} (a : Act α) (h : final (x w) = w.next a) (hS : S a)
    (he : w.Enabled a) : Effect (Steps S) x w := by
  unfold Effect
  rw [h]
  exact .single ⟨a, hS, he, rfl⟩

theorem effect_mono {T : Act α → Prop} {x : Exec α β} (h : ∀ a, S a → T a)
    (hx : Effect (Steps S) x w) : Effect (Steps T) x w :=
  hx.mono fun _ _ hs => hs.mono h

theorem this_effect : Effect r this w := effect_of_final (this_final w)
theorem readState_effect : Effect r readState w := effect_of_final (readState_final w)
theorem requireNotMoved_effect : Effect r requireNotMoved w :=
  effect_of_final (requireNotMoved_final w)
theorem getFd_effect : Effect r getFd w := effect_of_final (getFd_final w)
theorem errno_effect : Effect r errno w := effect_of_final rfl

theorem setState_effect {s : State} (hS : S (.state s)) (h : Open w)
    (hs : s = .closed ∨ s = .invalid) : Effect (Steps S) (setState s) w :=
  effect_act (.state s) (by rw [setState_run h.live]; rfl) hS ⟨h, hs⟩

theorem sysWrite_effect {buf : List α} (hS : S (.write buf)) (h : Open w) :
    Effect (Steps S) (sysWrite buf) w :=
  effect_act (.write buf) rfl hS h

theorem sysRead_effect {writer : Nat} {answer : ReadAnswer α} (hS : S (.read writer answer))
    (h : Open w) : Effect (Steps S) (sysRead writer answer) w :=
  effect_act (.read writer answer) rfl hS h

theorem assign_wbuffer_effect {b : Buffer α} (hS : S (.wbuffer b)) (h : Open w) :
    Effect (Steps S) (assign fun c => { c with wbuffer := b }) w :=
  effect_act (.wbuffer b) (by rw [assign_run h.live]; rfl) hS h

theorem assign_buffer_effect {b : Buffer α} (hS : S (.buffer b)) (h : Open w) :
    Effect (Steps S) (assign fun c => { c with buffer := b }) w :=
  effect_act (.buffer b) (by rw [assign_run h.live]; rfl) hS h

theorem onWbuffer_effect {f : Buffer α → Option (Buffer α)} (hS : ∀ b, S (.wbuffer b)) (h : Open w) :
    Effect (Steps S) (onWbuffer f) w := by
  apply Effect.bind this_effect
  intro c w₁ h₁
  obtain ⟨_, rfl, rfl⟩ := this_inv h₁
  cases f w.context.wbuffer with
  | some b => exact assign_wbuffer_effect (hS b) h
  | none => exact Effect.throw _

theorem onBuffer_effect {f : Buffer α → Option (Buffer α)} (hS : ∀ b, S (.buffer b)) (h : Open w) :
    Effect (Steps S) (onBuffer f) w := by
  apply Effect.bind this_effect
  intro c w₁ h₁
  obtain ⟨_, rfl, rfl⟩ := this_inv h₁
  cases f w.context.buffer with
  | some b => exact assign_buffer_effect (hS b) h
  | none => exact Effect.throw _

end Primitive
end Netier
