import Netier.Connection.Handlers
import Netier.Lib.Run

/-! `Server::contextCreator` as the steps of the acceptor thread, between which the
reactor thread may already poll and handle events of the descriptor. -/
namespace Netier
open Lib

/-- The next step of `contextCreator`: those of the `Context` constructor, then its own. -/
inductive Phase where
  | enableRead
  | enableWrite
  | setET
  | setReadCallback
  | setWriteCallback
  | setValid
  | onConn
  | setOnRecv
  | insert
  | returned
  deriving DecidableEq, Repr

namespace Phase

def next : Phase → Phase
  | .enableRead => .enableWrite
  | .enableWrite => .setET
  | .setET => .setReadCallback
  | .setReadCallback => .setWriteCallback
  | .setWriteCallback => .setValid
  | .setValid => .onConn
  | .onConn => .setOnRecv
  | .setOnRecv => .insert
  | .insert => .returned
  | .returned => .returned

/-- How many steps have been taken. -/
def rank : Phase → Nat
  | .enableRead => 0
  | .enableWrite => 1
  | .setET => 2
  | .setReadCallback => 3
  | .setWriteCallback => 4
  | .setValid => 5
  | .onConn => 6
  | .setOnRecv => 7
  | .insert => 8
  | .returned => 9

/-- The step itself; the calls of the `onConn` callback are steps of their own. -/
def exec {α : Type} (onRecv : Bool) : Phase → Exec α Unit
  | .enableRead => onIoContext IoContext.enableRead
  | .enableWrite => onIoContext IoContext.enableWrite
  | .setET => onIoContext IoContext.setET
  | .setReadCallback => onIoContext (IoContext.setReadCallback .handleReadableEvent)
  | .setWriteCallback => onIoContext (IoContext.setWriteCallback .handleWritableEvent)
  | .setValid => setState .valid
  | .onConn => pure ()
  | .setOnRecv => if onRecv then Netier.setOnRecv true else pure ()
  | .insert => modify fun w => { w with inserted := true }
  | .returned => pure ()

end Phase

/-- A connection being created. `polled` says that the reactor thread has polled an event
of the descriptor and has yet to handle it. -/
structure Setup (α : Type) where
  world : World α
  phase : Phase
  polled : Bool

inductive SetupLabel (α : Type) where
  | advance
  | onConn (c : PublicCall α)
  | poll (mask : Mask)
  | handle (burst : Burst α) (callback : List (Call α))

/-- A `Context` for descriptor `fd` of reactor `r` whose `IOContext` lies at `address`, before
the registration; `__state` holds what was in the memory. -/
def Conn.create {α : Type} (address r : Nat) (fd : Fd) (state : Option State)
    (answers : Nat → WriteAnswer) : Conn α where
  context := ⟨⟨fd⟩, IoContext.create address r fd, .empty, .empty, false, state⟩
  wire := ⟨answers, .eagain, [], []⟩
  taken := []
  freed := false
  inserted := false
  history := []

variable {α : Type} [Zero α]

omit [Zero α] in
/-- `Server::contextCreator` when nobody interferes, from the registration on. -/
def contextCreator (onRecv : Bool) (onConn : Exec α Unit) : Exec α Unit := do
  onIoContext IoContext.enableRead
  onIoContext IoContext.enableWrite
  onIoContext IoContext.setET
  onIoContext (IoContext.setReadCallback .handleReadableEvent)
  onIoContext (IoContext.setWriteCallback .handleWritableEvent)
  setState .valid
  onConn
  if onRecv then setOnRecv true else pure ()
  modify fun w => { w with inserted := true }

namespace Setup

omit [Zero α] in
def start (w : World α) : Setup α := ⟨w, .enableRead, false⟩

omit [Zero α] in
def advance (onRecv : Bool) (s : Setup α) : Option (Setup α) :=
  if s.phase = .returned then none
  else (completed (s.phase.exec onRecv s.world)).map fun w => { s with world := w, phase := s.phase.next }

def onConn (s : Setup α) (c : PublicCall α) : Option (Setup α) :=
  if s.phase = .onConn then (completed (c.exec s.world)).map fun w => { s with world := w }
  else none

omit [Zero α] in
/-- `Epoll::poll`: the kernel reports a registered descriptor. -/
def poll (r : Nat) (s : Setup α) (mask : Mask) : Option (Setup α) :=
  if s.polled || s.world.freed || (s.world.kernel.interest r s.world.context.socket.fd).isNone then none
  else (completed (onIoContext (IoContext.setRevents mask) s.world)).map fun w =>
    { s with world := w, polled := true }

def handle (s : Setup α) (burst : Burst α) (callback : List (Call α)) : Option (Setup α) :=
  if s.polled then
    (completed (handleGeneral burst (runCalls callback) s.world)).map fun w =>
      { s with world := w, polled := false }
  else none

def step (r : Nat) (onRecv : Bool) (s : Setup α) : SetupLabel α → Option (Setup α)
  | .advance => s.advance onRecv
  | .onConn c => s.onConn c
  | .poll mask => s.poll r mask
  | .handle burst callback => s.handle burst callback

variable {w w' : World α} {r : Nat} {onRecv : Bool}

omit [Zero α] in
theorem advance_of_run {p : Phase} {polled : Bool} (hp : p ≠ .returned)
    (h : p.exec onRecv w = .ok ⟨⟩ w') :
    advance onRecv ⟨w, p, polled⟩ = some ⟨w', p.next, polled⟩ := by
  simp [advance, hp, h, completed]

theorem onConn_steps {cs : List (Call α)} (h : runCalls cs w = .ok ⟨⟩ w') :
    Run (fun (a : Setup α) l b => a.step r onRecv l = some b) ⟨w, .onConn, false⟩
      (cs.map fun c => .onConn (.call c)) ⟨w', .onConn, false⟩ := by
  induction cs generalizing w with
  | nil =>
    cases h
    exact .nil _
  | cons c cs ih =>
    obtain ⟨_, w₁, hc, hcs⟩ := bind_inv h
    refine .cons ?_ (ih hcs)
    simp [step, onConn, PublicCall.exec, hc, completed]

/-- `contextCreator` is the run of its steps with nothing in between. -/
theorem contextCreator_steps {cs : List (Call α)}
    (h : contextCreator onRecv (runCalls cs) w = .ok ⟨⟩ w') :
    Run (fun (a : Setup α) l b => a.step r onRecv l = some b) (.start w)
      (List.replicate 6 .advance ++ cs.map (fun c => .onConn (.call c)) ++ List.replicate 3 .advance)
      ⟨w', .returned, false⟩ := by
  obtain ⟨_, w₁, h₁, h⟩ := bind_inv h
  obtain ⟨_, w₂, h₂, h⟩ := bind_inv h
  obtain ⟨_, w₃, h₃, h⟩ := bind_inv h
  obtain ⟨_, w₄, h₄, h⟩ := bind_inv h
  obtain ⟨_, w₅, h₅, h⟩ := bind_inv h
  obtain ⟨_, w₆, h₆, h⟩ := bind_inv h
  obtain ⟨_, w₇, h₇, h⟩ := bind_inv h
  have step_of {p : Phase} {w w' : World α} (hp : p ≠ .returned)
      (h : p.exec onRecv w = .ok ⟨⟩ w') :
      step r onRecv ⟨w, p, false⟩ .advance = some ⟨w', p.next, false⟩ := advance_of_run hp h
  have hbefore : Run (fun (a : Setup α) l b => a.step r onRecv l = some b) (.start w)
      (List.replicate 6 .advance) ⟨w₆, .onConn, false⟩ :=
    .cons (step_of (p := .enableRead) (by decide) h₁) <|
    .cons (step_of (p := .enableWrite) (by decide) h₂) <|
    .cons (step_of (p := .setET) (by decide) h₃) <|
    .cons (step_of (p := .setReadCallback) (by decide) h₄) <|
    .cons (step_of (p := .setWriteCallback) (by decide) h₅) <|
    .single (step_of (p := .setValid) (by decide) h₆)
  have hafter : Run (fun (a : Setup α) l b => a.step r onRecv l = some b) ⟨w₇, .onConn, false⟩
      (List.replicate 3 .advance) ⟨w', .returned, false⟩ := by
    cases onRecv with
    | false =>
      cases h
      exact .cons rfl (.cons rfl (.single rfl))
    | true =>
      obtain ⟨_, w₈, h₈, h⟩ := bind_inv h
      cases h
      exact .cons rfl (.cons (step_of (p := .setOnRecv) (by decide) h₈) (.single rfl))
  exact (hbefore.append (onConn_steps h₇)).append hafter

end Setup
end Netier
