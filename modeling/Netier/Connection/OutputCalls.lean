import Netier.Connection.Output
import Netier.Connection.HandlerEffects

/-! What each output operation does to the channel of its connection, in any state. -/
namespace Netier
open Lib
variable {α : Type} {w w' : World α}

/-- The bytes a call hands to `syncWrite`; a string goes with the character after it. -/
def Output.direct : Output α → List α
  | .syncWrite buf | .writeVector buf => buf
  | .writeString data => data.chars ++ [data.terminator]
  | _ => []

/-- The bytes a call is given to send. -/
def Output.payload : Output α → List α
  | .syncWrite buf | .writeVector buf | .asyncWrite buf => buf
  | .writeString data => data.chars ++ [data.terminator]
  | .writeFile (some f) => f.content
  | .writeFile none | .flushWriteBuffer => []

/-- An output operation: a call, or the writable event that flushes. -/
inductive OutputOp (α : Type) where
  | call (o : Output α)
  | handleWritableEvent

namespace OutputOp

def exec [Zero α] : OutputOp α → Exec α Unit
  | .call o => o.exec
  | .handleWritableEvent => do let _ ← Netier.handleWritableEvent

def direct : OutputOp α → List α
  | .call o => o.direct
  | .handleWritableEvent => []

def payload : OutputOp α → List α
  | .call o => o.payload
  | .handleWritableEvent => []

end OutputOp

/-- Within the limits of the kernel, some of the queue is sent and nothing else. -/
def Drains (w w' : World α) : Prop := w.Fits → w'.Fits ∧ ∃ n, w'.output = w.output.drain n

theorem Drains.refl (w : World α) : Drains w w := fun hf => ⟨hf, 0, by simp⟩

theorem Drains.trans {w'' : World α} (h : Drains w w') (h' : Drains w' w'') : Drains w w'' := by
  intro hf
  obtain ⟨hf', m, hm⟩ := h hf
  obtain ⟨hf'', n, hn⟩ := h' hf'
  exact ⟨hf'', m + n, by rw [hn, hm, Channel.drain_drain]⟩

theorem drains_of_effect {β : Type} {x : Exec α β} (hx : Effect Drains x w) :
    Drains w (final (x w)) :=
  hx.keeps (I := Drains w) (fun _ _ h hs => h.trans hs) (Drains.refl w)

theorem Steps.drains (hs : Steps Act.IsTeardown w w') : Drains w w' := by
  refine fun hf => ⟨hs.fits hf, 0, ?_⟩
  obtain ⟨a, ha, _, rfl⟩ := hs
  cases a with
  | destroyer | deregister | release => simp [World.next, World.output, World.release]
  | _ => exact ha.elim

theorem log_drains (e : Event α) : Effect Drains (log e) w := by
  refine .single fun hf => ⟨hf, 0, ?_⟩
  simp [World.output]

theorem flushWriteBuffer_drains : Effect Drains flushWriteBuffer w := by
  refine .single fun hf => ⟨hf.of_effect flushWriteBuffer_effect, ?_⟩
  obtain ⟨n, hn⟩ := flushWriteBuffer_emitted hf
  exact ⟨n, by simpa using hn⟩

theorem stateCleanup_drains : Effect Drains (stateCleanup (α := α)) w :=
  stateCleanup_effect.mono fun _ _ hs => hs.drains

theorem handleWritableBody_drains : Effect Drains (handleWritableBody (α := α)) w := by
  apply Effect.bind requireNotMoved_effect
  intro _ _ _
  apply Effect.bind stateCleanup_drains
  intro ret _ _
  apply Effect.ite
  · intro _
    exact Effect.pure _
  · intro _
    apply Effect.bind flushWriteBuffer_drains
    intro _ _ _
    exact stateCleanup_drains

theorem handleWritableEvent_drains : Effect Drains (handleWritableEvent (α := α)) w := by
  apply Effect.bind (log_drains _)
  intro _ _ _
  apply Effect.bind handleWritableBody_drains
  intro ret _ _
  apply Effect.bind (log_drains _)
  intro _ _ _
  exact Effect.pure _

/-- An operation in any state: what went past the queue and what joined it are parts of
its payload, and something went past a queue only where `Overtakes` says so. -/
def Operated (w w' : World α) (payload direct : List α) : Prop :=
  ∃ past queued, Emitted w w' past queued ∧ past ⊆ payload ∧ queued ⊆ payload ∧
    (w.context.wbuffer.bytes ≠ [] → (past ≠ [] ↔ Overtakes w direct))

theorem not_overtakes_nil : ¬ Overtakes w [] := by
  simp [Overtakes, toInt]

theorem Operated.queued {payload queued : List α} (h : Emitted w w' [] queued)
    (hq : queued ⊆ payload) : Operated w w' payload [] :=
  ⟨[], queued, h, List.nil_subset _, hq, fun _ => by simp [not_overtakes_nil]⟩

theorem syncWrite_operated (hf : w.Fits) (buf : List α) :
    Operated w (final (syncWrite buf w)) buf buf := by
  obtain ⟨past, queued, hout, hp, hq, hiff⟩ := syncWrite_emitted buf hf
  exact ⟨past, queued, hout, hp, hq, hiff⟩

/-- The overloads of `write` check what `syncWrite` checks again. -/
theorem guarded_operated {x : Exec α ER} {b : ER} {buf : List α}
    (hx : Operated w (final (x w)) buf buf) :
    Operated w (final ((do
      requireNotMoved
      if (← readState) ≠ .valid then pure b
      else x : Exec α ER) w)) buf buf := by
  by_cases h : Open w
  · rw [guarded_open h]
    exact hx
  · rw [guarded_final h]
    exact ⟨[], [], .refl w, List.nil_subset _, List.nil_subset _, fun _ => by simp [Overtakes, h]⟩

/-- A call that only queues: off an open object it does nothing. -/
theorem guarded_queued {β : Type} {x : Exec α β} {b : β} {data : List α}
    (hx : Open w → Emitted w (final (x w)) [] data) :
    Operated w (final ((do
      requireNotMoved
      if (← readState) ≠ .valid then pure b
      else x : Exec α β) w)) data [] := by
  by_cases h : Open w
  · rw [guarded_open h]
    exact .queued (hx h) (List.Subset.refl _)
  · rw [guarded_final h]
    exact .queued (.refl w) (List.nil_subset _)

variable [Zero α]

theorem Output.exec_operated (o : Output α) (hf : w.Fits) :
    Operated w (final (o.exec w)) o.payload o.direct := by
  cases o with
  | syncWrite buf =>
    rw [exec, final_bind_pure]
    exact syncWrite_operated hf buf
  | writeString data =>
    rw [exec, final_bind_pure]
    exact guarded_operated (syncWrite_operated hf _)
  | writeVector data =>
    rw [exec, final_bind_pure]
    exact guarded_operated (syncWrite_operated hf _)
  | asyncWrite buf =>
    refine guarded_queued fun h => ?_
    have hout := asyncWrite_emitted h hf buf
    rwa [Netier.asyncWrite, guarded_open h] at hout
  | writeFile file =>
    rw [exec, final_bind_pure]
    cases file with
    | none => exact guarded_queued fun _ => .refl w
    | some f =>
      refine guarded_queued fun h => ?_
      have hout := writeFile_emitted h hf f
      rwa [Netier.writeFile, guarded_open h] at hout
  | flushWriteBuffer => exact .queued (flushWriteBuffer_emitted hf) (List.nil_subset _)

theorem OutputOp.exec_operated (o : OutputOp α) (hf : w.Fits) :
    Operated w (final (o.exec w)) o.payload o.direct := by
  cases o with
  | call o => exact o.exec_operated hf
  | handleWritableEvent =>
    rw [exec, final_bind_pure]
    obtain ⟨_, n, hn⟩ := drains_of_effect handleWritableEvent_drains hf
    exact .queued (.of_drain hn) (List.nil_subset _)

theorem OutputOp.exec_fits (o : OutputOp α) (hf : w.Fits) : (final (o.exec w)).Fits := by
  cases o with
  | call o => exact hf.of_effect o.exec_effect
  | handleWritableEvent =>
    rw [exec, final_bind_pure]
    exact (drains_of_effect handleWritableEvent_drains hf).1

end Netier
