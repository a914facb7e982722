import Netier.Connection.Handlers
import Netier.Connection.OutputCalls
import Netier.Lib.Run

/-! Output through the queue alone: every byte of every call is accepted or pending
exactly once, in the order of the calls. -/
namespace Netier
open Lib
variable {α : Type} {w w' : World α} {r : Nat}

/-- The operations whose bytes all go through `__wbuffer`. -/
def OutputOp.Queues : OutputOp α → Prop
  | .call (.asyncWrite _) | .call (.writeFile _) | .call .flushWriteBuffer | .handleWritableEvent => True
  | _ => False

variable [Zero α]

/-- An operation on a connection that still exists, with the payloads of the operations
entered in state VALID so far. -/
inductive QueuedStep : World α × List α → OutputOp α → World α × List α → Prop where
  | valid {w w' : World α} {p : List α} {o : OutputOp α} : w.freed = false → o.Queues →
      w.context.state = some .valid → o.exec w = .ok ⟨⟩ w' → QueuedStep (w, p) o (w', p ++ o.payload)
  | shut {w w' : World α} {p : List α} {o : OutputOp α} : w.freed = false → o.Queues →
      w.context.state ≠ some .valid → o.exec w = .ok ⟨⟩ w' → QueuedStep (w, p) o (w', p)

/-- What the run keeps: the connection is registered until it is destroyed, and accepted
and pending bytes are the payloads. -/
structure ExactlyOnce (r : Nat) (s : World α × List α) : Prop where
  fits : s.1.Fits
  attached : s.1.freed = false → Attached s.1 r
  contents : s.1.output.contents = s.2

theorem OutputOp.exec_returns (o : OutputOp α) (h : Attached w r) :
    ∃ w', o.exec w = .ok ⟨⟩ w' ∧ (w'.freed = false → Attached w' r) := by
  cases o with
  | call o =>
    obtain ⟨u, w', hrun⟩ := o.exec_returns h.toHealthy
    have hw := h.of_effect (effect_mono (fun _ => Act.IsOutput.quiet) o.exec_effect)
    rw [hrun] at hw
    exact ⟨w', hrun, fun _ => hw⟩
  | handleWritableEvent =>
    obtain ⟨ret, w', hrun, hv, _⟩ := (handleWritableEvent_ensures (F := Never) h).returns
    refine ⟨w', by rw [exec, bind_of_ok hrun]; rfl, fun hlive => ?_⟩
    cases hv with
    | stays hw _ => exact hw.attached h
    | goes hg _ => simp [hg.freed] at hlive

theorem OutputOp.contents_drained (hf : w.Fits) :
    (final ((OutputOp.handleWritableEvent : OutputOp α).exec w)).output.contents =
      w.output.contents := by
  obtain ⟨_, n, hn⟩ := drains_of_effect (w := w) handleWritableEvent_drains hf
  rw [exec, final_bind_pure, hn, Channel.contents_drain]

omit [Zero α] in
theorem Emitted.contents {data : List α} (h : Emitted w w' [] data) :
    w'.output.contents = w.output.contents ++ data := by
  obtain ⟨n, hn⟩ := h
  simp [hn]

/-- On a VALID connection the whole payload of a queueing operation joins the channel. -/
theorem OutputOp.contents_open (o : OutputOp α) (hq : o.Queues) (ho : Open w) (hf : w.Fits) :
    (final (o.exec w)).output.contents = w.output.contents ++ o.payload := by
  cases o with
  | handleWritableEvent => rw [contents_drained hf]; exact (List.append_nil _).symm
  | call o =>
    cases o with
    | asyncWrite buf => exact (asyncWrite_emitted ho hf buf).contents
    | writeFile file =>
      rw [exec, Output.exec, final_bind_pure]
      cases file with
      | none => rw [writeFile_missing ho]; exact (List.append_nil _).symm
      | some f => exact (writeFile_emitted ho hf f).contents
    | flushWriteBuffer => exact (flushWriteBuffer_emitted hf).contents
    | _ => exact hq.elim

/-- On any other connection nothing joins it. -/
theorem OutputOp.contents_shut (o : OutputOp α) (hq : o.Queues) (hn : ¬ Open w) (hf : w.Fits) :
    (final (o.exec w)).output.contents = w.output.contents := by
  cases o with
  | handleWritableEvent => exact contents_drained hf
  | call o =>
    cases o with
    | asyncWrite buf => rw [exec, Output.exec, Netier.asyncWrite, guarded_final hn]
    | writeFile file =>
      rw [exec, Output.exec, final_bind_pure]
      exact congrArg (fun v : World α => v.output.contents) (guarded_final hn)
    | flushWriteBuffer => rw [exec, Output.exec, Netier.flushWriteBuffer, guarded_final hn]
    | _ => exact hq.elim

theorem QueuedStep.exactlyOnce {s t : World α × List α} {o : OutputOp α} (h : QueuedStep s o t)
    (hs : ExactlyOnce r s) : ExactlyOnce r t := by
  have attached {w w' : World α} (hw : Attached w r) (hrun : o.exec w = .ok ⟨⟩ w') :
      w'.freed = false → Attached w' r := by
    obtain ⟨w₁, hrun₁, hatt⟩ := o.exec_returns hw
    rw [hrun] at hrun₁
    cases hrun₁
    exact hatt
  cases h with
  | valid hlive hq hv hrun =>
    have hfits := o.exec_fits hs.fits
    have hcontents := o.contents_open hq ⟨hlive, hv⟩ hs.fits
    rw [hrun] at hfits hcontents
    exact ⟨hfits, attached (hs.attached hlive) hrun, hcontents.trans (by rw [hs.contents])⟩
  | shut hlive hq hv hrun =>
    have hfits := o.exec_fits hs.fits
    have hcontents := o.contents_shut hq (fun ho => hv ho.valid) hs.fits
    rw [hrun] at hfits hcontents
    exact ⟨hfits, attached (hs.attached hlive) hrun, hcontents.trans hs.contents⟩

/-- A registered VALID connection that has sent and queued nothing. -/
structure Fresh (w : World α) (r : Nat) : Prop extends Ready w r where
  accepted : w.wire.accepted = []
  wbuffer : w.context.wbuffer.bytes = []

omit [Zero α] in
theorem setUp_fresh {fd : Fd} (h : 0 < fd) (onRecv : Bool) (answers : Nat → WriteAnswer) :
    Fresh (World.setUp (α := α) r fd onRecv answers) r :=
  ⟨setUp_ready h onRecv answers, rfl, rfl⟩

/-- Between any two operations, until the connection is destroyed, the bytes accepted
and then those pending are the payloads of the operations entered in state VALID, and
whatever operation comes next returns. -/
theorem queued_output_exactly_once {p : List α} {os : List (OutputOp α)} (h0 : Fresh w r)
    (hf : w.Fits) (h : Run QueuedStep (w, []) os (w', p)) (hlive : w'.freed = false) :
    w'.wire.accepted ++ w'.context.wbuffer.bytes = p ∧
      ∀ o : OutputOp α, ∃ w'', o.exec w' = .ok ⟨⟩ w'' := by
  have hstart : ExactlyOnce r (w, ([] : List α)) :=
    ⟨hf, fun _ => h0.toAttached, by simp [World.output, Channel.contents, h0.accepted, h0.wbuffer]⟩
  have hend := h.invariant hstart fun _ _ _ hs hstep => hstep.exactlyOnce hs
  refine ⟨hend.contents, fun o => ?_⟩
  obtain ⟨w'', hrun, _⟩ := o.exec_returns (hend.attached hlive)
  exact ⟨w'', hrun⟩

/-- A full socket that takes one byte at a time later. -/
def slowly : Nat → WriteAnswer
  | 0 | 2 | 4 => .failed .eagain
  | _ => .room 1

omit [Zero α] in
theorem slowly_fits (r : Nat) (fd : Fd) (onRecv : Bool) :
    (World.setUp (α := α) r fd onRecv slowly).Fits := by
  intro i n hn
  have hone : n = 1 := by
    simp only [World.setUp, slowly] at hn
    split at hn <;> cases hn
    rfl
  simp [hone, writeMax]

/-- Three bytes in two calls, with an event between them. -/
def queuedThree : List (OutputOp UInt8) :=
  [.call (.asyncWrite [1, 2]), .handleWritableEvent, .call (.asyncWrite [3])]

theorem queued_output_on_full_socket :
    ∃ w : World UInt8, Run QueuedStep (World.setUp 0 5 true slowly, []) queuedThree (w, [1, 2, 3]) ∧
      w.freed = false ∧ w.wire.accepted = [1, 2] ∧
      w.wire.accepted ++ w.context.wbuffer.bytes = [1, 2, 3] ∧
      ∀ o : OutputOp UInt8, ∃ w', o.exec w = .ok ⟨⟩ w' := by
  have step {w : World UInt8} {p : List UInt8} {o : OutputOp UInt8} (hlive : w.freed = false) (hq : o.Queues)
      (hv : w.context.state = some .valid) (hrun : o.exec w = .ok ⟨⟩ (final (o.exec w))) :
      QueuedStep (w, p) o (final (o.exec w), p ++ o.payload) := .valid hlive hq hv hrun
  have hrun : Run QueuedStep (World.setUp 0 5 true slowly, []) queuedThree
      (queuedThree.foldl (fun w o => final (o.exec w)) (World.setUp 0 5 true slowly), [1, 2, 3]) :=
    .cons (step rfl trivial rfl rfl) <| .cons (step rfl trivial rfl rfl) <| .single (step rfl trivial rfl rfl)
  have hend := queued_output_exactly_once (setUp_fresh (by decide) true slowly) (slowly_fits 0 5 true) hrun rfl
  exact ⟨_, hrun, rfl, rfl, hend⟩

end Netier
