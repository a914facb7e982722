import Netier.Connection.LifeCycle
import Netier.Connection.Reading

/-! A connection destroyed from inside its own callback: the handler that called it
reads the state of the freed object. -/
namespace Netier
open Lib
variable {α : Type} [Zero α] {w w' : World α} {r : Nat}

/-- A callback body of quiet calls that may close the connection at its end. -/
def closing (cs : List (Call α)) (bye : Bool) : List (Call α) :=
  if bye then cs ++ [.destroy] else cs

/-- Nothing of the connection was touched after it was freed, and its destroyer was
called at most once more. -/
def Safe (x : Exec α Unit) (w : World α) : Prop :=
  (∀ w', x w ≠ .error .useAfterFree w') ∧ (final (x w)).destroyerCalls ≤ w.destroyerCalls + 1

theorem runCalls_append (cs ds : List (Call α)) :
    runCalls (cs ++ ds) w = (do runCalls cs; runCalls ds : Exec α Unit) w := by
  induction cs generalizing w with
  | nil => rfl
  | cons c cs ih =>
    rw [List.cons_append, runCalls, bind_run, bind_run, runCalls, bind_run]
    cases c.exec w with
    | ok u w₁ => exact ih
    | error e w₁ => rfl

theorem respond_closing (burst : Burst α) {cs : List (Call α)} (hq : ∀ c ∈ cs, c.Quiet)
    (h : Attached w r) (ho : Open w) :
    ∃ w', report (ReadEvent.respond ⟨burst, cs ++ [.destroy]⟩) w = .error .useAfterFree w' := by
  obtain ⟨u, w₁, hrun, hw | ⟨hfalse, _⟩⟩ := (quiet_calms (F := Never) hq w r h ho).returns
  rotate_left
  · exact hfalse.elim
  have hdestroy : runCalls [Call.destroy] w₁ = .ok ⟨⟩ (w₁.torn r) := by
    have hd : Call.destroy.exec w₁ = .ok ⟨⟩ (w₁.torn r) := destroy_run (hw.attached h)
    rw [runCalls, bind_of_ok hd]
    rfl
  have hcalls : runCalls (cs ++ [.destroy]) w = .ok ⟨⟩ (w₁.torn r) := by
    rw [runCalls_append, bind_of_ok hrun, hdestroy]
  have hclean : stateCleanup (w₁.torn r) = .error .useAfterFree (w₁.torn r) := stateCleanup_freed rfl
  refine ⟨w₁.torn r, ?_⟩
  rw [report, bind_of_error]
  rw [ReadEvent.respond, bind_of_ok hcalls, hclean]

theorem loopEntry_closing {mask : Mask} {burst : Burst α} (cs : List (Call α))
    (hq : ∀ c ∈ cs, c.Quiet) (h : Attached w r) (hb : Bound w) (hin : (mask &&& epollin) ≠ 0)
    (hr : Reaches w burst) :
    ∃ w', loopEntry mask burst (runCalls (cs ++ [.destroy])) w = .error .useAfterFree w' := by
  have hp := h.polled mask
  obtain ⟨w₁, hhandle, hw, ho, _⟩ := ReadEvent.handle_shown ⟨burst, cs ++ [.destroy]⟩
    ⟨hp.live, hr.open.valid⟩ hp.positive hr.onRecv hr.last
  have hatt : Attached w₁.invoke r := (hw.attached hp).log _
  obtain ⟨w', hrun⟩ := respond_closing burst hq hatt ⟨ho.live, ho.valid⟩
  have hevent : handleReadableEvent burst (runCalls (cs ++ [.destroy])) (w.polled mask) =
      .error .useAfterFree w' := hhandle.trans hrun
  have hmask : isReadable (w.polled mask) = .ok true (w.polled mask) := by
    rw [isReadable_run hp.live hp.reactor]
    exact congrArg (EStateM.Result.ok · _) (by simpa [World.polled] using hin)
  refine ⟨w', ?_⟩
  rw [loopEntry, bind_of_ok (setRevents_run h.live h.reactor mask), handleGeneral, bind_of_ok hmask,
    if_pos rfl, bind_of_error ((handleReadable_bound hp (hb.polled mask)).trans hevent)]

/-- On a registered connection, whatever the mask, the kernel's answers and the callback,
the handling of the event is safe exactly if the callback that destroys the connection
is not reached. -/
theorem destroy_inside_handler {mask : Mask} {burst : Burst α} {cs : List (Call α)} {bye : Bool}
    (h : Attached w r) (hb : Bound w) (hq : ∀ c ∈ cs, c.Quiet) :
    Safe (loopEntry mask burst (runCalls (closing cs bye))) w ↔
      ¬ (bye = true ∧ (mask &&& epollin) ≠ 0 ∧ Reaches w burst) := by
  constructor
  · rintro ⟨hsafe, _⟩ ⟨rfl, hin, hr⟩
    obtain ⟨w', hrun⟩ := loopEntry_closing cs hq h hb hin hr
    exact hsafe w' hrun
  · intro hno
    have hcb : (mask &&& epollin) ≠ 0 → Reaches w burst → Calms Never (runCalls (closing cs bye)) := by
      intro hin hr
      cases bye with
      | true => exact absurd ⟨rfl, hin, hr⟩ hno
      | false => exact quiet_calms hq
    obtain ⟨u, w', hrun, hend⟩ := (loopEntry_ensures (runCalls_body _) h hb mask burst hcb).returns
    have hcalls : (w.polled mask).destroyerCalls = w.destroyerCalls := by simp [World.polled]
    refine ⟨fun w'' hbad => ?_, ?_⟩
    · rw [hrun] at hbad
      cases hbad
    · rw [hrun]
      cases hend with
      | stays hw _ _ => exact (hw.calls.trans hcalls).le.trans (Nat.le_succ _)
      | goes _ hc _ => exact (hc.trans (by rw [hcalls])).le

/-- A byte arrives and the callback only reads it. -/
theorem read_inside_handler :
    Safe (loopEntry epollin (oneByteEvent 7 (.failed .eagain)).burst (runCalls (closing [.read] false)))
      (World.setUp 0 5 true fullOnce) := by
  have h0 : Ready (World.setUp 0 5 true fullOnce : World UInt8) 0 :=
    setUp_ready (by decide) true fullOnce
  exact (destroy_inside_handler h0.toAttached h0.toBound (by simp [Call.Quiet])).2 (by simp)

/-- A byte arrives and the callback closes the connection. -/
theorem destroy_inside_handler_unsafe :
    ¬ ∀ (mask : Mask) (burst : Burst UInt8) (cs : List (Call UInt8)) (bye : Bool)
        (w : World UInt8) (r : Nat), Ready w r → (∀ c ∈ cs, c.Quiet) →
      Safe (loopEntry mask burst (runCalls (closing cs bye))) w := by
  intro h
  have h0 : Ready (World.setUp 0 5 true fullOnce : World UInt8) 0 :=
    setUp_ready (by decide) true fullOnce
  have hreach : Reaches (World.setUp 0 5 true fullOnce) (oneByteEvent 7 (.failed .eagain)).burst :=
    ⟨h0.open, rfl, rfl⟩
  have hin : epollin &&& epollin ≠ 0 := by decide
  obtain ⟨w', hrun⟩ := loopEntry_closing [] (by simp) h0.toAttached h0.toBound hin hreach
  exact (h epollin _ [] true _ 0 h0 (by simp)).1 w' hrun

end Netier
