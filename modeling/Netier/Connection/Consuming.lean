import Netier.Connection.Operations
import Netier.Connection.Reading

/-! What the application gets out of `__buffer`: all that `read(2)` put in, once and in order. -/
namespace Netier
open Lib
variable {α : Type} [Zero α] {w w' : World α}

/-- What the application has taken and what it finds in `__buffer` are the bytes read. -/
def World.Exact (w : World α) : Prop := w.taken ++ w.context.buffer.bytes = w.wire.delivered

section Returned

/-- A call with the bytes it returns to the application. -/
def Call.returned : Call α → Exec α (List α)
  | .read => Netier.read
  | .readString => Netier.readString
  | c => do
    c.exec
    pure []

/-- The calls of a callback with all the bytes they return. -/
def runReturned : List (Call α) → Exec α (List α)
  | [] => pure []
  | c :: cs => do
    let bytes ← c.returned
    let rest ← runReturned cs
    pure (bytes ++ rest)

theorem Call.exec_returned (c : Call α) : c.exec w = (do let _ ← c.returned : Exec α Unit) w := by
  have dropped (x : Exec α Unit) :
      x w = (do let _ ← (do x; pure [] : Exec α (List α)) : Exec α Unit) w := by
    rw [bind_run, bind_run]
    cases x w <;> rfl
  cases c with
  | read | readString => rfl
  | _ => exact dropped _

theorem runCalls_returned (cs : List (Call α)) :
    runCalls cs w = (do let _ ← runReturned cs : Exec α Unit) w := by
  induction cs generalizing w with
  | nil => rfl
  | cons c cs ih =>
    rw [runCalls, bind_run, c.exec_returned, runReturned, bind_run, bind_run, bind_run]
    cases c.returned w with
    | ok bytes w₁ =>
      simp only [pure_run, ih, bind_run]
      cases runReturned cs w₁ <;> rfl
    | error e w₁ => rfl

/-- Only the reading calls take anything. -/
theorem Call.exec_spares (c : Call α) (hc : c ≠ .read) (hc' : c ≠ .readString) :
    Effect (Steps (· ≠ Act.take)) c.exec w := by
  refine c.exec_steps ?_ ?_ (by simp) (by simp) fun _ => ?_
  · rintro a ha rfl
    exact ha
  · rintro (heq | heq)
    · exact absurd heq hc
    · exact absurd heq hc'
  · rintro a ha rfl
    exact ha

omit [Zero α] in
theorem Steps.taken (h : Steps (· ≠ Act.take) w w') : w'.taken = w.taken := by
  obtain ⟨a, ha, _, rfl⟩ := h
  cases a with
  | take => exact absurd rfl ha
  | write buf => cases hw : w.wire.answers 0 <;> simp [World.next, World.sysWrite, hw]
  | read writer answer => cases answer <;> rfl
  | _ => rfl

/-- What a call returns is what joins the bytes taken. -/
theorem Call.returned_taken {c : Call α} {bytes : List α} (h : c.returned w = .ok bytes w') :
    w'.taken = w.taken ++ bytes := by
  have spared (hc : c ≠ .read) (hc' : c ≠ .readString)
      (h : (do c.exec; pure [] : Exec α (List α)) w = .ok bytes w') : w'.taken = w.taken ++ bytes := by
    obtain ⟨_, w₁, hexec, hpure⟩ := bind_inv h
    cases hpure
    have hsame := (c.exec_spares hc hc').keeps (I := fun v : World α => v.taken = w.taken)
      (fun _ _ hv hs => hs.taken.trans hv) rfl
    rw [hexec] at hsame
    rw [List.append_nil]
    exact hsame
  cases c with
  | read =>
    obtain ⟨_, w₁, hmoved, h⟩ := bind_inv h
    obtain rfl := requireNotMoved_inv hmoved
    obtain ⟨c, w₂, hthis, h⟩ := bind_inv h
    obtain ⟨_, rfl, rfl⟩ := this_inv hthis
    cases h
    rfl
  | readString =>
    by_cases ho : Open w
    · rw [returned, Netier.readString, guarded_open ho, bind_of_ok (this_run ho.live)] at h
      cases h
      rfl
    · obtain ⟨_, w₁, hmoved, h⟩ := bind_inv h
      obtain rfl := requireNotMoved_inv hmoved
      obtain ⟨s, w₂, hs, h⟩ := bind_inv h
      obtain ⟨hlive, hstate, rfl⟩ := readState_inv hs
      have hv : s ≠ .valid := by
        rintro rfl
        exact ho ⟨hlive, hstate⟩
      rw [if_pos hv] at h
      cases h
      exact (List.append_nil _).symm
  | _ => exact spared (by simp) (by simp) h

theorem runReturned_taken {cs : List (Call α)} {bytes : List α} (h : runReturned cs w = .ok bytes w') :
    w'.taken = w.taken ++ bytes := by
  induction cs generalizing w bytes with
  | nil =>
    cases h
    exact (List.append_nil _).symm
  | cons c cs ih =>
    obtain ⟨first, w₁, hfirst, h⟩ := bind_inv h
    obtain ⟨rest, w₂, hrest, h⟩ := bind_inv h
    cases h
    rw [ih hrest, Call.returned_taken hfirst, List.append_assoc]

end Returned

omit [Zero α] in
theorem Settles.exact (h : Settles w w') (hw : w.Exact) : w'.Exact := by
  have hseen : w'.seen = w.wire.delivered := h.seen.trans hw
  exact hseen.trans h.delivered.symm

omit [Zero α] in
theorem Received.exact {data : List α} {s : State} (h : Received w w' data s) (hw : w.Exact) :
    w'.Exact := by
  have hseen : w'.seen = w.wire.delivered ++ data := by
    rw [h.seen]
    exact congrArg (· ++ data) hw
  exact hseen.trans h.delivered.symm

omit [Zero α] in
/-- Whatever makes calls only. -/
theorem exact_of_effect {β : Type} {x : Exec α β} (hx : ∀ w, Effect (Steps Act.IsCall) x w) :
    Keeps World.Exact x :=
  Effect.returns hx fun _ _ hw hs => hs.settles.exact hw

theorem exact_rules : RunRules (α := α) World.Exact World.Exact where
  weaken := fun _ => id
  call := fun c => exact_of_effect fun _ => c.exec_effect
  readable := fun burst cs =>
    { entered := fun _ => id
      read := fun w w' ho hw hloop => by
        obtain ⟨v, hrun, hrec⟩ := readLoop_run burst.blocks burst.last ho
        rw [hloop] at hrun
        cases hrun
        exact ⟨hrec.exact hw, fun _ => hrec.exact hw⟩
      invoke := fun _ => id
      callback := exact_of_effect fun _ => runCalls_effect cs
      teardown := fun _ _ hw hs => (hs.mono fun _ => Act.IsTeardown.call).settles.exact hw
      teardownJ := fun _ _ hw hs => (hs.mono fun _ => Act.IsTeardown.call).settles.exact hw
      returned := fun _ _ => id
      gaveUp := fun _ _ hw _ => hw }
  writable := Effect.returns (fun _ => handleWritableEvent_settles) fun _ _ hw hs => hs.exact hw
  poll := fun mask => by
    rintro w _ w' hw hok
    obtain ⟨r, _, rfl⟩ := onIoContext_inv hok
    exact hw

/-- In every run, between any two operations inside or outside the callback, what the reading
calls have returned and what is in `__buffer` are the blocks that `read(2)` returned. -/
theorem input_exactly_once {os : List (ContextOp α)} (h0 : w.taken = [])
    (hempty : w.context.buffer.bytes = []) (hnew : w.wire.delivered = [])
    (h : Run ContextStep w os w') :
    w'.taken ++ w'.context.buffer.bytes = w'.wire.delivered ∧
      ∀ (cs : List (Call α)) bytes w'', runReturned cs w' = .ok bytes w'' →
        w''.taken = w'.taken ++ bytes := by
  have hstart : w.Exact := by rw [World.Exact, h0, hempty, hnew, List.append_nil]
  exact ⟨exact_rules.run h hstart, fun _ _ _ => runReturned_taken⟩

/-- A readable event with one byte, which the callback reads. -/
def oneByteRead : PublicCall UInt8 :=
  .handleReadableEvent (oneByteEvent 7 (.failed .eagain)).burst [.readString]

theorem one_byte_exactly_once :
    ∃ w : World UInt8, Run ContextStep (World.setUp 0 5 true fullOnce) [.call oneByteRead] w ∧
      w.taken = [7] ∧ w.taken ++ w.context.buffer.bytes = w.wire.delivered := by
  have htaken : (completed (oneByteRead.exec (World.setUp 0 5 true fullOnce))).map (·.taken) =
      some [7] := by decide +kernel
  obtain ⟨w, hdone, hseven⟩ := Option.map_eq_some_iff.1 htaken
  have hrun := Run.single (ContextStep.call (completed_eq_some.1 hdone))
  exact ⟨w, hrun, hseven, (input_exactly_once rfl rfl rfl hrun).1⟩

end Netier
