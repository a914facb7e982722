import Netier.Connection.Operations

/-! The streams that `writeFile` opens and never closes: which calls of a callback open one,
and that nothing else a connection does opens or closes any. -/
namespace Netier
open Lib
variable {α : Type} {w w' w'' : World α} {n : Nat}

section Registration

/-- It changes one entry of one interest set. -/
theorem epollCtl_inv {k k' : Kernel} {ep : Nat} {op : EpollOp} {fd : Fd} {ev : EpollEvent}
    (h : k.epollCtl ep op fd ev = some k') : ∃ e, k' = k.setInterest ep fd e := by
  unfold Kernel.epollCtl at h
  grind

theorem epollCtl_files {k k' : Kernel} {ep : Nat} {op : EpollOp} {fd : Fd} {ev : EpollEvent}
    (h : k.epollCtl ep op fd ev = some k') : k'.files = k.files := by
  obtain ⟨e, rfl⟩ := epollCtl_inv h
  rfl

/-- So many streams are open. -/
def Registration.Streams (n : Nat) (s : Registration) : Prop := s.kernel.files = n

theorem requireReactor_streams : Lib.Keeps (Registration.Streams n) IoContext.requireReactor := by
  refine .of_final fun s => ?_
  cases hr : s.ioContext.reactor <;> simp [IoContext.requireReactor, bind_run, hr]

theorem control_streams (op : EpollOp) (errmsg : String) :
    Lib.Keeps (Registration.Streams n) (IoContext.control op errmsg) := by
  refine requireReactor_streams.bind fun ep => ?_
  intro s u t hs h
  rw [bind_of_ok (get_run _)] at h
  cases hk : s.kernel.epollCtl ep op s.ioContext.fd ⟨s.ioContext.events, s.ioContext.address⟩ with
  | none =>
    simp only [hk] at h
    cases h
  | some k =>
    simp only [hk] at h
    cases h
    exact (epollCtl_files hk).trans hs

theorem setIoContext_streams (f : IoContext → IoContext) : Lib.Keeps (Registration.Streams n)
    (modify fun s => { s with ioContext := f s.ioContext } : Register Unit) := by
  rintro s _ _ hs ⟨⟩
  exact hs

theorem getEvents_streams : Lib.Keeps (Registration.Streams n) IoContext.getEvents :=
  requireReactor_streams.bind fun _ => .of_final fun _ => rfl

theorem setEvents_streams (ev : Mask) :
    Lib.Keeps (Registration.Streams n) (IoContext.setEvents ev) := by
  refine requireReactor_streams.bind fun _ => ?_
  refine (setIoContext_streams fun c => { c with events := ev }).bind fun _ => ?_
  refine (Lib.Keeps.of_final fun _ => rfl).bind fun s => .ite (fun _ => ?_) fun _ => ?_
  · exact control_streams _ _
  · refine (control_streams _ _).bind fun _ => requireReactor_streams.bind fun _ => ?_
    exact setIoContext_streams fun c => { c with registered := true }

theorem enable_streams (f : Mask → Mask) :
    Lib.Keeps (Registration.Streams n) (do IoContext.setEvents (f (← IoContext.getEvents))) :=
  getEvents_streams.bind fun _ => setEvents_streams _

theorem setIoContext_checked_streams (f : IoContext → IoContext) :
    Lib.Keeps (Registration.Streams n) (do
      let _ ← IoContext.requireReactor
      modify fun s => { s with ioContext := f s.ioContext } : Register Unit) :=
  requireReactor_streams.bind fun _ => setIoContext_streams f

theorem destruct_streams : Lib.Keeps (Registration.Streams n) IoContext.destruct :=
  (Lib.Keeps.of_final fun _ => rfl).bind fun _ => .ite (fun _ => control_streams _ _) fun _ => .pure _

end Registration

/-- So many streams are open in the process. -/
def World.Streams (n : Nat) (w : World α) : Prop := w.kernel.files = n

theorem onIoContext_streams {x : Register Unit} (hx : Lib.Keeps (Registration.Streams n) x) :
    Lib.Keeps (World.Streams (α := α) n) (onIoContext x) := by
  intro w u w' hw h
  obtain ⟨r, hrun, rfl⟩ := onIoContext_inv h
  exact hx ⟨w.kernel, w.context.ioContext⟩ u r hw hrun

theorem Steps.streams {S : Act α → Prop} (h : Steps S w w') (hS : ¬ S .fopen) (hw : w.Streams n) :
    w'.Streams n := by
  obtain ⟨a, ha, he, rfl⟩ := h
  cases a with
  | fopen => exact absurd ha hS
  | deregister r => exact destruct_streams ⟨w.kernel, w.context.ioContext⟩ _ r hw he.2.2
  | write buf =>
    cases hb : w.wire.answers 0 <;> simpa [World.Streams, World.next, World.sysWrite, hb] using hw
  | read writer answer => cases answer <;> exact hw
  | release =>
    simp only [World.Streams, World.next, World.release]
    split <;> exact hw
  | _ => exact hw

theorem streams_of_effect {S : Act α → Prop} {β : Type} {x : Exec α β} (hx : Effect (Steps S) x w)
    (hS : ¬ S .fopen) : (final (x w)).kernel.files = w.kernel.files :=
  hx.keeps (I := World.Streams w.kernel.files) (fun _ _ hn hs => hs.streams hS hn) rfl

/-- No stream has been closed, and one has been opened exactly if `P`. -/
structure Opened (P : Prop) (w w' : World α) : Prop where
  le : w.kernel.files ≤ w'.kernel.files
  same : w'.kernel.files = w.kernel.files ↔ ¬ P

namespace Opened
variable {P Q : Prop}

theorem none (h : w'.kernel.files = w.kernel.files) (hP : ¬ P) : Opened P w w' :=
  ⟨h.ge, fun _ => hP, fun _ => h⟩

theorem some (h : w.kernel.files < w'.kernel.files) (hP : P) : Opened P w w' :=
  ⟨h.le, fun he => absurd he h.ne', fun hn => absurd hP hn⟩

theorem trans (h : Opened P w w') (h' : Opened Q w' w'') : Opened (P ∨ Q) w w'' := by
  refine ⟨h.le.trans h'.le, fun he => ?_, fun hn => ?_⟩
  · have hle := h.le
    have hle' := h'.le
    exact not_or.2 ⟨h.same.1 (by omega), h'.same.1 (by omega)⟩
  · obtain ⟨hP, hQ⟩ := not_or.1 hn
    rw [h'.same.2 hQ, h.same.2 hP]

theorem of_iff (h : Opened P w w') (hiff : P ↔ Q) : Opened Q w w' := by rwa [← hiff]

end Opened

variable [Zero α]

/-- A call of `writeFile` with a path that `fopen` can open. -/
def Call.Opens : Call α → Prop
  | .output (.writeFile (some _)) => True
  | _ => False

/-- Somewhere in a callback `writeFile` is called on a VALID connection with a path that
`fopen` can open. -/
inductive OpensFile : List (Call α) → World α → Prop where
  | here {c : Call α} {cs : List (Call α)} {w : World α} : c.Opens → Open w → OpensFile (c :: cs) w
  | later {c : Call α} {cs : List (Call α)} {w w' : World α} : c.exec w = .ok ⟨⟩ w' →
      OpensFile cs w' → OpensFile (c :: cs) w

theorem Call.exec_streams (c : Call α) (hc : ¬ c.Opens) :
    Effect (Steps (· ≠ Act.fopen)) c.exec w := by
  refine c.exec_steps ?_ (by simp) ?_ (by simp) fun _ => ?_
  · rintro a ha rfl
    exact ha
  · rintro f rfl
    exact absurd trivial hc
  · rintro a ha rfl
    exact ha

theorem writeFile_opened (f : FileStream α) (w : World α) :
    Opened (Open w) w (final (writeFile (some f) w)) := by
  by_cases ho : Open w
  · have hf : Open w.fopen := ⟨ho.live, ho.valid⟩
    have hrest : Effect (Steps Act.IsSend) (do
        freadLoop f.pieces
        flushWriteBuffer
        pure ER.success) w.fopen := by
      refine (effect_mono (fun _ => Act.IsQueue.send) (freadLoop_effect f.pieces hf)).bind ?_
      exact fun _ _ _ => flushWriteBuffer_effect.bind fun _ _ _ => Effect.pure _
    have hsame := streams_of_effect hrest id
    have hrun : writeFile (some f) w = (do
        freadLoop f.pieces
        flushWriteBuffer
        pure ER.success : Exec α ER) w.fopen := by
      rw [writeFile, guarded_open ho, bind_of_ok (modify_run _ _)]
    rw [hrun]
    refine .some ?_ ho
    rw [hsame]
    exact Nat.lt_succ_self _
  · rw [writeFile, guarded_final ho]
    exact .none rfl ho

/-- Every call of `writeFile` that finds its file opens it once more, and no call closes any. -/
theorem Call.exec_opened (c : Call α) (h : c.exec w = .ok ⟨⟩ w') : Opened (c.Opens ∧ Open w) w w' := by
  by_cases hc : c.Opens
  · cases c with
    | output o =>
      cases o with
      | writeFile file =>
        cases file with
        | none => exact hc.elim
        | some f =>
          have hend := writeFile_opened f w
          have hfinal : final (writeFile (some f) w) = w' := by
            have hexec := congrArg final h
            rwa [Call.exec, Output.exec, final_bind_pure] at hexec
          rw [hfinal] at hend
          exact hend.of_iff (by simp [Call.Opens])
      | _ => exact hc.elim
    | _ => exact hc.elim
  · have hsame := streams_of_effect (c.exec_streams hc (w := w)) (by simp)
    rw [h] at hsame
    exact .none hsame fun hcall => hc hcall.1

theorem runCalls_opened {cs : List (Call α)} (h : runCalls cs w = .ok ⟨⟩ w') :
    Opened (OpensFile cs w) w w' := by
  induction cs generalizing w with
  | nil =>
    cases h
    exact .none rfl nofun
  | cons c cs ih =>
    obtain ⟨_, w₁, hc, hcs⟩ := bind_inv h
    refine ((c.exec_opened hc).trans (ih hcs)).of_iff ⟨?_, ?_⟩
    · rintro (⟨hopens, ho⟩ | hrest)
      · exact .here hopens ho
      · exact .later hc hrest
    · intro hopens
      cases hopens with
      | here hopens ho => exact .inl ⟨hopens, ho⟩
      | later hc' hrest =>
        rw [hc] at hc'
        cases hc'
        exact .inr hrest

omit [Zero α] in
theorem keeps_streams {S : Act α → Prop} {β : Type} {x : Exec α β}
    (hx : ∀ w, Effect (Steps S) x w) (hS : ¬ S .fopen) : Lib.Keeps (World.Streams n) x :=
  Effect.returns hx fun _ _ hw hs => hs.streams hS hw

omit [Zero α] in
theorem stateCleanup_streams : Lib.Keeps (World.Streams n) (stateCleanup (α := α)) :=
  keeps_streams (fun _ => stateCleanup_effect) id

omit [Zero α] in
theorem handleWritableEvent_streams : Lib.Keeps (World.Streams n) (handleWritableEvent (α := α)) := by
  have flush : Lib.Keeps (World.Streams n) (flushWriteBuffer (α := α)) :=
    keeps_streams (fun _ => flushWriteBuffer_effect) id
  intro w ret w' hw hok
  obtain ⟨w₁, hbody, rfl⟩ := recorded_inv hok
  have hkeeps : Lib.Keeps (World.Streams n) (handleWritableBody (α := α)) :=
    (Lib.Keeps.of_final requireNotMoved_final).bind fun _ => stateCleanup_streams.bind fun _ =>
      .ite (fun _ => .pure _) fun _ => flush.bind fun _ => stateCleanup_streams
  exact hkeeps (w.log (.entered .writable)) ret w₁ hw hbody

section Events
variable {r : Nat} {burst : Burst α} {cs : List (Call α)}

/-- A readable event without the callback. -/
theorem handleReadableEvent_streams (burst : Burst α) :
    Lib.Keeps (World.Streams n) (handleReadableEvent burst (pure ⟨⟩)) :=
  ReadableRules.handleReadableEvent_keeps (J := World.Streams n)
    { entered := fun _ => id
      read := fun w w' ho hw hloop => by
        obtain ⟨w₁, hrun, hrec⟩ := readLoop_run burst.blocks burst.last ho
        rw [hrun] at hloop
        cases hloop
        have hsame : World.Streams n w' := (congrArg Kernel.files hrec.kernel).trans hw
        exact ⟨hsame, fun _ => hsame⟩
      invoke := fun _ => id
      callback := .pure _
      teardown := fun _ _ hw hs => hs.streams id hw
      teardownJ := fun _ _ hw hs => hs.streams id hw
      returned := fun _ _ => id
      gaveUp := fun _ _ hw _ => hw }

theorem handleReadableEvent_opened {ret : Int} (h : Attached w r)
    (hok : handleReadableEvent burst (runCalls cs) w = .ok ret w') :
    Opened (Reaches w burst ∧ OpensFile cs (w.atOnRecv burst)) w w' := by
  by_cases hr : Reaches w burst
  · rw [handleReadableEvent_reaches hr h.positive] at hok
    obtain ⟨_, w₁, hcalls, hrest⟩ := bind_inv hok
    obtain ⟨ret', w₂, hclean, hrest'⟩ := bind_inv hrest
    cases hrest'
    have hkernel : (w.atOnRecv burst).kernel.files = w.kernel.files := by
      obtain ⟨w₀, hat, _, _, _, hrec⟩ := hr.loop
      rw [hat]
      exact congrArg Kernel.files hrec.kernel
    have hopened := runCalls_opened hcalls
    have hsame : w₂.kernel.files = w₁.kernel.files := stateCleanup_streams _ _ _ rfl hclean
    refine ⟨?_, ?_⟩
    · have hle := hopened.le
      simp only [World.log_kernel]
      omega
    · simp only [World.log_kernel, hr, true_and]
      rw [hsame, ← hkernel]
      exact hopened.same
  · obtain ⟨ret', w₁, hrun⟩ := handleReadableEvent_unreached h hr
    have hsame := handleReadableEvent_streams burst w ret' w₁ rfl (hrun _)
    rw [hrun] at hok
    cases hok
    exact .none hsame fun hboth => hr hboth.1

theorem handleWritePart_streams {callback : Exec α Unit} {u : Unit} (h : Attached w r) (hb : Bound w)
    (hok : handleWritePart burst callback w = .ok u w') : w'.kernel.files = w.kernel.files := by
  rw [handleWritePart_bound _ _ h hb] at hok
  split at hok
  · exact handleWritableEvent_streams.bind (fun _ => .pure _) _ _ _ rfl hok
  · cases hok
    rfl

theorem handleGeneral_opened {u : Unit} (h : Attached w r) (hb : Bound w)
    (hok : handleGeneral burst (runCalls cs) w = .ok u w') :
    Opened ((w.context.ioContext.revents &&& epollin) ≠ 0 ∧ Reaches w burst ∧
      OpensFile cs (w.atOnRecv burst)) w w' := by
  rw [handleGeneral_bound _ _ h hb] at hok
  split at hok
  · rename_i hin
    obtain ⟨ret, w₁, hread, hrest⟩ := bind_inv hok
    have hopened := handleReadableEvent_opened h hread
    have hverdict := handleReadableEvent_ensures (runCalls_body cs) h burst fun _ => any_calms cs
    have hend : w'.kernel.files = w₁.kernel.files := by
      split at hrest
      · cases hrest
        rfl
      · cases (hverdict.ok hread).1 with
        | stays hw _ => exact handleWritePart_streams (hw.attached h) (hw.bound hb) hrest
        | goes _ _ => contradiction
    have hbit : (w.context.ioContext.revents &&& epollin) ≠ 0 := by simpa using hin
    refine (hopened.trans (.none hend not_false)).of_iff ⟨fun hr => ⟨hbit, ?_⟩, fun hr => .inl hr.2⟩
    exact hr.resolve_right id
  · rename_i hin
    exact .none (handleWritePart_streams h hb hok) fun hall => hin (by simpa using hall.1)

/-- An event opens a stream exactly if its callback does. -/
theorem loopEntry_opened {mask : Mask} {u : Unit} (h : Attached w r) (hb : Bound w)
    (hok : loopEntry mask burst (runCalls cs) w = .ok u w') :
    Opened ((mask &&& epollin) ≠ 0 ∧ Reaches (w.polled mask) burst ∧
      OpensFile cs ((w.polled mask).atOnRecv burst)) w w' := by
  rw [loopEntry, bind_of_ok (setRevents_run h.live h.reactor mask)] at hok
  have hopened := handleGeneral_opened (h.polled mask) (hb.polled mask) hok
  exact ⟨hopened.le, hopened.same⟩

end Events
end Netier
