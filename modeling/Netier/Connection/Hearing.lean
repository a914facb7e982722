import Netier.Connection.Reading

/-! What the handling of an event does on a connection that need not be in the registry
yet: it closes the connection, or whatever it has read the callback has been shown. -/
namespace Netier
open Lib
variable {α : Type} {w w' w'' : World α}

/-- From `w` to `w'` the bytes `data` were read, and if there were any the callback found
everything the application had not yet taken, with them, in `__buffer`. -/
structure Hears (w w' : World α) (data : List α) : Prop where
  seen : w'.seen = w.seen ++ data
  delivered : w'.wire.delivered = w.wire.delivered ++ data
  grew : Grew (fun _ => True) w w'
  shown : data ≠ [] → ∃ m ∈ w'.history, ∃ taken,
    m.event = .onRecv (taken ++ m.context.buffer.bytes) ∧
      taken ++ m.context.buffer.bytes = w.seen ++ data ∧ taken.length ≤ w.seen.length

theorem Settles.hears (h : Settles w w') : Hears w w' [] where
  seen := by rw [List.append_nil, h.seen]
  delivered := by rw [List.append_nil, h.delivered]
  grew := h.grew.mono fun _ _ => trivial
  shown := fun hne => absurd rfl hne

theorem Grew.mem {P : Event α → Prop} {m : Moment α} (h : Grew P w w') (hm : m ∈ w.history) :
    m ∈ w'.history := by
  obtain ⟨log, hlog, _⟩ := h
  rw [hlog]
  exact List.mem_append_right _ hm

theorem Hears.settle {data : List α} (h : Hears w w' data) (hs : Settles w' w'') :
    Hears w w'' data where
  seen := hs.seen.trans h.seen
  delivered := hs.delivered.trans h.delivered
  grew := h.grew.trans (hs.grew.mono fun _ _ => trivial)
  shown := fun hne => by
    obtain ⟨m, hm, hfacts⟩ := h.shown hne
    exact ⟨m, hs.grew.mem hm, hfacts⟩

variable [Zero α]

namespace ReadEvent
variable (e : ReadEvent α) {ret : Int}

/-- A connection that is not VALID at entry is closed by the first cleanup. -/
theorem handle_refused (hshut : w.context.state ≠ some .valid) (hok : e.handle w = .ok ret w') :
    w'.destroyerCalls ≠ 0 := by
  obtain ⟨w₁, hbody, rfl⟩ := recorded_inv hok
  obtain ⟨_, w₂, hmoved, hbody⟩ := bind_inv hbody
  have hm := requireNotMoved_state hmoved
  obtain rfl := requireNotMoved_inv hmoved
  obtain ⟨ret', w₃, hclean, hbody⟩ := bind_inv hbody
  obtain ⟨rfl, hcalls⟩ := stateCleanup_calls hclean hshut hm
  cases hbody
  simpa [Event.isDestroyer] using (Nat.zero_lt_of_lt hcalls).ne'

/-- One whose read loop does not end in `EAGAIN` is closed by the second. -/
theorem handle_closes (ho : Open w) (hpos : 0 < w.context.socket.fd)
    (hlast : e.burst.last.state ≠ .valid) (hok : e.handle w = .ok ret w') :
    w'.destroyerCalls ≠ 0 := by
  obtain ⟨w₁, _, _, _, _, _, _, hcalls⟩ := e.handle_torn ho hpos hlast
  rw [hok] at hcalls
  exact (Nat.zero_lt_of_lt hcalls).ne'

/-- Without a callback an event that brings no bytes leaves what was read as it was. -/
theorem handle_silent (ho : Open w) (hpos : 0 < w.context.socket.fd) (hcb : w.context.onRecv ≠ true)
    (hlast : e.burst.last.state = .valid) (hnil : e.burst.bytes = [])
    (hok : e.handle w = .ok ret w') : Hears w w' [] := by
  obtain ⟨w₁, hrec, _, hgrew, hrun⟩ := e.handle_reads ho hpos
  rw [hlast] at hrec
  have ho₁ : Open w₁ := hrec.open ⟨ho.live, ho.valid⟩
  have hskip : runOnRecv (runCalls e.callback) w₁ = .ok ⟨⟩ w₁ := by
    rw [runOnRecv, bind_of_ok (this_run ho₁.live), if_neg (by rw [hrec.context]; exact hcb)]
    rfl
  have hafter : e.afterLoop w₁ = .ok 0 w₁ := by
    rw [afterLoop, bind_of_ok (stateCleanup_valid ho₁), if_neg (by decide), bind_of_ok hskip,
      stateCleanup_valid ho₁]
  rw [hrun, report, bind_of_ok hafter] at hok
  cases hok
  have hbuf : w₁.context.buffer.bytes = w.context.buffer.bytes := by
    rw [hrec.context]
    simp [hnil]
  refine ⟨by simp [World.seen, hrec.taken, hbuf], by simp [hrec.delivered, hnil], ?_,
    fun hne => absurd rfl hne⟩
  exact ((Grew.log trivial).trans (hgrew.mono fun _ _ => trivial)).trans (.log trivial)

/-- With one the callback is shown them. -/
theorem handle_heard (ho : Open w) (hpos : 0 < w.context.socket.fd) (hcb : w.context.onRecv = true)
    (hlast : e.burst.last.state = .valid) (hok : e.handle w = .ok ret w') :
    Hears w w' e.burst.bytes := by
  obtain ⟨w₁, hrun, _, _, _, hdel, hseen, htaken, hgrew⟩ := e.handle_shown ho hpos hcb hlast
  have hset : Settles w₁.invoke w' := by
    have hfinal := e.respond_settles (w := w₁.invoke)
    rwa [← hrun, hok] at hfinal
  have hinvoke : Hears w w₁.invoke e.burst.bytes := by
    refine ⟨hseen, hdel, (hgrew.mono fun _ _ => trivial).trans (.log trivial), fun _ => ?_⟩
    refine ⟨⟨.onRecv w₁.seen, w₁.context⟩, List.mem_cons_self, w₁.taken, rfl, hseen, ?_⟩
    rw [htaken, World.seen, List.length_append]
    omega
  exact hinvoke.settle hset

/-- `handleReadableEvent` on any live connection: it calls the destroyer, or it reads until
`EAGAIN` and shows what it has read, provided a callback is installed. -/
theorem handle_hears (hlive : w.freed = false) (hpos : 0 < w.context.socket.fd)
    (hok : e.handle w = .ok ret w') (hr : e.burst.bytes ≠ [] → w.context.onRecv = true) :
    w'.destroyerCalls ≠ 0 ∨ e.burst.last.state = .valid ∧ Hears w w' e.burst.bytes := by
  by_cases hv : w.context.state = some .valid
  · by_cases hlast : e.burst.last.state = .valid
    · refine .inr ⟨hlast, ?_⟩
      by_cases hcb : w.context.onRecv = true
      · exact e.handle_heard ⟨hlive, hv⟩ hpos hcb hlast hok
      · have hnil : e.burst.bytes = [] := by
          by_contra hne
          exact hcb (hr hne)
        rw [hnil]
        exact e.handle_silent ⟨hlive, hv⟩ hpos hcb hlast hnil hok
    · exact .inl (e.handle_closes ⟨hlive, hv⟩ hpos hlast hok)
  · exact .inl (e.handle_refused hv hok)

end ReadEvent

/-- Deregistering is all that `~IOContext` does. -/
theorem destruct_ioContext {s s' : Registration} {u : Unit} (h : IoContext.destruct s = .ok u s') :
    s'.ioContext = s.ioContext := by
  cases hr : s.ioContext.reactor with
  | none =>
    simp only [IoContext.destruct, bind_run, get_run, hr, Option.isSome_none, Bool.false_eq_true,
      if_false, pure_run] at h
    cases h
    rfl
  | some r =>
    cases hk : s.kernel.epollCtl r .del s.ioContext.fd ⟨s.ioContext.events, s.ioContext.address⟩ with
    | none =>
      simp [IoContext.destruct, IoContext.delIOContext, IoContext.control, IoContext.requireReactor,
        bind_run, hr, hk] at h
    | some k =>
      simp only [IoContext.destruct, IoContext.delIOContext, IoContext.control,
        IoContext.requireReactor, bind_run, get_run, hr, Option.isSome_some, if_true, pure_run, hk,
        set_run, EStateM.Result.ok.injEq] at h
      rw [← h.2]

omit [Zero α] in
theorem Steps.ioContext (h : Steps Act.IsEvent w w') : w'.context.ioContext = w.context.ioContext := by
  obtain ⟨a, ha, he, rfl⟩ := h
  cases a with
  | deregister s => exact destruct_ioContext he.2.2
  | revents mask => exact ha.elim
  | write buf => simp [World.next]
  | read writer answer => cases answer <;> rfl
  | _ => rfl

omit [Zero α] in
theorem ioContext_of_effect {β : Type} {x : Exec α β} (hx : Effect (Steps Act.IsEvent) x w) :
    (final (x w)).context.ioContext = w.context.ioContext :=
  hx.keeps (I := fun v => v.context.ioContext = w.context.ioContext)
    (fun _ _ h hs => hs.ioContext.trans h) rfl

section General
variable {burst : Burst α} {cs : List (Call α)}

omit [Zero α] in
theorem isWritable_inv {writable : Bool} (h : isWritable w = .ok writable w') : w = w' := by
  obtain ⟨c, w₁, hthis, h⟩ := bind_inv h
  obtain ⟨_, _, rfl⟩ := this_inv hthis
  obtain ⟨_, w₂, hassert, h⟩ := bind_inv h
  cases h
  exact assert_inv hassert

theorem handleWritable_settles (burst : Burst α) (cs : List (Call α))
    (hcb : w.context.ioContext.writableCb ≠ some .handleReadableEvent) :
    Effect Settles (handleWritable burst (runCalls cs)) w := by
  apply Effect.bind this_effect
  intro c w₁ h₁
  obtain ⟨_, rfl, rfl⟩ := this_inv h₁
  apply Effect.bind assert_effect
  intro _ w₂ h₂
  obtain rfl := assert_inv h₂
  cases hw : w.context.ioContext.writableCb with
  | none => exact Effect.pure _
  | some cb =>
    cases cb with
    | handleReadableEvent => exact absurd hw hcb
    | handleWritableEvent => exact handleWritableEvent_settles

theorem handleWritePart_settles (burst : Burst α) (cs : List (Call α))
    (hcb : w.context.ioContext.writableCb ≠ some .handleReadableEvent) :
    Effect Settles (handleWritePart burst (runCalls cs)) w := by
  apply Effect.bind isWritable_effect
  intro writable w₁ h₁
  obtain rfl := isWritable_inv h₁
  apply Effect.ite
  · intro _
    exact (handleWritable_settles burst cs hcb).bind fun _ _ _ => Effect.pure _
  · intro _
    exact Effect.pure _

/-- What `handleGeneral` does with the readable half of an event. -/
inductive General (w : World α) (burst : Burst α) (w' : World α) : Prop where
  | destroyed : w'.destroyerCalls ≠ 0 → General w burst w'
  | read : (w.context.ioContext.revents &&& epollin) ≠ 0 →
      w.context.ioContext.readableCb = some .handleReadableEvent → burst.last.state = .valid →
      Hears w w' burst.bytes → General w burst w'
  | skipped : (w.context.ioContext.revents &&& epollin) = 0 ∨ w.context.ioContext.readableCb = none →
      Hears w w' [] → General w burst w'

theorem handleGeneral_hears {r : Nat} {u : Unit} (hlive : w.freed = false)
    (hpos : 0 < w.context.socket.fd) (hreactor : w.context.ioContext.reactor = some r)
    (hreadable : w.context.ioContext.readableCb ≠ some .handleWritableEvent)
    (hwritable : w.context.ioContext.writableCb ≠ some .handleReadableEvent)
    (hok : handleGeneral burst (runCalls cs) w = .ok u w')
    (hr : (w.context.ioContext.revents &&& epollin) ≠ 0 →
      w.context.ioContext.readableCb = some .handleReadableEvent → burst.bytes ≠ [] →
        w.context.onRecv = true) :
    General w burst w' := by
  have settles {w₁ : World α} {v : Unit} (h : handleWritePart burst (runCalls cs) w₁ = .ok v w')
      (hcb : w₁.context.ioContext = w.context.ioContext) : Settles w₁ w' := by
    have hs := Settles.of_effect (handleWritePart_settles burst cs (w := w₁) (by rwa [hcb]))
    rwa [h] at hs
  rw [handleGeneral, bind_of_ok (isReadable_run hlive hreactor)] at hok
  cases hin : (w.context.ioContext.revents &&& epollin) != 0 with
  | false =>
    rw [hin] at hok
    exact .skipped (.inl (by simpa using hin)) (settles hok rfl).hears
  | true =>
    rw [hin, if_pos rfl] at hok
    have hmask : (w.context.ioContext.revents &&& epollin) ≠ 0 := by simpa using hin
    have hdispatch : handleReadable burst (runCalls cs) w =
        dispatch w.context.ioContext.readableCb burst (runCalls cs) w := by
      rw [handleReadable, bind_of_ok (this_run hlive), hreactor]
      rfl
    obtain ⟨ret, w₁, hhandle, hok⟩ := bind_inv hok
    rw [hdispatch] at hhandle
    cases hcb : w.context.ioContext.readableCb with
    | none =>
      rw [hcb] at hhandle
      cases hhandle
      exact .skipped (.inr hcb) (settles hok rfl).hears
    | some cb =>
      cases cb with
      | handleWritableEvent => exact absurd hcb hreadable
      | handleReadableEvent =>
        rw [hcb] at hhandle
        have hio := ioContext_of_effect (handleReadableEvent_effect (w := w) burst (runCalls_body cs))
        rw [show handleReadableEvent burst (runCalls cs) w = .ok ret w₁ from hhandle] at hio
        have hends := ReadEvent.handle_hears ⟨burst, cs⟩ hlive hpos hhandle (hr hmask hcb)
        rcases hends with hcalls | ⟨hlast, hh⟩
        · refine .destroyed ?_
          by_cases hret : ret < 0
          · rw [if_pos hret] at hok
            cases hok
            exact hcalls
          · rw [if_neg hret] at hok
            have hle := calls_of_effect (handleWritePart_effect (w := w₁) burst (runCalls_body cs))
            rw [hok] at hle
            exact fun hzero => hcalls (Nat.le_zero.1 (hzero ▸ hle))
        · refine .read hmask hcb hlast ?_
          by_cases hret : ret < 0
          · rw [if_pos hret] at hok
            cases hok
            exact hh
          · rw [if_neg hret] at hok
            exact hh.settle (settles hok hio)

end General
end Netier
