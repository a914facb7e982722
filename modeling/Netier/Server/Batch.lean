import Netier.Server.Registry
import Netier.Connection.Operations

/-! One pass of `Reactor::loop`: `Epoll::poll` turns the events of a batch into pointers to
`IOContext`s, and their handlers run one after the other. A callback may call the public
operations of every connection. -/
namespace Netier
open Lib
variable {α : Type}

abbrev ServerExec (α : Type) := EStateM Fault (Server α)

namespace Server
variable {β : Type} {s s' : Server α} {fd : Fd}

/-- The map after an operation on the connection of a descriptor. -/
def settle (s : Server α) (fd : Fd) (w : World α) : Server α :=
  if w.freed then s.put w.context.socket.fd none w.kernel else s.put fd (some w.toConn) w.kernel

/-- An operation through a pointer to the connection of a descriptor. -/
def onContext (fd : Fd) (x : Exec α β) : ServerExec α β := fun s =>
  match s.contextes fd with
  | none => .error .useAfterFree s
  | some c => match x ⟨c, s.kernel⟩ with
    | .error e w => .error e (s.settle fd w)
    | .ok b w => .ok b (s.settle fd w)

def handleWritableEvent (fd : Fd) : ServerExec α Int := onContext fd Netier.handleWritableEvent

variable [Zero α]

/-- `Context::handleReadableEvent` with a callback that is not confined to its context. -/
def handleReadableEvent (fd : Fd) (burst : Burst α) (callback : ServerExec α Unit) :
    ServerExec α Int := do
  match ← onContext fd (untilOnRecv burst) with
  | some ret => pure ret
  | none =>
    callback
    onContext fd afterOnRecv

def dispatch (fd : Fd) (cb : Option Callback) (burst : Burst α) (callback : ServerExec α Unit) :
    ServerExec α Int :=
  match cb with
  | some .handleReadableEvent => handleReadableEvent fd burst callback
  | some .handleWritableEvent => handleWritableEvent fd
  | none => pure 0

/-- `IOContext::handleReadable` -/
def handleReadable (fd : Fd) (burst : Burst α) (callback : ServerExec α Unit) : ServerExec α Int := do
  let cb ← onContext fd do
    let c ← this
    assert c.ioContext.reactor.isSome
    pure c.ioContext.readableCb
  dispatch fd cb burst callback

/-- `IOContext::handleWritable` -/
def handleWritable (fd : Fd) (burst : Burst α) (callback : ServerExec α Unit) : ServerExec α Int := do
  let cb ← onContext fd do
    let c ← this
    assert c.ioContext.reactor.isSome
    pure c.ioContext.writableCb
  dispatch fd cb burst callback

/-- The second half of `handleGeneral` -/
def handleWritePart (fd : Fd) (burst : Burst α) (callback : ServerExec α Unit) :
    ServerExec α Unit := do
  if (← onContext fd isWritable) then
    let _ ← handleWritable fd burst callback
    pure ()
  else pure ()

/-- `IOContext::handleGeneral` -/
def handleGeneral (fd : Fd) (burst : Burst α) (callback : ServerExec α Unit) : ServerExec α Unit := do
  if (← onContext fd isReadable) then
    let ret ← handleReadable fd burst callback
    if ret < 0 then pure () else handleWritePart fd burst callback
  else handleWritePart fd burst callback

end Server

/-- The body of a callback: public operations on connections, in order. A readable event
brings the body of the callback it leads to. -/
inductive Script (α : Type) where
  | done
  | call (fd : Fd) (c : Call α) (rest : Script α)
  | handleReadableEvent (fd : Fd) (burst : Burst α) (callback rest : Script α)
  | handleWritableEvent (fd : Fd) (rest : Script α)

/-- An event of a batch, with the answers and the callback its handling will meet. -/
structure PolledEvent (α : Type) where
  fd : Fd
  mask : Mask
  burst : Burst α
  callback : Script α

variable [Zero α]

def Script.exec : Script α → ServerExec α Unit
  | .done => pure ()
  | .call fd c rest => do
    Server.onContext fd c.exec
    rest.exec
  | .handleReadableEvent fd burst callback rest => do
    let _ ← Server.handleReadableEvent fd burst callback.exec
    rest.exec
  | .handleWritableEvent fd rest => do
    let _ ← Server.handleWritableEvent fd
    rest.exec

omit [Zero α] in
/-- A callback that keeps to one connection. -/
def Script.own (fd : Fd) : List (Call α) → Script α
  | [] => .done
  | c :: cs => .call fd c (.own fd cs)

def PolledEvent.handleGeneral (e : PolledEvent α) : ServerExec α Unit :=
  Server.handleGeneral e.fd e.burst e.callback.exec

omit [Zero α] in
/-- `Epoll::poll` -/
def poll : List (PolledEvent α) → ServerExec α Unit
  | [] => pure ()
  | e :: es => do
    Server.onContext e.fd (onIoContext (IoContext.setRevents e.mask))
    poll es

/-- The range-based `for` of `Reactor::loop`. -/
def handleAll : List (PolledEvent α) → ServerExec α Unit
  | [] => pure ()
  | e :: es => do
    e.handleGeneral
    handleAll es

/-- One pass of `Reactor::loop`. -/
def loopPass (batch : List (PolledEvent α)) : ServerExec α Unit := do
  poll batch
  handleAll batch

namespace Server
variable {β γ : Type} {s s' : Server α} {fd : Fd} {c : Conn α} {w w' : World α} {burst : Burst α}
variable {x : Exec α β} {b : β}

section Operation

omit [Zero α] in
theorem settle_live (h : w.freed = false) : s.settle fd w = s.put fd (some w.toConn) w.kernel := by
  rw [settle, h]
  rfl

omit [Zero α] in
theorem settle_gone (h : Sound s) (hc : s.contextes fd = some c) (hg : Gone ⟨c, s.kernel⟩ w) :
    s.settle fd w = s.put fd none w.kernel := by
  have hsocket : w.context.socket.fd = fd := (congrArg Socket.fd hg.socket).trans (h.owner fd c hc)
  rw [settle, hg.freed, hsocket]
  rfl

omit [Zero α] in
theorem settle_settle (h : w.freed = false) (hfd : w'.context.socket.fd = fd) :
    (s.settle fd w).settle fd w' = s.settle fd w' := by
  rw [settle_live h, settle, settle, hfd]
  simp [put]

omit [Zero α] in
theorem onContext_run (hc : s.contextes fd = some c)
    (hx : x ⟨c, s.kernel⟩ = .ok b w) : onContext fd x s = .ok b (s.settle fd w) := by
  simp only [onContext, hc, hx]

omit [Zero α] in
theorem onContext_inv (h : onContext fd x s = .ok b s') : ∃ c w, s.contextes fd = some c ∧
    x ⟨c, s.kernel⟩ = .ok b w ∧ s' = s.settle fd w := by
  cases hc : s.contextes fd with
  | none =>
    simp only [onContext, hc] at h
    cases h
  | some c =>
    cases hx : x ⟨c, s.kernel⟩ with
    | error e w =>
      simp only [onContext, hc, hx] at h
      cases h
    | ok b' w =>
      rw [onContext_run hc hx] at h
      cases h
      exact ⟨c, w, rfl, hx, rfl⟩

omit [Zero α] in
/-- An operation that changes nothing. -/
theorem onContext_reads (h : Sound s) (hc : s.contextes fd = some c)
    (hx : x ⟨c, s.kernel⟩ = .ok b ⟨c, s.kernel⟩) : onContext fd x s = .ok b s := by
  have hsame : s.put fd (some c) s.kernel = s := by
    rw [put, ← hc, Function.update_eq_self]
  rw [onContext_run hc hx, settle_live (h.staged fd c hc).live, hsame]

omit [Zero α] in
/-- The rest of an operation runs on the connection as its first part left it. -/
theorem onContext_bind_run {f : β → Exec α γ} (hc : s.contextes fd = some c)
    (hx : x ⟨c, s.kernel⟩ = .ok b w) (hlive : w.freed = false)
    (hfd : (final (f b w)).context.socket.fd = fd) :
    onContext fd (x >>= f) s = onContext fd (f b) (s.settle fd w) := by
  have hsettle := settle_settle (s := s) hlive hfd
  have hself : (s.settle fd w).contextes fd = some w.toConn := by
    rw [settle_live hlive, put_self]
  have hkernel : (s.settle fd w).kernel = w.kernel := by
    rw [settle_live hlive]
    rfl
  simp only [onContext, hc, bind_of_ok hx, hself, hkernel]
  cases hf : f b w with
  | ok b' w' =>
    rw [hf, final_ok] at hsettle
    exact congrArg (EStateM.Result.ok b') hsettle.symm
  | error e w' =>
    rw [hf, final_error] at hsettle
    exact congrArg (EStateM.Result.error e) hsettle.symm

omit [Zero α] in
/-- Operations on one connection, one after the other, are one operation, as long as the first
leaves the connection alive. -/
theorem onContext_bind {f : β → Exec α γ} (h : ∀ c b w, s.contextes fd = some c →
    x ⟨c, s.kernel⟩ = .ok b w → w.freed = false ∧ (final (f b w)).context.socket.fd = fd) :
    onContext fd (x >>= f) s = (onContext fd x >>= fun b => onContext fd (f b)) s := by
  cases hc : s.contextes fd with
  | none => simp only [bind_run, onContext, hc]
  | some c =>
    cases hx : x ⟨c, s.kernel⟩ with
    | error e w => simp only [bind_run, onContext, hc, hx]
    | ok b w =>
      obtain ⟨hlive, hfd⟩ := h c b w hc hx
      rw [bind_of_ok (onContext_run hc hx), onContext_bind_run hc hx hlive hfd]

end Operation

section Bound
variable {callback : ServerExec α Unit}

omit [Zero α] in
/-- A connection has its reactor, so that `handleReadable` and `handleWritable` get to their callback. -/
theorem Sound.reads_callback (h : Sound s) (hc : s.contextes fd = some c) (cb : IoContext → Option Callback) :
    onContext fd (do
      let c ← this
      assert c.ioContext.reactor.isSome
      pure (cb c.ioContext)) s = .ok (cb c.context.ioContext) s := by
  have hstaged := h.staged fd c hc
  refine onContext_reads h hc ?_
  rw [bind_of_ok (this_run hstaged.live), hstaged.reactor]
  rfl

theorem handleReadable_bound (h : Sound s) (hc : s.contextes fd = some c) :
    handleReadable fd burst callback s = handleReadableEvent fd burst callback s := by
  rw [handleReadable, bind_of_ok (h.reads_callback hc _), (h.staged fd c hc).bound.readableCb]
  rfl

theorem handleWritable_bound (h : Sound s) (hc : s.contextes fd = some c) :
    handleWritable fd burst callback s = handleWritableEvent fd s := by
  rw [handleWritable, bind_of_ok (h.reads_callback hc _), (h.staged fd c hc).bound.writableCb]
  rfl

theorem handleWritePart_bound (h : Sound s) (hc : s.contextes fd = some c) :
    handleWritePart fd burst callback s =
      if (c.context.ioContext.revents &&& epollout) != 0 then
        (do let _ ← handleWritableEvent fd : ServerExec α Unit) s
      else .ok ⟨⟩ s := by
  rw [handleWritePart, bind_of_ok (onContext_reads h hc (isWritable_run (h.staged fd c hc).attached))]
  split
  · rw [bind_run, handleWritable_bound h hc, bind_run]
  · rfl

theorem handleGeneral_bound (h : Sound s) (hc : s.contextes fd = some c) :
    handleGeneral fd burst callback s =
      if (c.context.ioContext.revents &&& epollin) != 0 then
        (do
          let ret ← handleReadableEvent fd burst callback
          if ret < 0 then pure () else handleWritePart fd burst callback : ServerExec α Unit) s
      else handleWritePart fd burst callback s := by
  have hstaged := h.staged fd c hc
  rw [handleGeneral, bind_of_ok (onContext_reads h hc (isReadable_run hstaged.live hstaged.reactor))]
  split
  · rw [bind_run, handleReadable_bound h hc, bind_run]
  · rfl

end Bound
section Own
variable {cs : List (Call α)} {mask : Mask}

omit [Zero α] in
theorem Sound.settle_works (h : Sound s) (hc : s.contextes fd = some c) (hw : Works ⟨c, s.kernel⟩ w) :
    w.freed = false ∧ w.context.socket.fd = fd ∧ Sound (s.settle fd w) ∧
      (s.settle fd w).contextes fd = some w.toConn := by
  have hstaged := (h.staged fd c hc).of_untouched hw.untouched
  rw [settle_live hstaged.live, put_self]
  exact ⟨hstaged.live, (congrArg Socket.fd hw.socket).trans (h.owner fd c hc),
    h.stays hc hw.untouched.beside hstaged, rfl⟩

theorem own_exec (h : Sound s) (hc : s.contextes fd = some c) (hcs : ∀ x ∈ cs, x.Calm) :
    (Script.own fd cs).exec s = onContext fd (runCalls cs) s := by
  induction cs generalizing s c with
  | nil => exact (onContext_reads h hc rfl).symm
  | cons x xs ih =>
    have hworks {c' : Conn α} {u : Unit} {w : World α} (hc' : s.contextes fd = some c')
        (hx : x.exec ⟨c', s.kernel⟩ = .ok u w) : Works ⟨c', s.kernel⟩ w := by
      have hhealthy := (h.staged fd c' hc').attached.toHealthy
      exact (x.calm_ensures (hcs x List.mem_cons_self) hhealthy).ok hx
    rw [Script.own, Script.exec, runCalls, onContext_bind, bind_run, bind_run]
    · cases hrun : onContext fd x.exec s with
      | error e s₁ => rfl
      | ok u s₁ =>
        obtain ⟨c', w, hc', hx, rfl⟩ := onContext_inv hrun
        obtain ⟨_, _, hsound, hself⟩ := h.settle_works hc' (hworks hc' hx)
        exact ih hsound hself fun y hy => hcs y (List.mem_cons_of_mem _ hy)
    · intro c' u w hc' hx
      obtain ⟨hlive, hfd, _, _⟩ := h.settle_works hc' (hworks hc' hx)
      exact ⟨hlive, by rw [socket_of_effect (runCalls_effect xs), hfd]⟩

omit [Zero α] in
theorem afterOnRecv_effect : Effect (Steps Act.IsEvent) afterOnRecv w := by
  apply Effect.bind (effect_mono (fun _ ha => Act.IsBody.event (.inr ha)) stateCleanup_effect)
  intro ret w₁ _
  exact (effect_act (.returned .readable ret) rfl trivial trivial).bind fun _ _ _ => Effect.pure _

theorem afterOnRecv_own (h : Sound s) (hc : s.contextes fd = some c) (hcs : ∀ x ∈ cs, x.Calm) :
    (do (Script.own fd cs).exec; onContext fd afterOnRecv) s =
      onContext fd (do runCalls cs; afterOnRecv) s := by
  rw [onContext_bind, bind_run, bind_run, own_exec h hc hcs]
  intro c' u w hc' hx
  have hworks := runCalls_ensures (h.staged fd c' hc').attached.toHealthy
    fun x hx _ hw => x.calm_ensures (hcs x hx) hw
  obtain ⟨hlive, hfd, _, _⟩ := h.settle_works hc' (hworks.ok hx)
  exact ⟨hlive, by rw [socket_of_effect afterOnRecv_effect, hfd]⟩

theorem handleReadableEvent_own (h : Sound s) (hc : s.contextes fd = some c) (hcs : ∀ x ∈ cs, x.Calm) :
    handleReadableEvent fd burst (Script.own fd cs).exec s =
      onContext fd (Netier.handleReadableEvent burst (runCalls cs)) s := by
  have hatt := (h.staged fd c hc).attached
  by_cases hr : Reaches (⟨c, s.kernel⟩ : World α) burst
  · have huntil := untilOnRecv_reaches hr hatt.positive
    obtain ⟨hlive, hfd, hsound, hself⟩ := h.settle_works hc (untilOnRecv_none hatt huntil).2
    have heffect : Effect (Steps Act.IsEvent) (do runCalls cs; afterOnRecv)
        ((⟨c, s.kernel⟩ : World α).atOnRecv burst) :=
      (effect_mono (fun _ => Act.IsBody.event) (runCalls_body cs _)).bind fun _ _ _ => afterOnRecv_effect
    rw [handleReadableEvent, handleReadableEvent_split, bind_of_ok (onContext_run hc huntil),
      onContext_bind_run hc huntil hlive ((congrArg Socket.fd (socket_of_effect heffect)).trans hfd)]
    exact afterOnRecv_own hsound hself hcs
  · obtain ⟨ret, w', huntil, _⟩ := untilOnRecv_unreached hatt hr
    have hrun : Netier.handleReadableEvent burst (runCalls cs) ⟨c, s.kernel⟩ = .ok ret w' := by
      rw [handleReadableEvent_split, bind_of_ok huntil]
      rfl
    rw [handleReadableEvent, bind_of_ok (onContext_run hc huntil), onContext_run hc hrun]
    rfl

omit [Zero α] in
theorem onContext_congr {y : Exec α β} (hc : s.contextes fd = some c)
    (hxy : x ⟨c, s.kernel⟩ = y ⟨c, s.kernel⟩) : onContext fd x s = onContext fd y s := by
  simp only [onContext, hc, hxy]

theorem handleWritePart_own (callback : ServerExec α Unit) (h : Sound s) (hc : s.contextes fd = some c) :
    handleWritePart fd burst callback s =
      onContext fd (Netier.handleWritePart burst (runCalls cs)) s := by
  have hstaged := h.staged fd c hc
  have hpart := Netier.handleWritePart_bound burst (runCalls cs) hstaged.attached hstaged.bound
  rw [handleWritePart_bound h hc]
  split at hpart
  · rename_i hout
    rw [if_pos hout, onContext_congr hc hpart]
    simp only [handleWritableEvent, bind_run, onContext, hc]
    cases Netier.handleWritableEvent (⟨c, s.kernel⟩ : World α) <;> rfl
  · rename_i hout
    rw [if_neg hout, onContext_reads h hc hpart]

theorem handleGeneral_own (h : Sound s) (hc : s.contextes fd = some c) (hcs : ∀ x ∈ cs, x.Calm) :
    handleGeneral fd burst (Script.own fd cs).exec s =
      onContext fd (Netier.handleGeneral burst (runCalls cs)) s := by
  have hstaged := h.staged fd c hc
  have hgeneral := Netier.handleGeneral_bound burst (runCalls cs) hstaged.attached hstaged.bound
  rw [handleGeneral_bound h hc]
  split at hgeneral
  · rename_i hin
    rw [if_pos hin, onContext_congr hc hgeneral, bind_run, handleReadableEvent_own h hc hcs]
    have hcalms := calms_of_works fun x hx _ hw => Call.calm_ensures x (hcs x hx) hw
    have hend := handleReadableEvent_ensures (runCalls_body cs) hstaged.attached burst fun _ => hcalms
    cases hrun : Netier.handleReadableEvent burst (runCalls cs) ⟨c, s.kernel⟩ with
    | error e w => simp only [onContext, hc, bind_run, hrun]
    | ok ret w =>
      rw [onContext_run hc hrun]
      cases (hend.ok hrun).1 with
      | goes hg _ =>
        refine (onContext_run hc ?_).symm
        rw [bind_of_ok hrun]
        rfl
      | stays hw _ =>
        obtain ⟨hlive, hfd, hsound, hself⟩ := h.settle_works hc hw
        have heffect := handleWritePart_effect (w := w) burst (runCalls_body cs)
        rw [onContext_bind_run hc hrun hlive ((congrArg Socket.fd (socket_of_effect heffect)).trans hfd)]
        exact handleWritePart_own _ hsound hself
  · rename_i hin
    rw [if_neg hin, onContext_congr hc hgeneral]
    exact handleWritePart_own _ h hc

theorem event_onContext (hc : s.contextes fd = some c) : s.event fd mask burst cs = .ok s' ↔
    onContext fd (loopEntry mask burst (runCalls cs)) s = .ok ⟨⟩ s' := by
  cases hrun : loopEntry mask burst (runCalls cs) ⟨c, s.kernel⟩ with
  | error e w =>
    simp only [event, onContext, hc, hrun]
    constructor <;> intro herr <;> cases herr
  | ok u w =>
    have hevent : s.event fd mask burst cs = .ok (s.settle fd w) := by
      simp only [event, hc, hrun, settle]
      split <;> rfl
    rw [hevent, onContext_run hc hrun, Except.ok.injEq, EStateM.Result.ok.injEq]
    exact (and_iff_right rfl).symm

omit [Zero α] in
/-- The mask of a polled event is stored in the connection it points to. -/
theorem Sound.setRevents (h : Sound s) (hc : s.contextes fd = some c) (mask : Mask) :
    ∃ s₀, onContext fd (onIoContext (IoContext.setRevents mask)) s = .ok ⟨⟩ s₀ ∧
      s₀ = s.settle fd ((⟨c, s.kernel⟩ : World α).polled mask) ∧ Sound s₀ ∧
      s₀.contextes fd = some ((⟨c, s.kernel⟩ : World α).polled mask).toConn := by
  have hstaged := h.staged fd c hc
  have hpolled : Staged (s.schedule fd) .returned ((⟨c, s.kernel⟩ : World α).polled mask) :=
    hstaged.polled mask
  refine ⟨_, onContext_run hc (setRevents_run hstaged.live hstaged.reactor mask), rfl, ?_, ?_⟩
  · rw [settle_live hpolled.live]
    exact h.stays hc ⟨rfl, rfl, rfl, fun _ _ _ => rfl⟩ hpolled
  · rw [settle_live hpolled.live, put_self]

/-- A pass over one event, with a callback that keeps to its own connection and does not destroy
it, is the event of the sequential server. -/
theorem loopPass_event (h : Sound s) (hc : s.contextes fd = some c) (hcs : ∀ x ∈ cs, x.Calm) :
    loopPass [⟨fd, mask, burst, .own fd cs⟩] s = .ok ⟨⟩ s' ↔ s.event fd mask burst cs = .ok s' := by
  have hstaged := h.staged fd c hc
  obtain ⟨s₀, hset, rfl, hsound, hself⟩ := h.setRevents hc mask
  have hpass : loopPass [⟨fd, mask, burst, .own fd cs⟩] s =
      handleGeneral fd burst (Script.own fd cs).exec
        (s.settle fd ((⟨c, s.kernel⟩ : World α).polled mask)) := by
    have hpoll := bind_of_ok (f := fun _ => poll []) hset
    rw [loopPass, poll, bind_of_ok hpoll, handleAll, PolledEvent.handleGeneral, bind_run]
    cases handleGeneral fd burst (Script.own fd cs).exec
      (s.settle fd ((⟨c, s.kernel⟩ : World α).polled mask)) <;> rfl
  have heffect := handleGeneral_effect (w := (⟨c, s.kernel⟩ : World α).polled mask) burst (runCalls_body cs)
  rw [event_onContext hc, loopEntry,
    onContext_bind_run hc (setRevents_run hstaged.live hstaged.reactor mask) hstaged.live
      ((congrArg Socket.fd (socket_of_effect heffect)).trans (h.owner fd c hc)),
    hpass, handleGeneral_own hsound hself hcs]

end Own
end Server
end Netier
