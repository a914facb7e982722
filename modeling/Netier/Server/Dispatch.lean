import Netier.Server.Batch

/-! Which connections are still live when the loop gets to their event. The pointers of a
batch are taken before its first handler runs, and nothing looks at them again. -/
namespace Netier
open Lib
variable {α : Type} [Zero α]

namespace Server
variable {β : Type} {s s' s'' : Server α} {fd t : Fd} {r : Nat} {x : Exec α β} {b : β}

/-- The connection of descriptor `t`, if it is live, is lost exactly if `P`. -/
structure Loses (t : Fd) (P : Prop) (s s' : Server α) : Prop where
  sound : Sound s'
  stale : s.contextes t = none → s'.contextes t = none
  live : (s.contextes t).isSome → ((s'.contextes t).isSome ↔ ¬ P)

namespace Loses
variable {P Q : Prop}

omit [Zero α] in
theorem refl (h : Sound s) : Loses t False s s := ⟨h, id, fun ht => iff_of_true ht not_false⟩

omit [Zero α] in
theorem of_iff (h : Loses t P s s') (hiff : P ↔ Q) : Loses t Q s s' := by rwa [← hiff]

omit [Zero α] in
theorem trans (h : Loses t P s s') (h' : Loses t Q s' s'') : Loses t (P ∨ Q) s s'' := by
  refine ⟨h'.sound, h'.stale ∘ h.stale, fun ht => ?_⟩
  by_cases hP : P
  · have hnone : s'.contextes t = none := by
      rw [← Option.not_isSome_iff_eq_none, h.live ht, not_not]
      exact hP
    rw [h'.stale hnone]
    simp [hP]
  · rw [h'.live ((h.live ht).2 hP)]
    simp [hP]

end Loses

section Operation
variable {c : Conn α} {w : World α}

omit [Zero α] in
theorem Sound.loses_stays (h : Sound s) (hc : s.contextes fd = some c)
    (hbeside : Beside (s.schedule fd) ⟨c, s.kernel⟩ w) (hstaged : Staged (s.schedule fd) .returned w) :
    Loses t False s (s.settle fd w) := by
  rw [settle_live hstaged.live]
  refine ⟨h.stays hc hbeside hstaged, fun hnone => ?_, fun ht => iff_of_true ?_ not_false⟩
  · have hne : t ≠ fd := by
      rintro rfl
      rw [hc] at hnone
      cases hnone
    rwa [put_other s _ _ hne]
  · by_cases hne : t = fd
    · rw [hne, put_self]
      rfl
    · rwa [put_other s _ _ hne]

omit [Zero α] in
theorem Sound.loses_goes (h : Sound s) (hc : s.contextes fd = some c)
    (hg : Gone ⟨c, s.kernel⟩ w) : Loses t (fd = t) s (s.settle fd w) := by
  rw [settle_gone h hc hg]
  refine ⟨h.goes hc hg, fun hnone => ?_, fun ht => ?_⟩
  · by_cases hne : t = fd
    · rw [hne, put_self]
    · rwa [put_other s _ _ hne]
  · by_cases hne : t = fd
    · rw [hne, put_self]
      simp
    · rw [put_other s _ _ hne]
      exact iff_of_true ht fun heq => hne heq.symm

omit [Zero α] in
/-- One operation changes one connection. -/
theorem Sound.operation {P : Prop} (h : Sound s) (hok : onContext fd x s = .ok b s')
    (hx : ∀ c w, s.contextes fd = some c → Attached (⟨c, s.kernel⟩ : World α) (s.schedule fd) →
      x ⟨c, s.kernel⟩ = .ok b w → TornIf P ⟨c, s.kernel⟩ w) : Loses t (fd = t ∧ P) s s' := by
  obtain ⟨c, w, hc, hrun, rfl⟩ := onContext_inv hok
  have hstaged := h.staged fd c hc
  rcases hx c w hc hstaged.attached hrun with ⟨hw, hP⟩ | ⟨hg, hP⟩
  · have hstays := h.loses_stays (t := t) hc hw.untouched.beside (hstaged.of_untouched hw.untouched)
    exact hstays.of_iff (by simp [hP])
  · exact (h.loses_goes (t := t) hc hg).of_iff (by simp [hP])

end Operation

/-- The connection of a descriptor is in the map and VALID. -/
def IsOpen (s : Server α) (fd : Fd) : Prop := ∃ c, s.contextes fd = some c ∧ Open (⟨c, s.kernel⟩ : World α)

/-- The connection of a descriptor is in the map, and VALID after a writable event. -/
def Flushes (s : Server α) (fd : Fd) : Prop :=
  ∃ c, s.contextes fd = some c ∧ Open (⟨c, s.kernel⟩ : World α).afterFlush

section Operations
variable {burst : Burst α} {ret : Int}

theorem untilOnRecv_loses_none (h : Sound s) (hok : onContext fd (untilOnRecv burst) s = .ok none s') :
    Loses t False s s' ∧ s.IsOpen fd ∧ burst.last.state = .valid := by
  have hloses := h.operation (t := t) (P := False) hok fun c w _ hatt hrun =>
    .inl ⟨(untilOnRecv_none hatt hrun).2, not_false⟩
  obtain ⟨c, w, hc, hrun, -⟩ := onContext_inv hok
  have hr := (untilOnRecv_none (h.staged fd c hc).attached hrun).1
  exact ⟨hloses.of_iff (by simp), ⟨c, hc, hr.open⟩, hr.last⟩

theorem untilOnRecv_loses_some (h : Sound s)
    (hok : onContext fd (untilOnRecv burst) s = .ok (some ret) s') :
    Loses t (fd = t ∧ ¬ (s.IsOpen fd ∧ burst.last.state = .valid)) s s' := by
  refine h.operation hok fun c w hc hatt hrun => ?_
  simpa [IsOpen, hc] using untilOnRecv_some hatt hrun

omit [Zero α] in
theorem afterOnRecv_loses (h : Sound s) (hok : onContext fd afterOnRecv s = .ok ret s') :
    Loses t (fd = t ∧ ¬ s.IsOpen fd) s s' := by
  refine h.operation hok fun c w hc hatt hrun => ?_
  simpa [IsOpen, hc] using afterOnRecv_ends hatt hrun

omit [Zero α] in
theorem handleWritableEvent_loses (h : Sound s) (hok : handleWritableEvent fd s = .ok ret s') :
    Loses t (fd = t ∧ ¬ s.Flushes fd) s s' := by
  refine h.operation hok fun c w hc hatt hrun => ?_
  simpa [Flushes, hc] using handleWritableEvent_ends hatt hrun

theorem call_loses {c : Call α} (h : Sound s) (hok : onContext fd c.exec s = .ok ⟨⟩ s') :
    Loses t (fd = t ∧ c = .destroy) s s' :=
  h.operation hok fun _ _ _ hatt hrun => c.exec_ends hatt hrun

/-- A readable event of the connection of `fd` ends that of `t`: `t` is `fd`, and the event or
the callback it leads to leaves it not VALID, or the callback itself ends it, as `K` says. -/
def ReadableKills (t fd : Fd) (burst : Burst α) (callback : ServerExec α Unit) (K : Server α → Prop)
    (s : Server α) : Prop :=
  fd = t ∧ ¬ (s.IsOpen fd ∧ burst.last.state = .valid) ∨
  ∃ s₁, onContext fd (untilOnRecv burst) s = .ok none s₁ ∧
    (K s₁ ∨ fd = t ∧ After callback (fun s₂ => ¬ s₂.IsOpen fd) s₁)

theorem handleReadableEvent_loses {callback : ServerExec α Unit} {K : Server α → Prop} (h : Sound s)
    (hcb : ∀ s₁ s₂, Sound s₁ → callback s₁ = .ok ⟨⟩ s₂ → Loses t (K s₁) s₁ s₂)
    (hok : handleReadableEvent fd burst callback s = .ok ret s') :
    Loses t (ReadableKills t fd burst callback K s) s s' := by
  obtain ⟨early, s₁, huntil, hrest⟩ := bind_inv hok
  cases early with
  | some ret' =>
    cases hrest
    refine (untilOnRecv_loses_some h huntil).of_iff ?_
    simp [ReadableKills, huntil]
  | none =>
    obtain ⟨_, s₂, hcall, hafter⟩ := bind_inv hrest
    obtain ⟨hloses, hopen⟩ := untilOnRecv_loses_none (t := t) h huntil
    have hloses₁ := hcb s₁ s₂ hloses.sound hcall
    have hloses₂ := afterOnRecv_loses (t := t) hloses₁.sound hafter
    refine ((hloses.trans hloses₁).trans hloses₂).of_iff ?_
    simp [ReadableKills, huntil, hopen, after_iff hcall]

end Operations
end Server

/-- Some operation of a callback ends the connection of `t`. -/
def Script.Kills (t : Fd) : Script α → Server α → Prop
  | .done, _ => False
  | .call fd c rest, s => fd = t ∧ c = .destroy ∨ After (Server.onContext fd c.exec) (rest.Kills t) s
  | .handleReadableEvent fd burst callback rest, s =>
    Server.ReadableKills t fd burst callback.exec (callback.Kills t) s ∨
      After (Server.handleReadableEvent fd burst callback.exec) (rest.Kills t) s
  | .handleWritableEvent fd rest, s =>
    fd = t ∧ ¬ s.Flushes fd ∨ After (Server.handleWritableEvent fd) (rest.Kills t) s

theorem Script.exec_loses {s s' : Server α} {t : Fd} (script : Script α) (h : s.Sound)
    (hok : script.exec s = .ok ⟨⟩ s') : Server.Loses t (script.Kills t s) s s' := by
  induction script generalizing s s' with
  | done =>
    cases hok
    exact .refl h
  | call fd c rest ih =>
    obtain ⟨_, s₁, hcall, hrest⟩ := bind_inv hok
    have hloses := Server.call_loses (t := t) h hcall
    refine (hloses.trans (ih hloses.sound hrest)).of_iff ?_
    rw [Script.Kills, after_iff hcall]
  | handleReadableEvent fd burst callback rest ihc ih =>
    obtain ⟨_, s₁, hread, hrest⟩ := bind_inv hok
    have hloses := Server.handleReadableEvent_loses (t := t) h (fun _ _ => ihc) hread
    refine (hloses.trans (ih hloses.sound hrest)).of_iff ?_
    rw [Script.Kills, after_iff hread]
  | handleWritableEvent fd rest ih =>
    obtain ⟨_, s₁, hwrite, hrest⟩ := bind_inv hok
    have hloses := Server.handleWritableEvent_loses (t := t) h hwrite
    refine (hloses.trans (ih hloses.sound hrest)).of_iff ?_
    rw [Script.Kills, after_iff hwrite]

namespace Server
variable {s s' : Server α} {fd t : Fd} {burst : Burst α}

theorem handleWritePart_loses {callback : ServerExec α Unit} {u : Unit} (h : Sound s) (hne : fd ≠ t)
    (hok : handleWritePart fd burst callback s = .ok u s') : Loses t False s s' := by
  obtain ⟨writable, s₁, hbit, _⟩ := bind_inv hok
  obtain ⟨c, _, hc, _, _⟩ := onContext_inv hbit
  rw [handleWritePart_bound h hc] at hok
  split at hok
  · obtain ⟨_, s₂, hwrite, hrest⟩ := bind_inv hok
    cases hrest
    exact (handleWritableEvent_loses h hwrite).of_iff (by simp [hne])
  · cases hok
    exact .refl h

/-- The event of the connection of a descriptor is a readable one. -/
def IsReadable (s : Server α) (fd : Fd) : Prop :=
  ∃ c, s.contextes fd = some c ∧ (c.context.ioContext.revents &&& epollin) ≠ 0

end Server

/-- The event gets as far as its callback, and that ends the connection of `t`. -/
def PolledEvent.Kills (t : Fd) (e : PolledEvent α) (s : Server α) : Prop :=
  s.IsReadable e.fd ∧
    ∃ s₁, Server.onContext e.fd (untilOnRecv e.burst) s = .ok none s₁ ∧ e.callback.Kills t s₁

/-- The callback of some event of a batch ends the connection of `t`. -/
def Killed (t : Fd) : List (PolledEvent α) → Server α → Prop
  | [], _ => False
  | e :: es, s => e.Kills t s ∨ After e.handleGeneral (Killed t es) s

section Batch
variable {s s' : Server α} {t : Fd}

/-- The handling of an event ends another connection only by its callback. -/
theorem PolledEvent.handleGeneral_loses {e : PolledEvent α} {u : Unit} (h : s.Sound) (hne : e.fd ≠ t)
    (hok : e.handleGeneral s = .ok u s') : Server.Loses t (e.Kills t s) s s' := by
  obtain ⟨readable, s₁, hbit, _⟩ := bind_inv hok
  obtain ⟨c, _, hc, _, _⟩ := Server.onContext_inv hbit
  rw [PolledEvent.handleGeneral, Server.handleGeneral_bound h hc] at hok
  split at hok
  · rename_i hin
    obtain ⟨ret, s₂, hread, hrest⟩ := bind_inv hok
    have hloses := Server.handleReadableEvent_loses (t := t) h (fun _ _ => e.callback.exec_loses) hread
    have hrest' : Server.Loses t False s₂ s' := by
      split at hrest
      · cases hrest
        exact .refl hloses.sound
      · exact Server.handleWritePart_loses hloses.sound hne hrest
    have hreadable : s.IsReadable e.fd := ⟨c, hc, by simpa using hin⟩
    refine (hloses.trans hrest').of_iff ?_
    simp [Server.ReadableKills, PolledEvent.Kills, hne, hreadable]
  · rename_i hin
    have hnot : ¬ s.IsReadable e.fd := by simpa [Server.IsReadable, hc] using hin
    exact (Server.handleWritePart_loses h hne hok).of_iff (by simp [PolledEvent.Kills, hnot])

theorem handleAll_loses {pre : List (PolledEvent α)} {u : Unit} (h : s.Sound)
    (hne : ∀ e ∈ pre, e.fd ≠ t) (hok : handleAll pre s = .ok u s') :
    Server.Loses t (Killed t pre s) s s' := by
  induction pre generalizing s with
  | nil =>
    cases hok
    exact .refl h
  | cons e es ih =>
    obtain ⟨_, s₁, he, hes⟩ := bind_inv hok
    have hloses := e.handleGeneral_loses h (hne e List.mem_cons_self) he
    have hrest := ih hloses.sound (fun e' he' => hne e' (List.mem_cons_of_mem _ he')) hes
    refine (hloses.trans hrest).of_iff ?_
    rw [Killed, after_iff he]

omit [Zero α] in
/-- `Epoll::poll` only stores the masks. -/
theorem poll_loses {batch : List (PolledEvent α)} (h : s.Sound)
    (hlive : ∀ e ∈ batch, (s.contextes e.fd).isSome) :
    ∃ s₀, poll batch s = .ok ⟨⟩ s₀ ∧ ∀ t, Server.Loses t False s s₀ := by
  induction batch generalizing s with
  | nil => exact ⟨s, rfl, fun t => .refl h⟩
  | cons e es ih =>
    obtain ⟨c, hc⟩ := Option.isSome_iff_exists.1 (hlive e List.mem_cons_self)
    obtain ⟨_, hrun, rfl, _, _⟩ := h.setRevents hc e.mask
    have hloses (t : Fd) := h.loses_stays (t := t) (w := (⟨c, s.kernel⟩ : World α).polled e.mask) hc
      ⟨rfl, rfl, rfl, fun _ _ _ => rfl⟩ ((h.staged e.fd c hc).polled e.mask)
    obtain ⟨s₀, hpoll, hloses'⟩ := ih (hloses e.fd).sound fun e' he' =>
      ((hloses e'.fd).live (hlive e' (List.mem_cons_of_mem _ he'))).2 not_false
    refine ⟨s₀, (bind_of_ok hrun).trans hpoll, fun t => ((hloses t).trans (hloses' t)).of_iff (by simp)⟩

end Batch

namespace Server
variable {s : Server α} {r : Nat} {batch : List (PolledEvent α)}

/-- What one call of `epoll_wait(2)` may return to reactor `r`: registered descriptors, each at
most once. -/
structure Polls (s : Server α) (r : Nat) (batch : List (PolledEvent α)) : Prop where
  once : (batch.map PolledEvent.fd).Nodup
  registered : ∀ e ∈ batch, (s.kernel.interest r e.fd).isSome

omit [Zero α] in
/-- The pointer of an event is the `IOContext` of its descriptor. -/
theorem Sound.pointer {fd : Fd} {ev : EpollEvent} (h : Sound s) (hev : s.kernel.interest r fd = some ev) :
    ∃ c, s.contextes fd = some c ∧ c.context.ioContext.address = ev.ptr := by
  obtain ⟨rfl, hsome⟩ := h.only r fd ev hev
  obtain ⟨c, hc⟩ := Option.isSome_iff_exists.1 hsome
  have hwatched := h.watched fd c hc
  rw [hev] at hwatched
  cases hwatched
  exact ⟨c, hc, rfl⟩

/-- Whenever the loop gets to an event of the batch, its connection is live. -/
def DispatchesLive (batch : List (PolledEvent α)) (s : Server α) : Prop :=
  ∀ s₀ pre e post s', poll batch s = .ok ⟨⟩ s₀ → batch = pre ++ e :: post →
    handleAll pre s₀ = .ok ⟨⟩ s' → (s'.contextes e.fd).isSome

/-- Whenever the loop gets to an event of the batch, no callback before it has ended its
connection. -/
def Spares (batch : List (PolledEvent α)) (s : Server α) : Prop :=
  ∀ s₀ pre e post s', poll batch s = .ok ⟨⟩ s₀ → batch = pre ++ e :: post →
    handleAll pre s₀ = .ok ⟨⟩ s' → ¬ Killed e.fd pre s₀

/-- A reactor dispatches the events of a batch to live connections only, exactly if no callback
ends a connection whose event is still to come, by `destroy` or by calling a handler of it. -/
theorem dispatches_live_iff (h : Sound s) (hb : s.Polls r batch) :
    DispatchesLive batch s ↔ Spares batch s := by
  have hlive : ∀ e ∈ batch, (s.contextes e.fd).isSome := fun e he => by
    obtain ⟨ev, hev⟩ := Option.isSome_iff_exists.1 (hb.registered e he)
    exact (h.only r e.fd ev hev).2
  obtain ⟨s₀, hpoll, hloses⟩ := poll_loses h hlive
  refine forall_congr' fun s₁ => forall_congr' fun pre => forall_congr' fun e => forall_congr' fun post =>
    forall_congr' fun s' => forall_congr' fun hpoll' => forall_congr' fun hbatch =>
    forall_congr' fun hpre => ?_
  rw [hpoll] at hpoll'
  cases hpoll'
  have hmem : e ∈ batch := by
    rw [hbatch]
    exact List.mem_append_right _ List.mem_cons_self
  have hne : ∀ e' ∈ pre, e'.fd ≠ e.fd := by
    have honce := hb.once
    rw [hbatch, List.map_append, List.nodup_append] at honce
    exact fun e' he' => honce.2.2 _ (List.mem_map_of_mem he') _ (List.mem_map_of_mem List.mem_cons_self)
  exact (handleAll_loses (hloses e.fd).sound hne hpre).live
    (((hloses e.fd).live (hlive e hmem)).2 not_false)

end Server

/-- A callback that calls neither `destroy` nor a handler. -/
def Script.Peaceful : Script α → Prop
  | .done => True
  | .call _ c rest => c ≠ .destroy ∧ rest.Peaceful
  | .handleReadableEvent _ _ _ _ | .handleWritableEvent _ _ => False

theorem Script.Peaceful.spares {t : Fd} {script : Script α} {s : Server α} (h : script.Peaceful) :
    ¬ script.Kills t s := by
  induction script generalizing s with
  | done => exact id
  | call fd c rest ih =>
    rintro (⟨_, hc⟩ | ⟨_, s', _, hrest⟩)
    · exact h.1 hc
    · exact ih h.2 hrest
  | handleReadableEvent | handleWritableEvent => exact h.elim

theorem killed_peaceful {t : Fd} {pre : List (PolledEvent α)} {s : Server α}
    (h : ∀ e ∈ pre, e.callback.Peaceful) : ¬ Killed t pre s := by
  induction pre generalizing s with
  | nil => exact id
  | cons e es ih =>
    rintro (⟨_, s₁, _, hkills⟩ | ⟨_, s₁, _, hrest⟩)
    · exact (h e List.mem_cons_self).spares hkills
    · exact ih (fun e' he' => h e' (List.mem_cons_of_mem _ he')) hrest

namespace Server

theorem spares_peaceful {batch : List (PolledEvent α)} {s : Server α}
    (h : ∀ e ∈ batch, e.callback.Peaceful) : Spares batch s := by
  rintro s₀ pre e post s' _ rfl _
  exact killed_peaceful fun e' he' => h e' (List.mem_append_left _ he')

section Pair

/-- Descriptors 5 and 7 are both connections of reactor 1. -/
def sevenAccepted : ServerLabel UInt8 := .accept ⟨7, 1, none, fullOnce, [.setOnRecv true]⟩

/-- One byte has come in on a descriptor. -/
def oneByte (fd : Fd) (callback : Script UInt8) : PolledEvent UInt8 :=
  ⟨fd, epollin, ⟨[⟨[33], List.cons_ne_nil _ _, by decide⟩], .failed .eagain⟩, callback⟩

def pairAccepted : Option (Server UInt8) :=
  ((create 2 true).step fiveAccepted).toOption.bind fun s => (s.step sevenAccepted).toOption

theorem pairAccepted_run {s : Server UInt8} (h : pairAccepted = some s) :
    Run Step (create 2 true) [fiveAccepted, sevenAccepted] s := by
  have hfirst : ((create 2 true).step fiveAccepted).toOption.map (fun s =>
      (s.kernel.fds, (s.contextes 5).map fun c => c.context.ioContext.address)) = some ({5}, some 0) := by
    decide +kernel
  obtain ⟨s₁, h₁, h₂⟩ := Option.bind_eq_some_iff.1 h
  rw [h₁, Option.map_some, Option.some.injEq, Prod.mk.injEq] at hfirst
  obtain ⟨hfds, haddress⟩ := hfirst
  have hrun := fiveAccepted_run h₁
  refine hrun.snoc ⟨⟨by decide, by simp [hfds], fun fd c hc => ?_, by simp [Call.Calm]⟩, ok_of_toOption h₂⟩
  have hfd : fd = 5 := by
    have hopen := ((run_sound hrun).1.keys fd).2 (by rw [hc]; rfl)
    simpa [hfds] using hopen
  subst hfd
  rw [hc, Option.map_some, Option.some.injEq] at haddress
  rw [haddress]
  decide

theorem pairAccepted_polls {s : Server UInt8} (h : pairAccepted = some s) (first second : Script UInt8) :
    s.Polls 1 [oneByte 5 first, oneByte 7 second] := by
  have hboth : pairAccepted.map (fun s => ((s.kernel.interest 1 5).isSome, (s.kernel.interest 1 7).isSome)) =
      some (true, true) := by decide +kernel
  rw [h, Option.map_some, Option.some.injEq, Prod.mk.injEq] at hboth
  refine ⟨by simp [oneByte], fun e he => ?_⟩
  rcases List.mem_pair.1 he with rfl | rfl
  · exact hboth.1
  · exact hboth.2

/-- Two connections of one reactor are ready at once, and each reads what it received. -/
theorem pair_dispatched_live : ∃ s : Server UInt8, Run Step (create 2 true) [fiveAccepted, sevenAccepted] s ∧
    DispatchesLive [oneByte 5 (.call 5 .read .done), oneByte 7 (.call 7 .read .done)] s := by
  have hsome : pairAccepted.isSome := by decide +kernel
  obtain ⟨s, hs⟩ := Option.isSome_iff_exists.1 hsome
  have hrun := pairAccepted_run hs
  refine ⟨s, hrun, (dispatches_live_iff (run_sound hrun).1 (pairAccepted_polls hs _ _)).2 ?_⟩
  exact spares_peaceful fun e he => by
    rcases List.mem_pair.1 he with rfl | rfl <;> simp [oneByte, Script.Peaceful]

/-- The callback of descriptor 5 destroys the connection of descriptor 7, whose event is next. -/
theorem destroyed_before_dispatch :
    ¬ ∀ (ls : List (ServerLabel UInt8)) (s : Server UInt8) (r : Nat) (batch : List (PolledEvent UInt8)),
      Run Step (create 2 true) ls s → s.Polls r batch → DispatchesLive batch s := by
  intro h
  have hends : (pairAccepted.bind fun s => (completed (poll
      [oneByte 5 (.call 7 .destroy .done), oneByte 7 .done] s)).bind fun s₀ =>
        (completed (handleAll [oneByte 5 (.call 7 .destroy .done)] s₀)).map fun s' =>
          (s'.contextes 7).isSome) = some false := by decide +kernel
  obtain ⟨s, hs, hends⟩ := Option.bind_eq_some_iff.1 hends
  obtain ⟨s₀, hpoll, hends⟩ := Option.bind_eq_some_iff.1 hends
  obtain ⟨s', hfirst, hends⟩ := Option.map_eq_some_iff.1 hends
  have hlive := h _ s 1 _ (pairAccepted_run hs) (pairAccepted_polls hs _ _) s₀ [_] _ [] s'
    (completed_eq_some.1 hpoll) rfl (completed_eq_some.1 hfirst)
  change (s'.contextes 7).isSome = true at hlive
  rw [hends] at hlive
  cases hlive

end Pair
end Server
end Netier
