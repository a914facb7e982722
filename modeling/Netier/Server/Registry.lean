import Netier.Server.Server

/-! The registry, the interest sets of the reactors and the open descriptors stay in step. -/
namespace Netier
open Lib
variable {α : Type} {w w' : World α} {r : Nat}

/-- A live connection keeps its place when the kernel's tables change elsewhere. -/
theorem Staged.of_kernel {p : Phase} {c : Conn α} {k k' : Kernel} (h : Staged r p (⟨c, k⟩ : World α))
    (hopen : c.context.socket.fd ∈ k'.fds)
    (hinterest : k'.interest r c.context.socket.fd = k.interest r c.context.socket.fd) :
    Staged r p (⟨c, k'⟩ : World α) :=
  ⟨h.live, h.positive, h.reactor, h.fd, hopen, h.registered, h.events, hinterest.trans h.interest,
    h.readable, h.writable, h.state, h.owned⟩

/-- What the creation of a connection, or the handling of its events, leaves alone. -/
structure Beside (r : Nat) (w w' : World α) : Prop where
  socket : w'.context.socket = w.context.socket
  address : w'.context.ioContext.address = w.context.ioContext.address
  fds : w'.kernel.fds = w.kernel.fds
  others : ∀ ep fd, ¬ (ep = r ∧ fd = w.context.socket.fd) →
    w'.kernel.interest ep fd = w.kernel.interest ep fd

theorem Advanced.beside (h : Advanced r w w') : Beside r w w' := ⟨h.socket, h.address, h.fds, h.others⟩

theorem Untouched.beside (h : Untouched w w') : Beside r w w' :=
  ⟨h.socket, by rw [h.ioContext], h.fds, fun _ _ _ => by rw [h.interest]⟩

theorem Beside.trans {w'' : World α} (h : Beside r w w') (h' : Beside r w' w'') : Beside r w w'' where
  socket := h'.socket.trans h.socket
  address := h'.address.trans h.address
  fds := h'.fds.trans h.fds
  others := fun ep fd hne => by rw [h'.others ep fd (by rwa [h.socket]), h.others ep fd hne]

section Creation
variable [Zero α]

/-- `contextCreator` with a callback whose calls only work fails only as they do. -/
theorem contextCreator_ensures {F : Fault → Prop} (onRecv : Bool) {cs : List (Call α)}
    (h : Staged r .enableRead w)
    (hcs : ∀ c ∈ cs, ∀ w, Healthy w → Ensures F (fun _ => Works w) c.exec w) :
    Ensures F (fun _ w' => Staged r .returned w' ∧ Beside r w w')
      (contextCreator onRecv (runCalls cs)) w := by
  obtain ⟨w₁, h₁, hs₁, ha₁⟩ := h.exec (by decide) onRecv
  obtain ⟨w₂, h₂, hs₂, ha₂⟩ := hs₁.exec (by decide) onRecv
  obtain ⟨w₃, h₃, hs₃, ha₃⟩ := hs₂.exec (by decide) onRecv
  obtain ⟨w₄, h₄, hs₄, ha₄⟩ := hs₃.exec (by decide) onRecv
  obtain ⟨w₅, h₅, hs₅, ha₅⟩ := hs₄.exec (by decide) onRecv
  obtain ⟨w₆, h₆, hs₆, ha₆⟩ := hs₅.exec (by decide) onRecv
  have hbeside : Beside r w w₆ :=
    ((((ha₁.trans ha₂).trans ha₃).trans ha₄).trans ha₅ |>.trans ha₆).beside
  have hhealthy : Healthy w₆ := ⟨hs₆.live, hs₆.state (by decide), hs₆.positive⟩
  have hcalls := runCalls_ensures hhealthy hcs
  have hrest : Ensures F (fun _ w' => Staged r .returned w' ∧ Beside r w w') (do
      runCalls cs
      Phase.exec onRecv .setOnRecv
      Phase.exec onRecv .insert) w₆ := by
    refine hcalls.bind fun _ w₇ hw => ?_
    have hs₇ : Staged r .setOnRecv w₇ := by
      obtain ⟨_, hrun, hs, _⟩ := (hs₆.of_untouched hw.untouched).exec (by decide) onRecv
      cases hrun
      exact hs
    obtain ⟨w₈, h₈, hs₈, ha₈⟩ := hs₇.exec (by decide) onRecv
    obtain ⟨w₉, h₉, hs₉, ha₉⟩ := hs₈.exec (by decide) onRecv
    refine .of_ok ((bind_of_ok h₈).trans h₉) ⟨hs₉, ?_⟩
    exact (hbeside.trans hw.untouched.beside).trans (ha₈.trans ha₉).beside
  refine .of_eq ?_ hrest
  refine (bind_of_ok h₁).trans <| (bind_of_ok h₂).trans <| (bind_of_ok h₃).trans <|
    (bind_of_ok h₄).trans <| (bind_of_ok h₅).trans <| (bind_of_ok h₆).trans ?_
  cases onRecv <;> rfl

end Creation

namespace Server
variable {s s' : Server α}

/-- The keys of the map are the open descriptors, each entry owns the socket of its key, and
the interest sets hold the entries of the map and nothing else. -/
structure InStep (s : Server α) : Prop where
  keys : ∀ fd, fd ∈ s.kernel.fds ↔ (s.contextes fd).isSome
  owner : ∀ fd c, s.contextes fd = some c → c.context.socket.fd = fd
  watched : ∀ fd c, s.contextes fd = some c → s.kernel.interest (s.schedule fd) fd =
    some ⟨epollin ||| epollout ||| epollet, c.context.ioContext.address⟩
  only : ∀ ep fd ev, s.kernel.interest ep fd = some ev → ep = s.schedule fd ∧ (s.contextes fd).isSome
  distinct : ∀ fd fd' c c', s.contextes fd = some c → s.contextes fd' = some c' →
    c.context.ioContext.address = c'.context.ioContext.address → fd = fd'

/-- The server in step, with every connection in the state its creation leaves it in. -/
structure Sound (s : Server α) : Prop extends InStep s where
  staged : ∀ fd c, s.contextes fd = some c →
    Staged (s.schedule fd) .returned (⟨c, s.kernel⟩ : World α)

theorem create_sound (n : Nat) (onRecv : Bool) : Sound (create n onRecv : Server α) := by
  refine ⟨⟨?_, ?_, ?_, ?_, ?_⟩, ?_⟩ <;> simp [create]

theorem put_self (s : Server α) (fd : Fd) (c : Option (Conn α)) (k : Kernel) :
    (s.put fd c k).contextes fd = c := Function.update_self _ _ _

theorem put_other (s : Server α) {fd fd' : Fd} (c : Option (Conn α)) (k : Kernel) (h : fd' ≠ fd) :
    (s.put fd c k).contextes fd' = s.contextes fd' := Function.update_of_ne h _ _

theorem watched_of_staged {fd : Fd} (h : Staged r .returned w) (hfd : w.context.socket.fd = fd) :
    w.kernel.interest r fd =
      some ⟨epollin ||| epollout ||| epollet, w.context.ioContext.address⟩ := by
  rw [← hfd, h.interest]
  rfl

/-- What is new for the connection of a descriptor: it owns the socket, is set up, and has an
`IOContext` of its own. -/
structure Placed (s : Server α) (fd : Fd) (w : World α) : Prop where
  owner : w.context.socket.fd = fd
  staged : Staged (s.schedule fd) .returned w
  distinct : ∀ fd' c, fd' ≠ fd → s.contextes fd' = some c →
    c.context.ioContext.address ≠ w.context.ioContext.address

/-- The map and the kernel change for one descriptor and nowhere else. -/
theorem Sound.put {fd : Fd} {o : Option (Conn α)} {k : Kernel} (h : Sound s)
    (hkey : fd ∈ k.fds ↔ o.isSome) (hfds : ∀ fd', fd' ≠ fd → (fd' ∈ k.fds ↔ fd' ∈ s.kernel.fds))
    (honly : ∀ ep ev, k.interest ep fd = some ev → ep = s.schedule fd ∧ o.isSome)
    (hinterest : ∀ ep fd', fd' ≠ fd → k.interest ep fd' = s.kernel.interest ep fd')
    (hentry : ∀ c, o = some c → Placed s fd (⟨c, k⟩ : World α)) : Sound (s.put fd o k) := by
  have hstaged : ∀ fd' c, (s.put fd o k).contextes fd' = some c →
      c.context.socket.fd = fd' ∧ Staged (s.schedule fd') .returned (⟨c, k⟩ : World α) := by
    intro fd' c hc
    by_cases hne : fd' = fd
    · subst hne
      rw [put_self] at hc
      exact ⟨(hentry c hc).owner, (hentry c hc).staged⟩
    · rw [put_other _ _ _ hne] at hc
      have hfd := h.owner fd' c hc
      have hopen : fd' ∈ s.kernel.fds := (h.keys fd').2 (by rw [hc]; rfl)
      refine ⟨hfd, (h.staged fd' c hc).of_kernel ?_ ?_⟩
      · rw [hfd]
        exact (hfds fd' hne).2 hopen
      · rw [hfd]
        exact hinterest _ fd' hne
  have hdistinct : ∀ fd' c c', fd' ≠ fd → o = some c → s.contextes fd' = some c' →
      c'.context.ioContext.address ≠ c.context.ioContext.address :=
    fun fd' c c' hne hc hc' => (hentry c hc).distinct fd' c' hne hc'
  refine ⟨⟨fun fd' => ?_, fun fd' c hc => (hstaged fd' c hc).1, fun fd' c hc => ?_,
    fun ep fd' ev hev => ?_, fun fd₁ fd₂ c₁ c₂ h₁ h₂ heq => ?_⟩, fun fd' c hc => (hstaged fd' c hc).2⟩
  · by_cases hne : fd' = fd
    · rw [hne, put_self]
      exact hkey
    · rw [put_other _ _ _ hne]
      exact (hfds fd' hne).trans (h.keys fd')
  · exact watched_of_staged (hstaged fd' c hc).2 (hstaged fd' c hc).1
  · have hev : k.interest ep fd' = some ev := hev
    by_cases hne : fd' = fd
    · subst hne
      rw [put_self]
      exact honly ep ev hev
    · rw [hinterest ep fd' hne] at hev
      rw [put_other _ _ _ hne]
      exact h.only ep fd' ev hev
  · by_cases hne₁ : fd₁ = fd <;> by_cases hne₂ : fd₂ = fd
    · rw [hne₁, hne₂]
    · rw [hne₁, put_self] at h₁
      rw [put_other _ _ _ hne₂] at h₂
      exact absurd heq.symm (hdistinct fd₂ c₁ c₂ hne₂ h₁ h₂)
    · rw [put_other _ _ _ hne₁] at h₁
      rw [hne₂, put_self] at h₂
      exact absurd heq (hdistinct fd₁ c₂ c₁ hne₁ h₂ h₁)
    · rw [put_other _ _ _ hne₁] at h₁
      rw [put_other _ _ _ hne₂] at h₂
      exact h.distinct fd₁ fd₂ c₁ c₂ h₁ h₂ heq

/-- A connection comes, or changes and stays. -/
theorem Sound.keep {fd : Fd} (h : Sound s) (he : Placed s fd w)
    (hfds : w.kernel.fds = insert fd s.kernel.fds)
    (hothers : ∀ ep fd', ¬ (ep = s.schedule fd ∧ fd' = fd) →
      w.kernel.interest ep fd' = s.kernel.interest ep fd') :
    Sound (s.put fd (some w.toConn) w.kernel) := by
  refine h.put (by simp [hfds]) (fun fd' hne => by simp [hfds, hne]) (fun ep ev hev => ⟨?_, rfl⟩)
    (fun ep fd' hne => hothers ep fd' fun hc => hne hc.2) fun c hc => ?_
  · by_contra hep
    rw [hothers ep fd fun hc => hep hc.1] at hev
    exact hep (h.only ep fd ev hev).1
  · cases hc
    exact he

/-- A connection goes. -/
theorem Sound.remove {fd : Fd} {k : Kernel} (h : Sound s) (hfds : k.fds = s.kernel.fds.erase fd)
    (hnone : ∀ ep, k.interest ep fd = none)
    (hothers : ∀ ep fd', fd' ≠ fd → k.interest ep fd' = s.kernel.interest ep fd') :
    Sound (s.put fd none k) := by
  refine h.put (by simp [hfds]) (fun fd' hne => by simp [hfds, hne]) (fun ep ev hev => ?_) hothers
    fun c hc => ?_
  · rw [hnone ep] at hev
    cases hev
  · cases hc

/-- An operation on a live connection that leaves it in the map. -/
theorem Sound.stays {fd : Fd} {c : Conn α} (h : Sound s) (hc : s.contextes fd = some c)
    (hbeside : Beside (s.schedule fd) ⟨c, s.kernel⟩ w) (hstaged : Staged (s.schedule fd) .returned w) :
    Sound (s.put fd (some w.toConn) w.kernel) := by
  have hfd := h.owner fd c hc
  have hopen : fd ∈ s.kernel.fds := (h.keys fd).2 (by rw [hc]; rfl)
  have hsocket : w.context.socket.fd = fd := (congrArg Socket.fd hbeside.socket).trans hfd
  refine h.keep ⟨hsocket, hstaged, fun fd' c' hne hc' heq => ?_⟩ ?_ fun ep fd' hne => ?_
  · rw [hbeside.address] at heq
    exact hne (h.distinct fd' fd c' c hc' hc heq)
  · rw [hbeside.fds]
    exact (Finset.insert_eq_self.2 hopen).symm
  · refine hbeside.others ep fd' ?_
    rwa [hfd]

/-- An operation on a live connection that takes it out of the map. -/
theorem Sound.goes {fd : Fd} {c : Conn α} (h : Sound s) (hc : s.contextes fd = some c)
    (hg : Gone ⟨c, s.kernel⟩ w) : Sound (s.put fd none w.kernel) := by
  have hfd := h.owner fd c hc
  refine h.remove ?_ (fun ep => ?_) fun ep fd' hne => ?_
  · rw [hg.fds, hfd]
  · rw [← hfd]
    exact hg.interest ep
  · refine hg.others ep fd' ?_
    rwa [hfd]

variable [Zero α]

/-- A step that ends leaves the server in step, and one that does not ran out of stack. -/
def StaysSound (x : Except Fault (Server α)) : Prop :=
  match x with
  | .ok s => Sound s
  | .error e => e = .stackOverflow

/-- An accepted connection joins the map, or its `onConn` callback has failed. -/
theorem accept_cases {F : Fault → Prop} {a : Acceptance α} (h : Sound s) (ha : s.Admits (.accept a))
    (hcs : ∀ c ∈ a.onConn, ∀ w, Healthy w → Ensures F (fun _ => Works w) c.exec w) :
    (∃ e, s.accept a = .error e ∧ F e) ∨
    ∃ w, s.accept a = .ok (s.put a.fd (some w.toConn) w.kernel) ∧
      Staged (s.schedule a.fd) .returned w ∧
      Beside (s.schedule a.fd) (⟨Conn.create a.address (s.schedule a.fd) a.fd a.state a.answers,
        s.kernel.accept a.fd⟩ : World α) w ∧
      contextCreator s.onRecv (runCalls a.onConn) ⟨Conn.create a.address (s.schedule a.fd) a.fd a.state
        a.answers, s.kernel.accept a.fd⟩ = .ok ⟨⟩ w := by
  obtain ⟨hpos, hclosed, _, _⟩ := ha
  have hfree : s.contextes a.fd = none := by
    rw [← Option.not_isSome_iff_eq_none, ← h.keys]
    exact hclosed
  have hnone : (s.kernel.accept a.fd).interest (s.schedule a.fd) a.fd = none := by
    rw [Option.eq_none_iff_forall_not_mem]
    intro ev hev
    have hsome := (h.only _ _ ev hev).2
    rw [hfree] at hsome
    cases hsome
  have hstart : Staged (s.schedule a.fd) .enableRead
      (⟨Conn.create a.address (s.schedule a.fd) a.fd a.state a.answers, s.kernel.accept a.fd⟩ : World α) :=
    (Conn.create_allocated hpos (Finset.mem_insert_self a.fd s.kernel.fds) hnone).toStaged
  have hend := contextCreator_ensures s.onRecv hstart hcs
  unfold Server.accept
  cases hrun : contextCreator s.onRecv (runCalls a.onConn)
      ⟨Conn.create a.address (s.schedule a.fd) a.fd a.state a.answers, s.kernel.accept a.fd⟩ with
  | error e w => exact .inl ⟨e, by simp only [hrun], hend.fault hrun⟩
  | ok u w =>
    obtain ⟨hstaged, hbeside⟩ := hend.ok hrun
    exact .inr ⟨w, by simp only [hrun, hfree], hstaged, hbeside, rfl⟩

/-- The event of a live connection leaves it in the map or takes it out, unless the callback
has failed. -/
theorem event_cases {F : Fault → Prop} {fd : Fd} {c : Conn α} {mask : Mask} {burst : Burst α}
    {callback : List (Call α)} (h : Sound s) (hc : s.contextes fd = some c)
    (hcalms : (mask &&& epollin) ≠ 0 → Reaches (⟨c, s.kernel⟩ : World α) burst →
      Calms F (runCalls callback)) :
    (∃ e, s.event fd mask burst callback = .error e ∧ F e) ∨
    ∃ w, loopEntry mask burst (runCalls callback) ⟨c, s.kernel⟩ = .ok ⟨⟩ w ∧
      (s.event fd mask burst callback = .ok (s.put fd (some w.toConn) w.kernel) ∧
          Works ((⟨c, s.kernel⟩ : World α).polled mask) w ∨
        s.event fd mask burst callback = .ok (s.put fd none w.kernel) ∧
          Gone ((⟨c, s.kernel⟩ : World α).polled mask) w) := by
  have hstaged := h.staged fd c hc
  have hend := loopEntry_ensures (runCalls_body _) hstaged.attached hstaged.bound mask burst hcalms
  unfold Server.event
  cases hrun : loopEntry mask burst (runCalls callback) ⟨c, s.kernel⟩ with
  | error e w => exact .inl ⟨e, by simp only [hc, hrun], hend.fault hrun⟩
  | ok u w =>
    refine .inr ⟨w, rfl, ?_⟩
    simp only [hc, hrun]
    cases hend.ok hrun with
    | stays hw _ _ =>
      rw [((hstaged.polled mask).of_untouched hw.untouched).live]
      exact .inl ⟨rfl, hw⟩
    | goes hg _ _ =>
      have hsocket : w.context.socket.fd = fd := (congrArg Socket.fd hg.socket).trans (h.owner fd c hc)
      rw [hg.freed, if_pos rfl, hsocket]
      exact .inr ⟨rfl, hg⟩

theorem Sound.accept {a : Acceptance α} (h : Sound s) (ha : s.Admits (.accept a)) :
    StaysSound (s.accept a) := by
  have hcalm := ha.2.2.2
  rcases accept_cases h ha fun c hc _ hw => c.calm_ensures (hcalm c hc) hw with
    ⟨e, hrun, he⟩ | ⟨w, hrun, hstaged, hbeside, _⟩
  · rw [hrun]
    exact he
  · rw [hrun]
    refine h.keep ⟨congrArg Socket.fd hbeside.socket, hstaged, fun fd c _ hc => ?_⟩ hbeside.fds
      hbeside.others
    rw [hbeside.address]
    exact ha.2.2.1 fd c hc

theorem Sound.event {fd : Fd} {mask : Mask} {burst : Burst α} {callback : List (Call α)} (h : Sound s)
    (ha : s.Admits (.event fd mask burst callback)) : StaysSound (s.event fd mask burst callback) := by
  obtain ⟨hsome, hcalm⟩ := ha
  obtain ⟨c, hc⟩ := Option.isSome_iff_exists.1 hsome
  have hstaged := h.staged fd c hc
  have hcalms := calms_of_works fun c hc _ hw => Call.calm_ensures c (hcalm c hc) hw
  rcases event_cases h hc fun _ _ => hcalms with
    ⟨e, hrun, he⟩ | ⟨w, _, ⟨hrun, hw⟩ | ⟨hrun, hg⟩⟩
  · rw [hrun]
    exact he
  · rw [hrun]
    have hbeside := hw.untouched.beside (r := s.schedule fd)
    exact h.stays hc ⟨hbeside.socket, hbeside.address, hbeside.fds, hbeside.others⟩
      ((hstaged.polled mask).of_untouched hw.untouched)
  · rw [hrun]
    exact h.goes hc ⟨hg.socket, hg.freed, hg.inserted, hg.fds, hg.interest, hg.others⟩

theorem step_reactors {l : ServerLabel α} (h : s.step l = .ok s') : s'.reactors = s.reactors := by
  cases l with
  | accept a =>
    simp only [Server.step, Server.accept] at h
    split at h
    · cases h
    · split at h
      · cases h
        rfl
      · split at h
        · cases h
        · cases h
          rfl
  | event fd mask burst callback =>
    simp only [Server.step, Server.event] at h
    split at h
    · cases h
      rfl
    · split at h
      · cases h
      · split at h
        · cases h
          rfl
        · cases h
          rfl

theorem Sound.step {l : ServerLabel α} (h : Sound s) (ha : s.Admits l) : StaysSound (s.step l) := by
  cases l with
  | accept a => exact h.accept ha
  | event fd mask burst callback => exact h.event ha

omit [Zero α] in
theorem schedule_lt (s : Server α) (hn : 0 < s.reactors) (fd : Fd) : s.schedule fd < s.reactors := by
  have hlt := Int.emod_lt_of_pos fd (Int.natCast_pos.2 hn)
  have hnonneg := Int.emod_nonneg fd (Int.natCast_pos.2 hn).ne'
  unfold schedule
  omega

theorem run_sound {n : Nat} {onRecv : Bool} {ls : List (ServerLabel α)}
    (h : Run Step (create n onRecv) ls s) : Sound s ∧ s.reactors = n := by
  refine h.invariant (I := fun s => Sound s ∧ s.reactors = n) ⟨create_sound n onRecv, rfl⟩
    fun a l b ⟨ha, hreactors⟩ ⟨hadm, hstep⟩ => ?_
  have hsound := ha.step hadm
  rw [hstep] at hsound
  exact ⟨hsound, (step_reactors hstep).trans hreactors⟩

/-- In every run of a server the registry is in step with the kernel after every step; and
the next step, whatever it is, can only end the process by exhausting the stack, never
because a change of an interest set failed. -/
theorem registry_in_step {n : Nat} {onRecv : Bool} {ls : List (ServerLabel α)} (hn : 0 < n)
    (h : Run Step (create n onRecv) ls s) :
    s.InStep ∧ (∀ fd, s.schedule fd = (fd % n).toNat ∧ s.schedule fd < n) ∧
      ∀ l e, s.Admits l → s.step l = .error e → e = .stackOverflow := by
  obtain ⟨hsound, rfl⟩ := run_sound h
  refine ⟨hsound.toInStep, fun fd => ⟨rfl, s.schedule_lt hn fd⟩, fun l e hadm he => ?_⟩
  have hfault := hsound.step hadm
  rwa [he] at hfault

/-- Descriptor 5 is accepted, and then its peer closes it. -/
def fiveAccepted : ServerLabel UInt8 := .accept ⟨5, 0, none, fullOnce, [.setOnRecv true]⟩
def fiveClosed : ServerLabel UInt8 := .event 5 epollin ⟨[], .eof⟩ [.read]

theorem fiveAccepted_run {s : Server UInt8}
    (h : ((create 2 true).step fiveAccepted).toOption = some s) : Run Step (create 2 true) [fiveAccepted] s := by
  have hadm : (create 2 true : Server UInt8).Admits fiveAccepted :=
    ⟨by decide, by simp [create], by simp [create], by simp [Call.Calm]⟩
  exact .single ⟨hadm, ok_of_toOption h⟩

theorem five_reused : ∃ s : Server UInt8, Run Step (create 2 true) [fiveAccepted, fiveClosed] s ∧
    s.InStep ∧ s.Admits fiveAccepted ∧ ∀ e, s.step fiveAccepted = .error e → e = .stackOverflow := by
  have hopens : ((create 2 true).step fiveAccepted).toOption.map (fun s => (s.contextes 5).isSome) =
      some true := by decide +kernel
  have hcloses : (((create 2 true).step fiveAccepted).toOption.bind fun s =>
      (s.step fiveClosed).toOption.map fun s => s.kernel.fds) = some ∅ := by decide +kernel
  obtain ⟨s₁, h₁, hsome⟩ := Option.map_eq_some_iff.1 hopens
  rw [h₁] at hcloses
  obtain ⟨s₂, h₂, hfds⟩ := Option.map_eq_some_iff.1 hcloses
  have hrun : Run Step (create 2 true) [fiveAccepted, fiveClosed] s₂ :=
    (fiveAccepted_run h₁).snoc ⟨⟨hsome, by simp [Call.Calm]⟩, ok_of_toOption h₂⟩
  obtain ⟨hin, _, hnext⟩ := registry_in_step (by decide) hrun
  have hnone : ∀ fd c, s₂.contextes fd ≠ some c := by
    intro fd c hc
    have hmem : fd ∈ s₂.kernel.fds := (hin.keys fd).2 (by rw [hc]; rfl)
    simp [hfds] at hmem
  have hagain : s₂.Admits fiveAccepted :=
    ⟨by decide, by simp [hfds], fun fd c hc => absurd hc (hnone fd c), by simp [Call.Calm]⟩
  exact ⟨s₂, hrun, hin, hagain, fun e => hnext _ e hagain⟩

end Server
end Netier
