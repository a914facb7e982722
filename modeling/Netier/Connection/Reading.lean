import Netier.Connection.Handlers
import Netier.Connection.Record

/-! What the application is shown of the bytes that `read(2)` returned. -/
namespace Netier
open Lib
variable {α : Type} {w w' w'' w₀ : World α}

/-- The bytes `read(2)` has returned since `w₀`. -/
def World.readSince (w w₀ : World α) : List α := w.wire.delivered.drop w₀.wire.delivered.length

/-- Some invocation of `onRecv` after `w₀`, before any call of the destroyer, found what
had been offered at `w₀` and the first `k` bytes read since. -/
def Shown (w₀ w : World α) (k : Nat) : Prop :=
  ∃ newer c older, w.history =
      newer ++ ⟨.onRecv (w₀.seen ++ (w.readSince w₀).take k), c⟩ :: (older ++ w₀.history) ∧
    ∀ m ∈ older, m.event ≠ .destroyer

/-- Every byte read since `w₀` was there during an invocation of `onRecv`. -/
def Handed (w₀ w : World α) : Prop := ∀ i < (w.readSince w₀).length, ∃ k, i < k ∧ Shown w₀ w k

/-- Nothing is read or shown, whatever else is recorded. -/
structure Settles (w w' : World α) : Prop where
  seen : w'.seen = w.seen
  delivered : w'.wire.delivered = w.wire.delivered
  grew : Grew (fun e => ∀ s, e ≠ .onRecv s) w w'

namespace Settles

theorem refl (w : World α) : Settles w w := ⟨rfl, rfl, .refl w⟩

theorem trans (h : Settles w w') (h' : Settles w' w'') : Settles w w'' :=
  ⟨h'.seen.trans h.seen, h'.delivered.trans h.delivered, h.grew.trans h'.grew⟩

theorem of_effect {β : Type} {x : Exec α β} (hx : Effect Settles x w) : Settles w (final (x w)) :=
  hx.keeps (I := Settles w) (fun _ _ h hs => h.trans hs) (refl w)

end Settles

theorem call_event_ne {a : Act α} {e : Event α} (ha : a.IsCall) (he : a.event w = some e) :
    ∀ s, e ≠ .onRecv s := by
  rintro s rfl
  rcases call_event ha he with hw | hd
  · exact hw
  · cases hd

theorem Steps.settles (h : Steps Act.IsCall w w') : Settles w w' := by
  have hgrew := h.grew fun _ _ _ => call_event_ne
  obtain ⟨a, ha, he, hn⟩ := h
  rcases ha with hq | ht | ⟨_, rfl⟩
  · have hk := Steps.kept ⟨a, hq, he, hn⟩
    exact ⟨hk.seen, hk.delivered, hgrew⟩
  · subst hn
    cases a with
    | destroyer | deregister | release => exact ⟨rfl, rfl, hgrew⟩
    | _ => exact ht.elim
  · subst hn
    exact ⟨rfl, rfl, hgrew⟩

theorem settles_of_effect {β : Type} {x : Exec α β} (hx : Effect (Steps Act.IsCall) x w) :
    Effect Settles x w :=
  hx.mono fun _ _ hs => hs.settles

theorem log_settles {e : Event α} (h : ∀ s, e ≠ .onRecv s) : Effect Settles (log e) w :=
  .single ⟨rfl, rfl, Grew.log h⟩

theorem handleWritableEvent_settles : Effect Settles (handleWritableEvent (α := α)) w := by
  apply Effect.bind (log_settles fun _ => by simp)
  intro _ _ _
  apply Effect.bind (settles_of_effect handleWritableBody_effect)
  intro _ _ _
  apply Effect.bind (log_settles fun _ => by simp)
  intro _ _ _
  exact Effect.pure _

theorem Shown.extend {k : Nat} (h : Shown w₀ w k) (hd : w'.wire.delivered = w.wire.delivered)
    (hg : Grew (fun _ => True) w w') : Shown w₀ w' k := by
  obtain ⟨newer, c, older, hh, hno⟩ := h
  obtain ⟨log, hlog, _⟩ := hg
  refine ⟨log ++ newer, c, older, ?_, hno⟩
  have hsince : w'.readSince w₀ = w.readSince w₀ := by rw [World.readSince, hd, World.readSince]
  rw [hlog, hh, hsince, List.append_assoc]

/-- The last bytes read were shown, and with them all before. -/
def Current (w₀ w : World α) : Prop :=
  w.readSince w₀ = [] ∨ Shown w₀ w (w.readSince w₀).length

theorem Current.handed (h : Current w₀ w) : Handed w₀ w := by
  intro i hi
  rcases h with h | h
  · simp [h] at hi
  · exact ⟨_, hi, h⟩

theorem Current.extend (h : Current w₀ w) (hd : w'.wire.delivered = w.wire.delivered)
    (hg : Grew (fun _ => True) w w') : Current w₀ w' := by
  have hsince : w'.readSince w₀ = w.readSince w₀ := by rw [World.readSince, hd, World.readSince]
  refine h.imp (fun h => hsince.trans h) fun h => ?_
  rw [hsince]
  exact h.extend hd hg

/-- Since `w₀` the callback was shown no more than has been offered so far. -/
def Offered (w₀ w : World α) : Prop :=
  ∃ log, w.history = log ++ w₀.history ∧
    ∀ m ∈ log, ∀ s, m.event = .onRecv s → s.length ≤ w.seen.length

theorem Offered.silent (h : Offered w₀ w) (hg : Grew (fun e => ∀ s, e ≠ .onRecv s) w w')
    (hle : w.seen.length ≤ w'.seen.length) : Offered w₀ w' := by
  obtain ⟨log, hlog, hlen⟩ := h
  obtain ⟨log', hlog', hno⟩ := hg
  refine ⟨log' ++ log, by rw [hlog', hlog, List.append_assoc], fun m hm s hs => ?_⟩
  rcases List.mem_append.1 hm with hm | hm
  · exact absurd hs (hno m hm s)
  · exact (hlen m hm s hs).trans hle

theorem Offered.invoke (h : Offered w₀ w) : Offered w₀ w.invoke := by
  obtain ⟨log, hlog, hlen⟩ := h
  refine ⟨⟨.onRecv w.seen, w.context⟩ :: log, ?_, fun m hm s hs => ?_⟩
  · rw [List.cons_append, ← hlog]
    rfl
  · rcases List.mem_cons.1 hm with rfl | hm
    · cases hs
      exact le_rfl
    · exact hlen m hm s hs

/-- The callback is shown all that was read since `w₀`, the destroyer not having been called. -/
theorem Shown.of_invoke {log : List (Moment α)} (hlog : w.history = log ++ w₀.history)
    (hseen : w.seen = w₀.seen ++ w.readSince w₀) (hcalls : w.destroyerCalls = w₀.destroyerCalls) :
    Shown w₀ w.invoke (w.invoke.readSince w₀).length := by
  have hclean : ∀ m ∈ log, m.event ≠ .destroyer := by
    intro m hm hd
    rw [World.destroyerCalls, World.destroyerCalls, hlog, List.countP_append] at hcalls
    have hzero : log.countP (fun m => m.event.isDestroyer) = 0 := by omega
    have hm' := List.countP_eq_zero.1 hzero m hm
    simp [hd, Event.isDestroyer] at hm'
  have hsince : w.invoke.readSince w₀ = w.readSince w₀ := rfl
  refine ⟨[], w.context, log, ?_, hclean⟩
  rw [List.take_length, hsince, ← hseen, ← hlog]
  rfl

/-- Some byte read since `w₀` was offered to no invocation of `onRecv` up to a call of the
destroyer. -/
def Lost (w₀ w : World α) : Prop :=
  ∃ i < (w.readSince w₀).length, ∃ newer log, w.history = newer ++ (log ++ w₀.history) ∧
    w₀.destroyerCalls < (log ++ w₀.history).countP (fun m => m.event.isDestroyer) ∧
      ∀ m ∈ log, ∀ s, m.event = .onRecv s → s.length ≤ w₀.seen.length + i

theorem Lost.extend (h : Lost w₀ w) (hle : (w.readSince w₀).length ≤ (w'.readSince w₀).length)
    (hg : Grew (fun _ => True) w w') : Lost w₀ w' := by
  obtain ⟨i, hi, newer, log, hh, hfacts⟩ := h
  obtain ⟨log', hlog', _⟩ := hg
  refine ⟨i, Nat.lt_of_lt_of_le hi hle, log' ++ newer, log, ?_, hfacts⟩
  rw [hlog', hh, List.append_assoc]

/-- An invocation that shows such a byte comes after the destroyer. -/
theorem Lost.not_handed (h : Lost w₀ w) : ¬ Handed w₀ w := by
  obtain ⟨i, hi, newer, log, hh, hcalls, hlen⟩ := h
  intro hall
  obtain ⟨k, hk, newer', c, older, hh', hclean⟩ := hall i hi
  have hno : ⟨.onRecv (w₀.seen ++ (w.readSince w₀).take k), c⟩ ∉ log := by
    intro hm
    have hshort := hlen _ hm _ rfl
    rw [List.length_append, List.length_take] at hshort
    omega
  rw [hh, ← List.append_assoc, ← List.cons_append, ← List.append_assoc,
    List.append_left_inj] at hh'
  obtain ⟨past, hpast⟩ : ∃ past, older = past ++ log := by
    rcases List.append_eq_append_iff.1 hh' with ⟨rest, _, hlog⟩ | ⟨rest, _, hrest⟩
    · exact absurd (hlog ▸ List.mem_append_right _ List.mem_cons_self) hno
    · cases rest with
      | nil => exact absurd (by rw [← show _ :: older = log from hrest]; exact List.mem_cons_self) hno
      | cons m past => exact ⟨past, (List.cons.inj hrest).2⟩
  have hzero : log.countP (fun m => m.event.isDestroyer) = 0 := by
    refine List.countP_eq_zero.2 fun m hm hd => hclean m ?_ ?_
    · rw [hpast]
      exact List.mem_append_right _ hm
    · cases he : m.event <;> simp_all [Event.isDestroyer]
  rw [List.countP_append, hzero, World.destroyerCalls] at hcalls
  omega

/-- Nothing is read or shown, the connection keeps its socket, and its callback if it has one. -/
structure Rests (w w' : World α) : Prop extends Settles w w' where
  socket : w'.context.socket = w.context.socket
  onRecv : w.context.onRecv = true → w'.context.onRecv = true

namespace Rests

theorem refl (w : World α) : Rests w w := ⟨.refl w, rfl, id⟩

theorem trans (h : Rests w w') (h' : Rests w' w'') : Rests w w'' :=
  ⟨h.toSettles.trans h'.toSettles, h'.socket.trans h.socket, h'.onRecv ∘ h.onRecv⟩

theorem of_effect {β : Type} {x : Exec α β} (hx : Effect Rests x w) : Rests w (final (x w)) :=
  hx.keeps (I := Rests w) (fun _ _ h hs => h.trans hs) (refl w)

end Rests

/-- What a call does that leaves the callback installed. -/
def Act.Heeds (a : Act α) : Prop := a.IsCall ∧ a ≠ .setOnRecv false

theorem Act.IsTeardown.heeds {a : Act α} (h : a.IsTeardown) : a.Heeds := by
  refine ⟨h.call, ?_⟩
  rintro rfl
  exact h

theorem Act.IsQuiet.heeds {a : Act α} (h : a.IsQuiet) : a.Heeds := by
  refine ⟨.inl h, ?_⟩
  rintro rfl
  exact h

theorem Steps.rests (h : Steps Act.Heeds w w') : Rests w w' := by
  have hset := (h.mono fun _ ha => ha.1).settles
  obtain ⟨a, ⟨ha, hne⟩, he, rfl⟩ := h
  cases a with
  | setOnRecv installed =>
    cases installed with
    | true => exact ⟨hset, rfl, fun _ => rfl⟩
    | false => exact absurd rfl hne
  | write buf => exact ⟨hset, by simp [World.next], by simp [World.next]⟩
  | read writer answer => cases answer <;> exact ⟨hset, rfl, id⟩
  | _ => exact ⟨hset, rfl, id⟩

theorem rests_of_effect {β : Type} {x : Exec α β} (hx : Effect (Steps Act.Heeds) x w) :
    Effect Rests x w :=
  hx.mono fun _ _ hs => hs.rests

theorem log_rests {e : Event α} (h : ∀ s, e ≠ .onRecv s) : Effect Rests (log e) w :=
  .single ⟨⟨rfl, rfl, Grew.log h⟩, rfl, id⟩

theorem stateCleanup_shut {s : State} (hlive : w.freed = false) (hpos : 0 < w.context.socket.fd)
    (hs : w.context.state = some s) (hv : s ≠ .valid) (hm : s ≠ .moved) :
    w.destroyerCalls < (final (stateCleanup w)).destroyerCalls := by
  have hshut : s = .closed ∨ s = .invalid := by
    cases s with
    | valid => exact absurd rfl hv
    | moved => exact absurd rfl hm
    | closed => exact .inl rfl
    | invalid => exact .inr rfl
  rw [stateCleanup, bind_of_ok (readState_run hlive hs), if_pos hshut, final_bind_pure, destroy,
    bind_of_ok (requireNotMoved_run hlive hs hm), bind_of_ok (getFd_run hlive hpos)]
  exact contextDestroyer_calls hlive

theorem stateCleanup_rests : Effect Rests (stateCleanup (α := α)) w :=
  rests_of_effect (effect_mono (fun _ => Act.IsTeardown.heeds) stateCleanup_effect)

theorem Received.seen {data : List α} {s : State} (h : Received w w' data s) :
    w'.seen = w.seen ++ data := by
  simp [World.seen, h.taken, h.context]

/-- A connection of which `data` has been read since `w₀`. -/
structure Between (w₀ w : World α) (data : List α) : Prop where
  positive : 0 < w.context.socket.fd
  onRecv : w.context.onRecv = true
  delivered : w.wire.delivered = w₀.wire.delivered ++ data
  seen : w.seen = w₀.seen ++ data
  offered : Offered w₀ w

theorem calls_le_of_history {log : List (Moment α)} (h : w.history = log ++ w₀.history) :
    w₀.destroyerCalls ≤ w.destroyerCalls :=
  Grew.calls_le (P := fun _ => True) ⟨log, h, fun _ _ => trivial⟩

namespace Between
variable {data : List α}

theorem readSince (h : Between w₀ w data) : w.readSince w₀ = data := by
  simp [World.readSince, h.delivered]

theorem start (hpos : 0 < w.context.socket.fd) (hr : w.context.onRecv = true) : Between w w [] :=
  ⟨hpos, hr, (List.append_nil _).symm, (List.append_nil _).symm, ⟨[], rfl, by simp⟩⟩

theorem rest (h : Between w₀ w data) (hr : Rests w w') : Between w₀ w' data where
  positive := by rw [hr.socket]; exact h.positive
  onRecv := hr.onRecv h.onRecv
  delivered := hr.delivered.trans h.delivered
  seen := hr.seen.trans h.seen
  offered := h.offered.silent hr.grew (congrArg List.length hr.seen).ge

theorem invoke (h : Between w₀ w data) : Between w₀ w.invoke data :=
  ⟨h.positive, h.onRecv, h.delivered, h.seen, h.offered.invoke⟩

end Between

/-- One readable event: what `read(2)` answers and the calls the callback makes. -/
structure ReadEvent (α : Type) where
  burst : Burst α
  callback : List (Call α)

theorem Burst.bytes_eq_nil {b : Burst α} : b.bytes = [] ↔ b.blocks = [] := by
  rw [Burst.bytes, List.flatMap_eq_nil_iff]
  constructor
  · intro h
    rw [List.eq_nil_iff_forall_not_mem]
    exact fun blk hblk => blk.nonempty (h blk hblk)
  · intro h
    simp [h]

namespace ReadEvent

/-- Handled in `w`, the event reads bytes and either ends the connection with them, or comes
after the destroyer has been called on a connection that it did not free. -/
def Cut (w₀ w : World α) (e : ReadEvent α) : Prop :=
  Open w ∧ e.burst.blocks ≠ [] ∧
    (e.burst.last.state ≠ .valid ∨ w.destroyerCalls ≠ w₀.destroyerCalls)

variable [Zero α]

def handle (e : ReadEvent α) : Exec α Int :=
  handleReadableEvent e.burst (runCalls e.callback)

end ReadEvent

/-- The handler's return, put on record. -/
def report (x : Exec α Int) : Exec α Int := do
  let ret ← x
  log (.returned .readable ret)
  pure ret

namespace ReadEvent
variable [Zero α]

/-- The handler from the invocation of the callback on. -/
def respond (e : ReadEvent α) : Exec α Int := do
  runCalls e.callback
  stateCleanup

/-- The handler from the end of the read loop on. -/
def afterLoop (e : ReadEvent α) : Exec α Int := do
  let ret ← stateCleanup
  if ret < 0 then pure ret
  else
    runOnRecv (runCalls e.callback)
    stateCleanup

theorem respond_settles (e : ReadEvent α) : Settles w (final (report e.respond w)) := by
  apply Settles.of_effect
  apply Effect.bind
  · apply Effect.bind (settles_of_effect (runCalls_effect _))
    intro _ _ _
    exact settles_of_effect (effect_mono (fun _ => Act.IsTeardown.call) stateCleanup_effect)
  · intro ret _ _
    apply Effect.bind (log_settles fun _ => by simp)
    intro _ _ _
    exact Effect.pure _

theorem respond_rests (e : ReadEvent α) (hk : ∀ c ∈ e.callback, c.Keeps) :
    Rests w (final (report e.respond w)) := by
  have hcalls : ∀ {w}, Effect (Steps Act.Heeds) (runCalls e.callback) w := by
    refine runCalls_steps _ (fun _ => Act.IsQuiet.heeds) (fun _ => Act.IsTeardown.heeds) ?_
    rintro _ hc installed rfl
    have hinstalled : installed = true := hk _ hc
    exact ⟨.inr (.inr ⟨_, rfl⟩), by simp [hinstalled]⟩
  apply Rests.of_effect
  apply Effect.bind
  · apply Effect.bind (rests_of_effect hcalls)
    intro _ _ _
    exact stateCleanup_rests
  · intro ret _ _
    apply Effect.bind (log_rests fun _ => by simp)
    intro _ _ _
    exact Effect.pure _

theorem handle_grew (e : ReadEvent α) : Grew (fun _ => True) w (final (e.handle w)) :=
  grew_of_effect (fun _ _ _ _ _ => trivial) (handleReadableEvent_effect e.burst (runCalls_body _))

/-- The handler up to the end of the read loop. -/
theorem handle_reads (e : ReadEvent α) (hopen : Open w) (hpos : 0 < w.context.socket.fd) :
    ∃ w₁, Received (w.log (.entered .readable)) w₁ e.burst.bytes e.burst.last.state ∧
      Works (w.log (.entered .readable)) w₁ ∧ Grew Event.IsWork (w.log (.entered .readable)) w₁ ∧
      e.handle w = report e.afterLoop w₁ := by
  have ho : Open (w.log (.entered .readable)) := ⟨hopen.live, hopen.valid⟩
  obtain ⟨w₁, hloop, hrec⟩ := readLoop_run e.burst.blocks e.burst.last ho
  have heffect := readLoop_effect e.burst.blocks e.burst.last ho
  have hgrew := grew_of_effect (fun _ _ _ => input_event) heffect
  rw [hloop] at hgrew
  refine ⟨w₁, hrec, readLoop_works ho hloop, hgrew, ?_⟩
  have hbody : handleReadableBody e.burst (runCalls e.callback) (w.log (.entered .readable)) =
      e.afterLoop w₁ := by
    rw [handleReadableBody, bind_of_ok (requireNotMoved_run ho.live ho.valid (by decide)),
      bind_of_ok (stateCleanup_valid ho), if_neg (by decide),
      bind_of_ok (getFd_run ho.live hpos), bind_of_ok hloop, afterLoop]
  rw [handle, handleReadableEvent, recorded, bind_of_ok (log_run _ _), bind_run, hbody, report,
    bind_run]

/-- A connection that is still VALID after the loop shows the callback all it has. -/
theorem handle_shown (e : ReadEvent α) (ho : Open w) (hpos : 0 < w.context.socket.fd)
    (hr : w.context.onRecv = true) (hlast : e.burst.last.state = .valid) :
    ∃ w₁, e.handle w = report e.respond w₁.invoke ∧ Works w w₁ ∧ Open w₁ ∧
      w₁.context.onRecv = true ∧ w₁.wire.delivered = w.wire.delivered ++ e.burst.bytes ∧
      w₁.seen = w.seen ++ e.burst.bytes ∧ w₁.taken = w.taken ∧
      Grew (fun e => ∀ s, e ≠ .onRecv s) w w₁ := by
  obtain ⟨w₁, hrec, hw, hgrew, hrun⟩ := e.handle_reads ho hpos
  rw [hlast] at hrec
  have ho₁ : Open w₁ := hrec.open ⟨ho.live, ho.valid⟩
  have hr₁ : w₁.context.onRecv = true := by rw [hrec.context]; exact hr
  have hlog : Works w (w.log (.entered .readable)) :=
    ⟨⟨rfl, rfl, rfl, rfl, rfl, rfl, destroyerCalls_log _ _⟩, .inl rfl⟩
  have hafter : e.afterLoop w₁ = e.respond w₁.invoke := by
    have hcb : runOnRecv (runCalls e.callback) w₁ = runCalls e.callback w₁.invoke := by
      rw [runOnRecv, bind_of_ok (this_run ho₁.live), if_pos hr₁]
      rfl
    rw [afterLoop, bind_of_ok (stateCleanup_valid ho₁), if_neg (by decide), respond, bind_run, hcb,
      bind_run]
  refine ⟨w₁, ?_, hlog.trans hw, ho₁, hr₁, hrec.delivered, hrec.seen, hrec.taken, ?_⟩
  · rw [hrun, report, bind_run, hafter, report, bind_run]
  · exact (Grew.log (by simp)).trans (hgrew.mono fun e he s hs => by subst hs; exact he)

/-- A connection that is no longer VALID after it calls the destroyer and shows nothing. -/
theorem handle_torn (e : ReadEvent α) (ho : Open w) (hpos : 0 < w.context.socket.fd)
    (hlast : e.burst.last.state ≠ .valid) :
    ∃ w₁, Works w w₁ ∧ w₁.context.onRecv = w.context.onRecv ∧
      w₁.wire.delivered = w.wire.delivered ++ e.burst.bytes ∧ w₁.seen = w.seen ++ e.burst.bytes ∧
      Grew (fun e => ∀ s, e ≠ .onRecv s) w w₁ ∧ Rests w₁ (final (e.handle w)) ∧
      w₁.destroyerCalls < (final (e.handle w)).destroyerCalls := by
  obtain ⟨w₁, hrec, hw, hgrew, hrun⟩ := e.handle_reads ho hpos
  have hlog : Works w (w.log (.entered .readable)) :=
    ⟨⟨rfl, rfl, rfl, rfl, rfl, rfl, destroyerCalls_log _ _⟩, .inl rfl⟩
  have hstate : w₁.context.state = some e.burst.last.state := by rw [hrec.context]
  have hcalls := stateCleanup_shut (hrec.freed.trans ho.live) (by rw [hw.socket]; exact hpos) hstate
    hlast e.burst.last.state_ne_moved
  have hrests := Rests.of_effect (stateCleanup_rests (w := w₁))
  refine ⟨w₁, hlog.trans hw, by rw [hrec.context]; rfl, hrec.delivered, hrec.seen, ?_, ?_⟩
  · exact (Grew.log (by simp)).trans (hgrew.mono fun e he s hs => by subst hs; exact he)
  · rw [hrun, report, afterLoop]
    cases hclean : stateCleanup w₁ with
    | error f w₂ =>
      rw [hclean] at hcalls hrests
      rw [bind_of_error (bind_of_error hclean)]
      exact ⟨hrests, hcalls⟩
    | ok ret w₂ =>
      rw [hclean] at hcalls hrests
      obtain ⟨rfl, _⟩ := stateCleanup_calls hclean (by rw [hstate]; simpa using hlast)
        (by rw [hstate]; simpa using e.burst.last.state_ne_moved)
      rw [bind_run, bind_of_ok hclean]
      exact ⟨hrests.trans ⟨⟨rfl, rfl, Grew.log fun _ => by simp⟩, rfl, id⟩,
        Nat.lt_of_lt_of_le hcalls (Grew.log (P := fun _ => True) trivial).calls_le⟩

/-- A connection that is not open at entry reads and shows nothing. -/
theorem handle_shut (e : ReadEvent α) (hs : ¬ Open w) : Rests w (final (e.handle w)) := by
  have hlogged : ∀ {v : World α} {ret : Int},
      Effect Rests (do log (.returned .readable ret); pure ret : Exec α Int) v := by
    intro v ret
    apply Effect.bind (log_rests fun _ => by simp)
    intro _ _ _
    exact Effect.pure _
  have hs₁ : ¬ Open (w.log (.entered .readable)) := fun ho => hs ⟨ho.live, ho.valid⟩
  apply Rests.of_effect
  apply Effect.bind (log_rests fun _ => by simp)
  rintro _ _ ⟨⟩
  apply Effect.bind
  · apply Effect.bind requireNotMoved_effect
    intro _ w₁ h₁
    have hm := requireNotMoved_state h₁
    obtain rfl := requireNotMoved_inv h₁
    apply Effect.bind stateCleanup_rests
    intro ret w₂ h₂
    apply Effect.ite
    · intro _
      exact Effect.pure _
    · intro hret
      exact absurd (stateCleanup_open hm h₂ hret).1 hs₁
  · intro _ _ _
    exact hlogged

section Between
variable {e : ReadEvent α} {data : List α}

theorem handle_open (hb : Between w₀ w data) (hk : ∀ c ∈ e.callback, c.Keeps) (ho : Open w) :
    Between w₀ (final (e.handle w)) (data ++ e.burst.bytes) := by
  have reads {w₁ : World α} (hw : Works w w₁) (hr : w₁.context.onRecv = true)
      (hdel : w₁.wire.delivered = w.wire.delivered ++ e.burst.bytes)
      (hseen : w₁.seen = w.seen ++ e.burst.bytes)
      (hgrew : Grew (fun e => ∀ s, e ≠ .onRecv s) w w₁) : Between w₀ w₁ (data ++ e.burst.bytes) := by
    refine ⟨by rw [hw.socket]; exact hb.positive, hr, ?_, ?_, hb.offered.silent hgrew ?_⟩
    · rw [hdel, hb.delivered, List.append_assoc]
    · rw [hseen, hb.seen, List.append_assoc]
    · rw [hseen, List.length_append]
      omega
  by_cases hlast : e.burst.last.state = .valid
  · obtain ⟨w₁, hrun, hw, _, hr, hdel, hseen, _, hgrew⟩ :=
      e.handle_shown ho hb.positive hb.onRecv hlast
    rw [hrun]
    exact (reads hw hr hdel hseen hgrew).invoke.rest (e.respond_rests hk)
  · obtain ⟨w₁, hw, hr, hdel, hseen, hgrew, hrests, _⟩ := e.handle_torn ho hb.positive hlast
    exact (reads hw (hr.trans hb.onRecv) hdel hseen hgrew).rest hrests

theorem handle_between (hb : Between w₀ w data) (hk : ∀ c ∈ e.callback, c.Keeps) :
    ∃ more, Between w₀ (final (e.handle w)) (data ++ more) := by
  by_cases ho : Open w
  · exact ⟨_, e.handle_open hb hk ho⟩
  · exact ⟨[], by rw [List.append_nil]; exact hb.rest (e.handle_shut ho)⟩

/-- After an event that did not cut the connection off, all its bytes were shown. -/
theorem handle_current (hb : Between w₀ w data) (hk : ∀ c ∈ e.callback, c.Keeps)
    (hc : Current w₀ w) (hcut : ¬ e.Cut w₀ w) : Current w₀ (final (e.handle w)) := by
  have idle (h : Between w₀ (final (e.handle w)) data) : Current w₀ (final (e.handle w)) :=
    hc.extend (h.delivered.trans hb.delivered.symm) e.handle_grew
  by_cases ho : Open w
  · by_cases hblocks : e.burst.blocks = []
    · have hopen := e.handle_open hb hk ho
      rw [Burst.bytes, hblocks, List.flatMap_nil, List.append_nil] at hopen
      exact idle hopen
    · have hlast : e.burst.last.state = .valid := by
        by_contra hlast
        exact hcut ⟨ho, hblocks, .inl hlast⟩
      have hcalls : w.destroyerCalls = w₀.destroyerCalls := by
        by_contra hcalls
        exact hcut ⟨ho, hblocks, .inr hcalls⟩
      obtain ⟨w₁, hrun, hw, _, _, hdel, hseen, _, hgrew⟩ :=
        e.handle_shown ho hb.positive hb.onRecv hlast
      obtain ⟨log, hlog, _⟩ := hb.offered
      obtain ⟨log₁, hlog₁, _⟩ := hgrew
      have hsince : w₁.readSince w₀ = data ++ e.burst.bytes := by
        rw [World.readSince, hdel, hb.delivered, List.append_assoc, List.drop_left]
      have hpast : w₁.history = (log₁ ++ log) ++ w₀.history := by
        rw [hlog₁, hlog, List.append_assoc]
      have hshown : Shown w₀ w₁.invoke (w₁.invoke.readSince w₀).length := by
        refine .of_invoke hpast ?_ (hw.calls.trans hcalls)
        rw [hseen, hb.seen, hsince, List.append_assoc]
      have hset := e.respond_settles (w := w₁.invoke)
      rw [hrun]
      exact Current.extend (.inr hshown) hset.delivered (hset.grew.mono fun _ _ => trivial)
  · exact idle (hb.rest (e.handle_shut ho))

/-- The first byte of an event that cuts the connection off is lost. -/
theorem handle_lost (hb : Between w₀ w data) (hk : ∀ c ∈ e.callback, c.Keeps)
    (hcut : e.Cut w₀ w) : Lost w₀ (final (e.handle w)) := by
  obtain ⟨ho, hblocks, hend⟩ := hcut
  have hpos := List.length_pos_iff.2 fun hnil => hblocks (Burst.bytes_eq_nil.1 hnil)
  have hfirst : data.length < ((final (e.handle w)).readSince w₀).length := by
    rw [(e.handle_open hb hk ho).readSince, List.length_append]
    omega
  have hseen : w.seen.length = w₀.seen.length + data.length := by
    rw [hb.seen, List.length_append]
  obtain ⟨log, hlog, hlen⟩ := hb.offered
  rw [hseen] at hlen
  rcases hend with hlast | hcalls
  · obtain ⟨w₁, _, _, _, _, hgrew, hrests, hcalls⟩ := e.handle_torn ho hb.positive hlast
    obtain ⟨log', hlog', hno⟩ := hgrew.trans hrests.grew
    rw [hlog] at hlog'
    refine ⟨data.length, hfirst, [], log' ++ log, ?_, ?_, fun m hm s hs => ?_⟩
    · rw [hlog', List.nil_append, List.append_assoc]
    · have hle : w₀.destroyerCalls ≤ w₁.destroyerCalls :=
        (calls_le_of_history hlog).trans hgrew.calls_le
      rw [List.append_assoc, ← hlog']
      exact Nat.lt_of_le_of_lt hle hcalls
    · rcases List.mem_append.1 hm with hm | hm
      · exact absurd hs (hno m hm s)
      · exact hlen m hm s hs
  · obtain ⟨log', hlog', _⟩ := e.handle_grew (w := w)
    refine ⟨data.length, hfirst, log', log, by rw [hlog', hlog], ?_, hlen⟩
    rw [← hlog]
    exact Nat.lt_of_le_of_ne (calls_le_of_history hlog) (Ne.symm hcalls)

theorem handle_stays_lost (hb : Between w₀ w data) (hk : ∀ c ∈ e.callback, c.Keeps)
    (hl : Lost w₀ w) : Lost w₀ (final (e.handle w)) := by
  obtain ⟨more, hmore⟩ := e.handle_between hb hk
  refine hl.extend ?_ e.handle_grew
  rw [hb.readSince, hmore.readSince, List.length_append]
  omega

end Between
end ReadEvent

variable [Zero α]

/-- What a sequence of events leaves; it ends early where a handler does not return. -/
def readEvents : List (ReadEvent α) → World α → World α
  | [], w => w
  | e :: es, w => match e.handle w with
    | .ok _ w' => readEvents es w'
    | .error _ w' => w'

/-- The events that are handled, each with the connection it finds. -/
def handledEvents : List (ReadEvent α) → World α → List (World α × ReadEvent α)
  | [], _ => []
  | e :: es, w => (w, e) :: match e.handle w with
    | .ok _ w' => handledEvents es w'
    | .error _ _ => []

section Sequence
variable {data : List α}

theorem readEvents_lost (es : List (ReadEvent α)) (hb : Between w₀ w data)
    (hk : ∀ e ∈ es, ∀ c ∈ e.callback, c.Keeps) (hl : Lost w₀ w) : Lost w₀ (readEvents es w) := by
  induction es generalizing w data with
  | nil => exact hl
  | cons e es ih =>
    have hl' := e.handle_stays_lost hb (hk e List.mem_cons_self) hl
    obtain ⟨more, hb'⟩ := e.handle_between hb (hk e List.mem_cons_self)
    rw [readEvents]
    cases hrun : e.handle w with
    | ok ret w' =>
      rw [hrun] at hl' hb'
      exact ih hb' (fun e' he => hk e' (List.mem_cons_of_mem _ he)) hl'
    | error f w' => rwa [hrun] at hl'

theorem handed_iff (es : List (ReadEvent α)) (hb : Between w₀ w data)
    (hk : ∀ e ∈ es, ∀ c ∈ e.callback, c.Keeps) (hc : Current w₀ w) :
    Handed w₀ (readEvents es w) ↔ ∀ h ∈ handledEvents es w, ¬ h.2.Cut w₀ h.1 := by
  induction es generalizing w data with
  | nil => simpa [readEvents, handledEvents] using hc.handed
  | cons e es ih =>
    have hk' : ∀ e' ∈ es, ∀ c ∈ e'.callback, c.Keeps := fun e' he => hk e' (List.mem_cons_of_mem _ he)
    obtain ⟨more, hb'⟩ := e.handle_between hb (hk e List.mem_cons_self)
    by_cases hcut : e.Cut w₀ w
    · have hl := e.handle_lost hb (hk e List.mem_cons_self) hcut
      have hlost : Lost w₀ (readEvents (e :: es) w) := by
        rw [readEvents]
        cases hrun : e.handle w with
        | ok ret w' =>
          rw [hrun] at hl hb'
          exact readEvents_lost es hb' hk' hl
        | error f w' => rwa [hrun] at hl
      refine iff_of_false hlost.not_handed fun hall => hall (w, e) ?_ hcut
      rw [handledEvents]
      exact List.mem_cons_self
    · have hc' := e.handle_current hb (hk e List.mem_cons_self) hc hcut
      rw [readEvents, handledEvents]
      cases hrun : e.handle w with
      | ok ret w' =>
        rw [hrun] at hc' hb'
        simpa [hcut] using ih hb' hk' hc'
      | error f w' =>
        rw [hrun] at hc'
        simpa [hcut] using hc'.handed

end Sequence

/-- On a connection with a callback installed, every byte that a sequence of events reads is
shown to the callback exactly if none of the events handled cuts the connection off. -/
theorem received_bytes_handed (es : List (ReadEvent α)) (hpos : 0 < w.context.socket.fd)
    (hr : w.context.onRecv = true) (hk : ∀ e ∈ es, ∀ c ∈ e.callback, c.Keeps) :
    Handed w (readEvents es w) ↔ ∀ h ∈ handledEvents es w, ¬ h.2.Cut w h.1 :=
  handed_iff es (.start hpos hr) hk (.inl (by simp [World.readSince]))

/-- One readable event that brings one byte, and the callback that reads it. -/
def oneByteEvent (b : UInt8) (last : ReadEnd) : ReadEvent UInt8 :=
  ⟨⟨[⟨[b], by simp, by simp [readBufSize]⟩], last⟩, [.read]⟩

/-- A byte that is followed by `EAGAIN` is shown. -/
theorem received_byte_handed :
    Handed (World.setUp 0 5 true fullOnce)
      (readEvents [oneByteEvent 7 (.failed .eagain)] (World.setUp 0 5 true fullOnce)) := by
  refine (received_bytes_handed _ (by decide) rfl (by simp [oneByteEvent, Call.Keeps])).2 ?_
  rintro ⟨v, e⟩ hmem ⟨_, _, hcut⟩
  have hfirst : (v, e) = (World.setUp 0 5 true fullOnce, oneByteEvent 7 (.failed .eagain)) := by
    rw [handledEvents] at hmem
    cases hrun : (oneByteEvent 7 (.failed .eagain)).handle (World.setUp 0 5 true fullOnce) <;>
      simpa [hrun, handledEvents] using hmem
  cases hfirst
  exact hcut.elim (fun hlast => hlast rfl) fun hcalls => hcalls rfl

/-- A byte that arrives together with the end of the stream is dropped. -/
theorem received_bytes_dropped :
    ¬ ∀ (es : List (ReadEvent UInt8)) (w : World UInt8) (r : Nat), Attached w r →
      w.context.state = some .valid → w.context.onRecv = true →
      (∀ e ∈ es, ∀ c ∈ e.callback, c.Keeps) →
      (∀ e ∈ es, e.burst.last = .eof ∨ ∃ err, e.burst.last = .failed err ∧ err.again = true) →
      Handed w (readEvents es w) := by
  intro h
  have hready : Ready (World.setUp 0 5 true fullOnce : World UInt8) 0 :=
    setUp_ready (by decide) true fullOnce
  have hkeeps : ∀ e ∈ [oneByteEvent 7 .eof], ∀ c ∈ e.callback, c.Keeps := by
    simp [oneByteEvent, Call.Keeps]
  have hh := h [oneByteEvent 7 .eof] (World.setUp 0 5 true fullOnce) 0 hready.toAttached rfl rfl
    hkeeps (by simp [oneByteEvent])
  have hcurrent : Current (World.setUp 0 5 true fullOnce : World UInt8) (World.setUp 0 5 true fullOnce) :=
    .inl (by simp [World.readSince])
  have hno := (handed_iff _ (.start hready.positive rfl) hkeeps hcurrent).1 hh _ List.mem_cons_self
  exact hno ⟨hready.open, by simp [oneByteEvent], .inl (by simp [oneByteEvent, ReadEnd.state])⟩

end Netier
