import Netier.Connection.Passes
import Netier.Connection.Teardown

/-! `syncWrite` under short writes: every pass of its loop sends from the start of the
buffer, whatever the passes before it have sent. -/
namespace Netier
open Lib
variable {α : Type} {w : World α} {data : List α} {counts : List Nat}

/-- What a call that returns owes its caller: the bytes it gave to the kernel, completed by
`__wbuffer` where it succeeded, are the data. -/
def Faithful (w : World α) (data : List α) : Prop :=
  ∀ ret w', syncWrite data w = .ok ret w' → ∃ sent, w'.wire.accepted = w.wire.accepted ++ sent ∧
    if ret = .success ∧ w'.context.state = some .valid then sent ++ w'.context.wbuffer.bytes = data
    else sent <+: data

/-- The bytes at the start of the data are, for every pass, those that are due. -/
def Aligned (data : List α) (counts : List Nat) : Prop :=
  ∀ done k rest, counts = done ++ k :: rest → data.take k = (data.drop done.sum).take k

section Chunks

theorem length_flatMap_take (h : counts.sum ≤ data.length) :
    (counts.flatMap data.take).length = counts.sum := by
  induction counts with
  | nil => rfl
  | cons k counts ih =>
    rw [List.sum_cons] at h
    rw [List.flatMap_cons, List.length_append, List.length_take_of_le (by omega), ih (by omega),
      List.sum_cons]

/-- Chunks from the start of the data line up exactly if each is the chunk that is due. -/
theorem flatMap_take_eq_iff (offset : Nat) (h : offset + counts.sum ≤ data.length) :
    counts.flatMap data.take = (data.drop offset).take counts.sum ↔
      ∀ done k rest, counts = done ++ k :: rest →
        data.take k = (data.drop (offset + done.sum)).take k := by
  induction counts generalizing offset with
  | nil => simp
  | cons k counts ih =>
    rw [List.sum_cons] at h
    have hlength : (data.take k).length = ((data.drop offset).take k).length := by
      simp only [List.length_take, List.length_drop]
      omega
    have hcons : (k :: counts).flatMap data.take = (data.drop offset).take (k :: counts).sum ↔
        data.take k = (data.drop offset).take k ∧
          counts.flatMap data.take = (data.drop (offset + k)).take counts.sum := by
      rw [List.flatMap_cons, List.sum_cons, List.take_add, List.drop_drop]
      constructor
      · intro heq
        exact List.append_inj heq hlength
      · rintro ⟨hhead, htail⟩
        rw [hhead, htail]
    rw [hcons, ih (offset + k) (by omega)]
    constructor
    · rintro ⟨hhead, htail⟩ done j rest heq
      cases done with
      | nil =>
        cases heq
        exact hhead
      | cons d done =>
        cases heq
        rw [List.sum_cons, ← Nat.add_assoc]
        exact htail done j rest rfl
    · intro heach
      refine ⟨heach [] k counts rfl, fun done j rest heq => ?_⟩
      have hj := heach (k :: done) j rest (by rw [heq]; rfl)
      rwa [List.sum_cons, ← Nat.add_assoc] at hj

theorem aligned_iff (h : counts.sum ≤ data.length) :
    Aligned data counts ↔ counts.flatMap data.take = data.take counts.sum := by
  have hiff := @flatMap_take_eq_iff α data counts 0 (by omega)
  simp only [Nat.zero_add, List.drop_zero] at hiff
  exact hiff.symm

/-- The rest of the data goes on correctly only from where it is due. -/
theorem aligned_iff_complete (h : counts.sum ≤ data.length) :
    Aligned data counts ↔ counts.flatMap data.take ++ data.drop counts.sum = data := by
  rw [aligned_iff h]
  constructor
  · intro heq
    rw [heq, List.take_append_drop]
  · intro heq
    exact List.append_cancel_right (heq.trans (List.take_append_drop _ _).symm)

theorem aligned_iff_starts (h : counts.sum ≤ data.length) (n : Nat) :
    Aligned data counts ↔ counts.flatMap data.take ++ (data.drop counts.sum).take n <+: data := by
  rw [aligned_iff h]
  constructor
  · intro heq
    rw [heq, ← List.take_add]
    exact List.take_prefix _ _
  · intro hpre
    have hdirect := (List.prefix_append _ _).trans hpre
    rwa [List.prefix_iff_eq_take, length_flatMap_take h] at hdirect

/-- It is so when at most one write(2) accepts bytes. -/
theorem aligned_of_length_le_one (h : counts.length ≤ 1) : Aligned data counts := by
  rintro done k rest rfl
  obtain rfl : done = [] := List.length_eq_zero_iff.1 (by
    simp only [List.length_append, List.length_cons] at h
    omega)
  simp

end Chunks

theorem faithful_iff {sent : List α} {w' : World α} {ret : ER} (hrun : syncWrite data w = .ok ret w')
    (hsent : w'.wire.accepted = w.wire.accepted ++ sent) :
    Faithful w data ↔
      if ret = .success ∧ w'.context.state = some .valid then sent ++ w'.context.wbuffer.bytes = data
      else sent <+: data := by
  constructor
  · intro h
    obtain ⟨sent', hsent', hkept⟩ := h ret w' hrun
    rw [hsent, List.append_cancel_left_eq] at hsent'
    rwa [hsent']
  · intro hkept ret' w'' hrun'
    rw [hrun] at hrun'
    cases hrun'
    exact ⟨sent, hsent, hkept⟩

/-- With an empty `__wbuffer` the bytes of a call of `syncWrite` reach the kernel once and in
order exactly if every pass of its loop was due the bytes at the start of the data. -/
theorem syncWrite_faithful_iff (h : Open w) (hfd : 0 < w.context.socket.fd)
    (hempty : w.context.wbuffer.bytes = []) (hlen : data.length < 2147483648) :
    Faithful w data ↔ Aligned data (passes w.wire.answers data.length).counts := by
  have hint : (toInt data.length).toNat = data.length := by
    rw [toInt_of_lt (by omega) (by omega), Int.toNat_natCast]
  generalize hp : passes w.wire.answers data.length = p
  have hsum : p.counts.sum ≤ data.length := hp ▸ passes_sent_le _ _
  obtain ⟨w₁, hwrote, hrun⟩ := syncWrite_passes h hfd data (World.counts_of_lt (by omega))
    (p := p) (by rw [hint, hp])
  have hrest : data.length - (data.length - p.sent) = p.counts.sum := by
    simp only [Passes.sent]
    omega
  rw [hint, hrest] at hrun
  have hwbuffer : w₁.context.wbuffer.bytes = [] := by rw [hwrote.context]; exact hempty
  have hstate : w₁.context.state = some p.stop.state := by rw [hwrote.context]
  cases hstop : p.stop with
  | done =>
    have hall : p.counts.sum = data.length := hp ▸ passes_done (hp ▸ hstop)
    rw [hstop] at hrun hstate
    rw [faithful_iff hrun hwrote.accepted, if_pos ⟨rfl, hstate⟩, hwbuffer, aligned_iff_complete hsum,
      hall, List.drop_length]
  | again =>
    have ho : Open w₁ := ⟨hwrote.live, by rw [hstate, hstop]; rfl⟩
    rw [if_pos hstop] at hrun
    obtain ⟨w', hasync, hflush⟩ := asyncWrite_passes ho (by rw [hwrote.context]; exact hfd)
      (data.drop p.counts.sum) (World.counts_of_lt (by
        simp only [Buffer.size, hwbuffer, List.length_nil, List.length_drop]
        omega))
    rw [bind_of_ok hasync] at hrun
    generalize passes w₁.wire.answers _ = q at hflush
    have hqueued : (w₁.queued (data.drop p.counts.sum)).context.wbuffer.bytes =
        data.drop p.counts.sum := by
      simp [World.queued, Buffer.put, hwbuffer]
    have haccepted : w'.wire.accepted = w.wire.accepted ++
        (p.counts.flatMap data.take ++ (data.drop p.counts.sum).take q.sent) := by
      rw [hflush.accepted, hqueued, ← List.append_assoc, ← hwrote.accepted]
      rfl
    rw [faithful_iff hrun haccepted]
    split
    · rw [hflush.wbuffer, hqueued, List.append_assoc, List.take_append_drop,
        aligned_iff_complete hsum]
    · exact (aligned_iff_starts hsum q.sent).symm
  | eof | error =>
    rw [hstop] at hrun hstate
    rw [faithful_iff hrun hwrote.accepted, if_neg (by simp [Stop.result])]
    have hpre := aligned_iff_starts hsum 0
    rw [List.take_zero, List.append_nil] at hpre
    exact hpre.symm

/-- The kernel takes one byte, and then the other: the first byte is sent twice. -/
theorem second_short_write_resends :
    ¬ ∀ (w : World UInt8) (data : List UInt8), Open w → 0 < w.context.socket.fd →
      w.context.wbuffer.bytes = [] → data.length < 2147483648 → Faithful w data := by
  intro h
  have h0 : Ready (World.setUp 0 5 true fun _ => .room 1 : World UInt8) 0 :=
    setUp_ready (by decide) true _
  have hlen : ([1, 2] : List UInt8).length < 2147483648 := by decide
  obtain ⟨sent, hsent, hkept⟩ := h _ _ h0.open h0.positive rfl hlen _ _ rfl
  have hsent' : sent = [1, 1] := hsent.symm
  rw [hsent'] at hkept
  exact absurd hkept (by decide)

/-- Two bytes of the data are sent one by one, and the rest is queued. -/
def twoShort : Nat → WriteAnswer
  | 0 | 1 => .room 1
  | _ => .failed .eagain

/-- Two short writes of equal bytes do no harm. -/
theorem syncWrite_faithful_twice :
    Faithful (World.setUp 0 5 true twoShort : World UInt8) [7, 7, 8] := by
  have h0 : Ready (World.setUp 0 5 true twoShort : World UInt8) 0 := setUp_ready (by decide) true _
  refine (syncWrite_faithful_iff h0.open h0.positive rfl (by decide)).2 ?_
  have hcounts : (passes twoShort 3).counts = [1, 1] := by decide
  exact (congrArg (Aligned [7, 7, 8]) hcounts).mpr ((aligned_iff (by decide)).2 rfl)

end Netier
