import Mathlib.Algebra.Notation.Prod
import Netier.Connection.OutputCalls
import Netier.Connection.Teardown

/-! The order in which the bytes of different calls reach the socket. Every byte carries
the index of its call; the code runs on such bytes as on any others. -/
namespace Netier
open Lib
variable {β : Type}

section Tag

def StdString.tag (i : Nat) (s : StdString β) : StdString (Nat × β) :=
  ⟨s.chars.map (i, ·), (i, s.terminator)⟩

def Block.tag (i : Nat) (b : Block β) : Block (Nat × β) :=
  ⟨b.bytes.map (i, ·), by simpa using b.nonempty, by simpa using b.length_le⟩

def FileStream.tag (i : Nat) (f : FileStream β) : FileStream (Nat × β) := ⟨f.pieces.map (Block.tag i)⟩

def Output.tag (i : Nat) : Output β → Output (Nat × β)
  | .syncWrite buf => .syncWrite (buf.map (i, ·))
  | .writeString data => .writeString (data.tag i)
  | .writeVector data => .writeVector (data.map (i, ·))
  | .asyncWrite buf => .asyncWrite (buf.map (i, ·))
  | .writeFile file => .writeFile (file.map (FileStream.tag i))
  | .flushWriteBuffer => .flushWriteBuffer

/-- The operation with every byte of its payload marked as supplied by call `i`. -/
def OutputOp.tag (i : Nat) : OutputOp β → OutputOp (Nat × β)
  | .call o => .call (o.tag i)
  | .handleWritableEvent => .handleWritableEvent

theorem FileStream.content_tag (i : Nat) (f : FileStream β) :
    (f.tag i).content = f.content.map (i, ·) := by
  simp [FileStream.content, FileStream.tag, Block.tag, List.flatMap_map, List.map_flatMap]

theorem Output.payload_tag (i : Nat) (o : Output β) :
    (o.tag i).payload = o.payload.map (i, ·) := by
  cases o with
  | writeFile file => cases file <;> simp [tag, payload, FileStream.content_tag]
  | _ => simp [tag, payload, StdString.tag]

theorem OutputOp.payload_tag (i : Nat) (o : OutputOp β) : ∀ b ∈ (o.tag i).payload, b.1 = i := by
  cases o with
  | call o => simp [tag, payload, Output.payload_tag]
  | handleWritableEvent => simp [tag, payload]

end Tag

variable [Zero β] {w : World (Nat × β)} {i : Nat}

/-- The connection after a sequence of operations, whose calls are numbered from `i`. -/
def after : Nat → List (OutputOp β) → World (Nat × β) → World (Nat × β)
  | _, [], w => w
  | i, o :: os, w => after (i + 1) os (final ((o.tag i).exec w))

/-- The tags of the bytes accepted and then of those left in `__wbuffer` do not decrease. -/
def InOrder (w : World (Nat × β)) : Prop := w.output.Ordered Prod.fst

/-- One operation keeps the order exactly if it does not overtake the queue. -/
theorem inOrder_step (o : OutputOp β) (hf : w.Fits) (hb : w.output.Below Prod.fst i)
    (ho : InOrder w) :
    InOrder (final ((o.tag i).exec w)) ↔ ¬ Overtakes w (o.tag i).direct := by
  obtain ⟨past, queued, ⟨n, hn⟩, hpast, hqueued, hiff⟩ := (o.tag i).exec_operated hf
  have hp : ∀ b ∈ past, b.1 = i := fun b h => o.payload_tag i b (hpast h)
  have hq : ∀ b ∈ queued, b.1 = i := fun b h => o.payload_tag i b (hqueued h)
  have hmost := (hb.atMost.overtake hp)
  rw [InOrder, hn]
  by_cases hw : w.context.wbuffer.bytes = []
  · have hordered := ((ho.overtake hb.atMost hp hw).enqueue hmost hq).drain n
    exact iff_of_true hordered fun h => h.2.2.1 hw
  · rw [← hiff hw, not_not]
    constructor
    · intro h
      by_contra hne
      rw [Channel.Ordered, Channel.contents_drain, Channel.contents_enqueue] at h
      exact Channel.not_ordered_overtake hb hp hne hw (List.pairwise_append.1 h).1
    · rintro rfl
      rw [Channel.overtake_nil]
      exact (ho.enqueue hb.atMost hq).drain n

/-- Bytes are never taken back, so an operation repairs no disorder. -/
theorem contents_sublist_step (o : OutputOp β) (hf : w.Fits) :
    w.output.contents.Sublist (final ((o.tag i).exec w)).output.contents := by
  obtain ⟨past, queued, ⟨n, hn⟩, _⟩ := (o.tag i).exec_operated hf
  rw [hn, Channel.contents_drain, Channel.contents_enqueue]
  exact (w.output.contents_sublist_overtake past).trans (List.sublist_append_left _ _)

theorem below_step (o : OutputOp β) (hf : w.Fits) (hb : w.output.Below Prod.fst i) :
    (final ((o.tag i).exec w)).output.Below Prod.fst (i + 1) := by
  obtain ⟨past, queued, ⟨n, hn⟩, hpast, hqueued, _⟩ := (o.tag i).exec_operated hf
  have hp : ∀ b ∈ past, b.1 = i := fun b h => o.payload_tag i b (hpast h)
  have hq : ∀ b ∈ queued, b.1 = i := fun b h => o.payload_tag i b (hqueued h)
  intro b hmem
  rw [hn] at hmem
  exact Nat.lt_succ_of_le (((hb.atMost.overtake hp).enqueue hq).drain n b hmem)

theorem contents_sublist_after (os : List (OutputOp β)) (hf : w.Fits) :
    w.output.contents.Sublist (after i os w).output.contents := by
  induction os generalizing w i with
  | nil => exact .refl _
  | cons o os ih => exact (contents_sublist_step o hf).trans (ih ((o.tag i).exec_fits hf))

theorem inOrder_after (os : List (OutputOp β)) (hf : w.Fits) (hb : w.output.Below Prod.fst i)
    (ho : InOrder w) :
    InOrder (after i os w) ↔ ∀ done o rest, os = done ++ o :: rest →
      ¬ Overtakes (after i done w) (o.tag (i + done.length)).direct := by
  induction os generalizing w i with
  | nil => simpa [after] using ho
  | cons o os ih =>
    have hf' := (o.tag i).exec_fits hf
    have hstep := inOrder_step o hf hb ho
    rw [after]
    constructor
    · intro h done o' rest hsplit
      have ho' : InOrder (final ((o.tag i).exec w)) := h.of_sublist (contents_sublist_after os hf')
      cases done with
      | nil =>
        obtain ⟨rfl, rfl⟩ := List.cons.inj hsplit
        exact hstep.1 ho'
      | cons d done =>
        obtain ⟨rfl, hrest⟩ := List.cons.inj hsplit
        have hno := (ih hf' (below_step _ hf hb) ho').1 h done o' rest hrest
        rwa [Nat.add_assoc, Nat.add_comm 1] at hno
    · intro h
      have ho' : InOrder (final ((o.tag i).exec w)) := hstep.2 (h [] o os rfl)
      refine (ih hf' (below_step _ hf hb) ho').2 fun done o' rest hsplit => ?_
      have hno := h (o :: done) o' rest (congrArg (o :: ·) hsplit)
      rwa [List.length_cons, Nat.add_comm done.length, ← Nat.add_assoc] at hno

/-- Calls are numbered from 1, and 0 marks what the connection held before them: the
bytes of every sequence of operations pass in the order of the calls exactly if no
`syncWrite` reached a kernel that accepted bytes past a queue. -/
theorem output_order (os : List (OutputOp β)) (hf : w.Fits)
    (h0 : ∀ b ∈ w.output.contents, b.1 = 0) :
    InOrder (after 1 os w) ↔ ∀ done o rest, os = done ++ o :: rest →
      ¬ Overtakes (after 1 done w) (o.tag (1 + done.length)).direct := by
  refine inOrder_after os hf (fun b hb => by rw [h0 b hb]; exact Nat.one_pos) ?_
  exact List.pairwise_of_forall_mem_list fun a ha b hb => by rw [h0 a ha, h0 b hb]

/-- Bytes queued by an `asyncWrite` that met a full socket are passed by a `syncWrite`. -/
theorem output_order_fails :
    ¬ ∀ (os : List (OutputOp UInt8)) (w : World (Nat × UInt8)), w.Fits →
      (∀ b ∈ w.output.contents, b.1 = 0) → InOrder (after 1 os w) := by
  intro h
  have hin := h [.call (.asyncWrite [7]), .call (.syncWrite [8])] (World.setUp 0 5 true fullOnce)
    (fullOnce_fits 0 5 true) (by simp [World.setUp, World.output, Channel.contents, Buffer.empty])
  have hbytes : (after 1 [.call (.asyncWrite [7]), .call (.syncWrite [8])]
      (World.setUp 0 5 true fullOnce)).output.contents = [((2 : Nat), (8 : UInt8)), (1, 7)] := rfl
  rw [InOrder, Channel.Ordered, hbytes] at hin
  simp at hin

/-- Two calls that both queue keep their order on the same socket. -/
theorem output_order_queued :
    InOrder (after 1 [.call (.asyncWrite [7]), .call (.asyncWrite [8])]
      (World.setUp 0 5 true fullOnce : World (Nat × UInt8))) := by
  refine (output_order _ (fullOnce_fits 0 5 true)
    (by simp [World.setUp, World.output, Channel.contents, Buffer.empty])).2 ?_
  rintro done o rest hsplit
  have ho : o ∈ [OutputOp.call (.asyncWrite [7]), .call (.asyncWrite [(8 : UInt8)])] := by
    rw [hsplit]
    simp
  simp only [List.mem_cons, List.not_mem_nil, or_false] at ho
  rcases ho with rfl | rfl <;> exact not_overtakes_nil

end Netier
