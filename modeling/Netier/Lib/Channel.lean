import Mathlib.Data.List.Pairwise
import Mathlib.Order.Lattice
import Mathlib.Data.List.Basic

/-! An output channel with a queue in front of it. Elements join the queue, leave it
for the channel, or overtake it; only the last of these can disturb an order. -/
namespace Netier.Lib

/-- `sent` in the order of sending, `queue` with the next element to send first. -/
structure Channel (β : Type) where
  sent : List β
  queue : List β

namespace Channel
variable {β κ : Type}

def contents (c : Channel β) : List β := c.sent ++ c.queue
def enqueue (c : Channel β) (xs : List β) : Channel β := ⟨c.sent, c.queue ++ xs⟩
def drain (c : Channel β) (n : Nat) : Channel β := ⟨c.sent ++ c.queue.take n, c.queue.drop n⟩
def overtake (c : Channel β) (xs : List β) : Channel β := ⟨c.sent ++ xs, c.queue⟩

@[simp] theorem drain_zero (c : Channel β) : c.drain 0 = c := by
  simp [drain]

@[simp] theorem enqueue_nil (c : Channel β) : c.enqueue [] = c := by
  simp [enqueue]

@[simp] theorem overtake_queue (c : Channel β) (xs : List β) : (c.overtake xs).queue = c.queue := rfl

@[simp] theorem overtake_nil (c : Channel β) : c.overtake [] = c := by
  simp [overtake]

theorem drain_drain (c : Channel β) (m n : Nat) : (c.drain m).drain n = c.drain (m + n) := by
  simp [drain, List.take_add, List.append_assoc]

theorem overtake_overtake (c : Channel β) (xs ys : List β) :
    (c.overtake xs).overtake ys = c.overtake (xs ++ ys) := by
  simp [overtake]

@[simp] theorem contents_enqueue (c : Channel β) (xs : List β) :
    (c.enqueue xs).contents = c.contents ++ xs := by
  simp [contents, enqueue]

/-- Sending from the front of the queue neither loses, repeats nor reorders. -/
@[simp] theorem contents_drain (c : Channel β) (n : Nat) : (c.drain n).contents = c.contents := by
  simp [contents, drain]

/-- With an empty queue there is nothing to overtake. -/
theorem overtake_eq_drain (c : Channel β) (xs : List β) (h : c.queue = []) :
    c.overtake xs = (c.enqueue xs).drain xs.length := by
  simp [overtake, enqueue, drain, h]

theorem contents_sublist_overtake (c : Channel β) (xs : List β) :
    c.contents.Sublist (c.overtake xs).contents := by
  simp [contents, overtake]

section Order
variable [LinearOrder κ] (key : β → κ)

/-- The elements pass in the order of their keys. -/
def Ordered (c : Channel β) : Prop := c.contents.Pairwise fun a b => key a ≤ key b

def Below (c : Channel β) (k : κ) : Prop := ∀ b ∈ c.contents, key b < k

def AtMost (c : Channel β) (k : κ) : Prop := ∀ b ∈ c.contents, key b ≤ k

variable {key} {c : Channel β} {k : κ} {xs : List β}

theorem Below.atMost (h : c.Below key k) : c.AtMost key k := fun b hb => (h b hb).le

theorem AtMost.drain (h : c.AtMost key k) (n : Nat) : (c.drain n).AtMost key k := by
  rwa [AtMost, contents_drain]

theorem AtMost.enqueue (h : c.AtMost key k) (hx : ∀ x ∈ xs, key x = k) :
    (c.enqueue xs).AtMost key k := by
  intro b hb
  rw [contents_enqueue, List.mem_append] at hb
  rcases hb with hb | hb
  · exact h b hb
  · exact (hx b hb).le

theorem AtMost.overtake (h : c.AtMost key k) (hx : ∀ x ∈ xs, key x = k) :
    (c.overtake xs).AtMost key k := by
  intro b hb
  simp only [contents, Channel.overtake, List.mem_append] at hb
  rcases hb with (hb | hb) | hb
  · exact h b (List.mem_append_left _ hb)
  · exact (hx b hb).le
  · exact h b (List.mem_append_right _ hb)

theorem Ordered.drain (h : c.Ordered key) (n : Nat) : (c.drain n).Ordered key := by
  rwa [Ordered, contents_drain]

theorem Ordered.enqueue (h : c.Ordered key) (hb : c.AtMost key k) (hx : ∀ x ∈ xs, key x = k) :
    (c.enqueue xs).Ordered key := by
  rw [Ordered, contents_enqueue]
  refine List.pairwise_append.2 ⟨h, ?_, ?_⟩
  · exact List.pairwise_of_forall_mem_list fun a ha b hb' => by rw [hx a ha, hx b hb']
  · intro a ha b hb'
    rw [hx b hb']
    exact hb a ha

theorem Ordered.overtake (h : c.Ordered key) (hb : c.AtMost key k) (hx : ∀ x ∈ xs, key x = k)
    (hq : c.queue = []) : (c.overtake xs).Ordered key := by
  rw [overtake_eq_drain c xs hq]
  exact (h.enqueue hb hx).drain _

/-- A newer element that overtakes an older one is out of order. -/
theorem not_ordered_overtake (hb : c.Below key k) (hx : ∀ x ∈ xs, key x = k) (hxs : xs ≠ [])
    (hq : c.queue ≠ []) : ¬ (c.overtake xs).Ordered key := by
  intro h
  obtain ⟨x, xs', rfl⟩ := List.exists_cons_of_ne_nil hxs
  obtain ⟨q, qs, hqs⟩ := List.exists_cons_of_ne_nil hq
  have hle : key x ≤ key q := by
    apply (List.pairwise_append.1 h).2.2 x
    · simp [Channel.overtake]
    · simp [hqs]
  have hlt : key q < k := hb q (by simp [contents, hqs])
  rw [hx x List.mem_cons_self] at hle
  exact absurd hle (not_le.2 hlt)

/-- Disorder stays: what was sent and queued keeps its order under every operation. -/
theorem Ordered.of_sublist {c' : Channel β} (h : c'.Ordered key)
    (hs : c.contents.Sublist c'.contents) : c.Ordered key :=
  List.Pairwise.sublist hs h

end Order
end Channel
end Netier.Lib
