import Netier.Lib.Iteration
import Netier.Server.Registry

/-! `Server::~Server`: a loop over `__contextes` that erases the element it stands at. -/
namespace Netier
open Lib
variable {α : Type}

/-- A server whose destructor runs, with the order in which `__contextes` is iterated and the
keys whose context has been destroyed, the newest first. -/
structure Teardown (α : Type) where
  server : Server α
  order : List Fd
  destroyed : List Fd
  nodup : order.Nodup
  keys : ∀ fd, fd ∈ order ↔ (server.contextes fd).isSome

namespace Teardown
variable {s s' : Teardown α} {fd : Fd}

/-- The map without an element, after its context has left the kernel as `k`. -/
def without (s : Teardown α) (fd : Fd) (k : Kernel) : Teardown α where
  server := s.server.put fd none k
  order := s.order.erase fd
  destroyed := fd :: s.destroyed
  nodup := s.nodup.erase fd
  keys := fun fd' => by
    rw [s.nodup.mem_erase_iff, s.keys]
    by_cases h : fd' = fd
    · subst h
      simp [Server.put_self]
    · simp [Server.put_other _ _ _ h, h]

/-- `__contextes.erase(fd)`: the element goes, and with it the context that it owns. -/
def erase (fd : Fd) : EStateM Fault (Teardown α) Unit := do
  let s ← get
  match s.server.contextes fd with
  | none => pure ()
  | some c => match destruct ⟨c, s.server.kernel⟩ with
    | .error e _ => throw e
    | .ok _ w => set (s.without fd w.kernel)

/-- The loop; a map of so many elements is worth so many passes. -/
def serverDestructor : EStateM Fault (Teardown α) Unit := do
  let s ← get
  forEach order .useAfterFree .unbounded erase (s.order.length + 1)

/-- What the loop is for: the map is empty, every context was destroyed once, and none is
left in the tables of the kernel. -/
structure Complete (s s' : Teardown α) : Prop where
  empty : s'.order = []
  once : s'.destroyed.Perm (s.order ++ s.destroyed)
  gone : ∀ fd c, s.server.contextes fd = some c → c.context.socket.fd ∉ s'.server.kernel.fds ∧
    ∀ ep, s'.server.kernel.interest ep c.context.socket.fd = none

/-- The loop comes to its end, no iterator having been used stale, and has done its work. -/
def Clears (s : Teardown α) : Prop := ∃ s', serverDestructor s = .ok ⟨⟩ s' ∧ Complete s s'

theorem without_order (s : Teardown α) (fd : Fd) (k : Kernel) : fd ∉ (s.without fd k).order :=
  s.nodup.not_mem_erase

theorem erase_erases (h : erase fd s = .ok ⟨⟩ s') : fd ∉ s'.order := by
  rw [erase, bind_of_ok (get_run s)] at h
  cases hc : s.server.contextes fd with
  | none =>
    simp only [hc] at h
    cases h
    rw [s.keys, hc]
    simp
  | some c =>
    simp only [hc] at h
    cases hd : destruct (⟨c, s.server.kernel⟩ : World α) with
    | error e w =>
      rw [hd] at h
      cases h
    | ok u w =>
      rw [hd] at h
      cases h
      exact s.without_order fd _

/-- A connection that its reactor watches is deregistered, then closed, and its element goes. -/
theorem erase_run {c : Conn α} {r : Nat} (hc : s.server.contextes fd = some c)
    (h : Attached (⟨c, s.server.kernel⟩ : World α) r) :
    ∃ k, erase fd s = .ok ⟨⟩ (s.without fd k) ∧ c.context.socket.fd ∉ k.fds ∧
      ∀ ep, k.interest ep c.context.socket.fd = none := by
  have hgone := torn_gone h
  refine ⟨((⟨c, s.server.kernel⟩ : World α).torn r).kernel, ?_, ?_, hgone.interest⟩
  · rw [erase, bind_of_ok (get_run s)]
    simp only [hc, h.destruct_run]
    rfl
  · rw [hgone.fds]
    exact Finset.notMem_erase _ _

/-- Over live connections the first pass erases an element, and the iterator that stood there
is advanced all the same. -/
theorem serverDestructor_stale {c : Conn α} {r : Nat} {rest : List Fd}
    (horder : s.order = fd :: rest) (hc : s.server.contextes fd = some c)
    (h : Attached (⟨c, s.server.kernel⟩ : World α) r) :
    ∃ k, serverDestructor s = .error .useAfterFree (s.without fd k) ∧
      (s.without fd k).order = rest ∧ (s.without fd k).destroyed = fd :: s.destroyed := by
  obtain ⟨k, hrun, _⟩ := erase_run hc h
  refine ⟨k, ?_, ?_, rfl⟩
  · rw [serverDestructor, bind_of_ok (get_run s)]
    exact forEach_stale horder hrun (s.without_order fd k)
  · simp [without, horder]

/-- In a server in step every element of the map is such a connection. -/
theorem serverDestructor_sound (hs : s.server.Sound) {rest : List Fd} (horder : s.order = fd :: rest) :
    ∃ s', serverDestructor s = .error .useAfterFree s' ∧ s'.order = rest ∧
      s'.destroyed = fd :: s.destroyed := by
  obtain ⟨c, hc⟩ := Option.isSome_iff_exists.1 ((s.keys fd).1 (by simp [horder]))
  obtain ⟨k, hrun, hrest⟩ := serverDestructor_stale horder hc (hs.staged fd c hc).attached
  exact ⟨_, hrun, hrest⟩

/-- So the destructor of a server that has run is cut short while it has a connection. -/
theorem serverDestructor_run [Zero α] {n : Nat} {onRecv : Bool} {ls : List (ServerLabel α)}
    (h : Run Server.Step (.create n onRecv) ls s.server) {rest : List Fd}
    (horder : s.order = fd :: rest) :
    ∃ s', serverDestructor s = .error .useAfterFree s' ∧ s'.order = rest ∧
      s'.destroyed = fd :: s.destroyed :=
  serverDestructor_sound (Server.run_sound h).1 horder

theorem serverDestructor_returns_iff (s : Teardown α) :
    (∃ s', serverDestructor s = .ok ⟨⟩ s') ↔ s.order = [] := by
  rw [serverDestructor, bind_of_ok (get_run s)]
  exact forEach_erasing_returns_iff fun _ _ _ => erase_erases

/-- The destructor clears the map exactly if there is nothing in it. -/
theorem serverDestructor_clears_iff (s : Teardown α) : s.Clears ↔ s.order = [] := by
  constructor
  · rintro ⟨s', hrun, _⟩
    exact (serverDestructor_returns_iff s).1 ⟨s', hrun⟩
  · intro hempty
    have hrun : serverDestructor s = .ok ⟨⟩ s := by
      rw [serverDestructor, bind_of_ok (get_run s)]
      exact forEach_nil hempty
    refine ⟨s, hrun, hempty, by simp [hempty], fun fd c hc => ?_⟩
    have hmem : fd ∈ s.order := (s.keys fd).2 (by rw [hc]; rfl)
    rw [hempty] at hmem
    cases hmem

/-- A server with one live connection. -/
def single : Teardown UInt8 where
  server :=
    { reactors := 5
      onRecv := true
      contextes := Function.update (fun _ => none) 5 (some (World.setUp 0 5 true fullOnce).toConn)
      kernel := (World.setUp 0 5 true fullOnce : World UInt8).kernel }
  order := [5]
  destroyed := []
  nodup := List.nodup_singleton 5
  keys := fun fd => by
    by_cases h : fd = 5
    · subst h
      simp
    · simp [h]

/-- All its connections are registered and open. -/
def Live (s : Teardown α) : Prop :=
  ∀ fd c, s.server.contextes fd = some c → Attached (⟨c, s.server.kernel⟩ : World α) (s.server.schedule fd)

theorem single_live : single.Live := by
  intro fd c hc
  by_cases h : fd = 5
  · subst h
    simp only [single, Function.update_self, Option.some.injEq] at hc
    subst hc
    have h0 : Ready (World.setUp 0 5 true fullOnce : World UInt8) 0 :=
      setUp_ready (by decide) true fullOnce
    exact h0.toAttached
  · simp [single, h] at hc

theorem erased_element_is_advanced : ¬ ∀ s : Teardown UInt8, s.Live → s.Clears := by
  intro h
  obtain ⟨s', hrun, _⟩ := h single single_live
  have hempty := (serverDestructor_returns_iff single).1 ⟨s', hrun⟩
  cases hempty

end Teardown
end Netier
