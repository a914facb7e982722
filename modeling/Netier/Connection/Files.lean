import Netier.Connection.QueuedOutput

/-! `writeFile` against the file itself: `fread` may reach the end of the file or fail on
the way, and returns 0 for both. -/
namespace Netier
open Lib

/-- A file and what one reading of it stores, up to its end or to a read error. -/
structure File (α : Type) where
  content : List α
  stream : FileStream α
  failed : Bool
  reads : stream.content <+: content
  complete : failed = false → stream.content = content

variable {α : Type} [Zero α] {w : World α}

/-- Either the call succeeds and the whole file has joined the queue, or it reports a file
error and nothing of the file is queued or sent. -/
def AllOrNothing (w : World α) (file : Option (File α)) : Prop :=
  ∃ ret w', writeFile (file.map File.stream) w = .ok ret w' ∧
    (ret = .success ∧ (∃ f, file = some f ∧ Emitted w w' [] f.content) ∨
      ret = .fileError ∧ w'.output = w.output ∧ w'.context.state = w.context.state)

/-- Without a file there is nothing to read. -/
theorem missing_allOrNothing (h : Open w) : AllOrNothing w none :=
  ⟨.fileError, w, writeFile_missing h, .inr ⟨rfl, rfl, rfl⟩⟩

/-- An open file is never reported as an error: what was read is what is queued. -/
theorem file_allOrNothing_iff (h : Open w) (hfd : 0 < w.context.socket.fd) (hf : w.Fits)
    (f : File α) : AllOrNothing w (some f) ↔ f.stream.content = f.content := by
  obtain ⟨w', hrun, hemitted⟩ := writeFile_run h hfd f.stream
  have hread := (hemitted hf).contents
  constructor
  · rintro ⟨ret, w'', hrun', hkept⟩
    rw [Option.map_some, hrun] at hrun'
    cases hrun'
    rcases hkept with ⟨_, f', hsome, hall⟩ | ⟨hfail, _⟩
    · cases hsome
      rw [hall.contents] at hread
      exact (List.append_cancel_left hread).symm
    · cases hfail
  · intro hall
    refine ⟨.success, w', hrun, .inl ⟨rfl, f, rfl, ?_⟩⟩
    rw [← hall]
    exact hemitted hf

/-- A file that was read to its end is queued whole. -/
theorem File.allOrNothing (f : File α) (h : Open w) (hfd : 0 < w.context.socket.fd) (hf : w.Fits)
    (hend : f.failed = false) : AllOrNothing w (some f) :=
  (file_allOrNothing_iff h hfd hf f).2 (f.complete hend)

/-- The call is all or nothing exactly if reading an open file stops only behind its last
byte. -/
theorem writeFile_allOrNothing_iff (h : Open w) (hfd : 0 < w.context.socket.fd) (hf : w.Fits)
    (file : Option (File α)) :
    AllOrNothing w file ↔ ∀ f, file = some f → f.stream.content = f.content := by
  cases file with
  | none => exact iff_of_true (missing_allOrNothing h) fun _ hsome => nomatch hsome
  | some f =>
    rw [file_allOrNothing_iff h hfd hf f]
    constructor
    · rintro hall _ ⟨⟩
      exact hall
    · exact fun hall => hall f rfl

/-- The first byte of two is read, and then the disk fails. -/
def torn : File UInt8 where
  content := [3, 4]
  stream := ⟨[⟨[3], by decide, by decide⟩]⟩
  failed := true
  reads := by decide
  complete := by decide

theorem torn_file_is_reported_as_sent :
    ¬ ∀ (w : World UInt8) (file : Option (File UInt8)), Open w → 0 < w.context.socket.fd → w.Fits →
      AllOrNothing w file := by
  intro h
  have h0 : Ready (World.setUp 0 5 true fullOnce : World UInt8) 0 :=
    setUp_ready (by decide) true fullOnce
  have hall := (file_allOrNothing_iff h0.open h0.positive (fullOnce_fits 0 5 true) torn).1
    (h _ (some torn) h0.open h0.positive (fullOnce_fits 0 5 true))
  exact absurd hall (by decide)

theorem writeFile_allOrNothing_for_torn :
    AllOrNothing (World.setUp 0 5 true fullOnce) (some torn) ↔
      ∀ f, some torn = some f → f.stream.content = f.content := by
  have h0 : Ready (World.setUp 0 5 true fullOnce : World UInt8) 0 :=
    setUp_ready (by decide) true fullOnce
  exact writeFile_allOrNothing_iff h0.open h0.positive (fullOnce_fits 0 5 true) _

end Netier
