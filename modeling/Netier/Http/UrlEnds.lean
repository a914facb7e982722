import Netier.Http.Url

/-! The strings on which `UrlParser` ends the process instead of saying that they are invalid. -/
namespace Netier.HttpParser
open Lib

section Past
variable {pre pop : List UInt8} {s s' : UrlReader} {ch : UInt8}

/-- Digits are collected from a colon on. -/
def Collected (pre pop : List UInt8) : Prop :=
  (pop = [] ∧ [58] <:+ pre) ∨ ∃ d, isDigit d ∧ [58, d] <:+: pre

/-- What a reader says about the bytes it has read. -/
def Past (pre : List UInt8) (s : UrlReader) : Prop :=
  match s.state with
  | .scheme | .slashAfterScheme1 | .slashAfterScheme2 | .usernameOrHostname =>
    s.portOrPassword = [] ∧ s.url.port = [] ∧ s.url.password = []
  | .portOrPassword => Collected pre s.portOrPassword ∧ s.url.port = [] ∧ s.url.password = []
  | .password => s.portOrPassword = [] ∧ s.url.port = []
  | .hostname => s.portOrPassword = [] ∧ s.url.port = [] ∧ (s.url.hostname = [] → [64] <:+ pre)
  | .ipv6Hostname => s.portOrPassword = [] ∧ [64, 91] <:+ pre
  | .port => Collected pre s.portOrPassword ∧ s.url.port = []
  | .path | .query | .fragment => s.portOrPassword = []

theorem Collected.push (h : Collected pre pop) (hch : isDigit ch) : Collected (pre ++ [ch]) (pop ++ [ch]) := by
  rcases h with ⟨_, before, rfl⟩ | ⟨d, hd, hpart⟩
  · exact .inr ⟨ch, hch, before, [], by simp⟩
  · exact .inr ⟨d, hd, hpart.trans (List.prefix_append _ _).isInfix⟩

theorem suffix_snoc (pre : List UInt8) (c : UInt8) : [c] <:+ pre ++ [c] := List.suffix_append _ _

theorem past_step (hs : Past pre s) (h : s.step ch = .more s') : Past (pre ++ [ch]) s' := by
  obtain ⟨state, url, uoh, pop⟩ := s
  cases state with
  | usernameOrHostname =>
    obtain ⟨hpop, hport, hpassword⟩ := hs
    simp only [UrlReader.step] at h
    split_ifs at h with hbyte hcolon hat hslash <;> cases h
    · exact ⟨hpop, hport, hpassword⟩
    · subst hcolon
      exact ⟨.inl ⟨hpop, suffix_snoc _ _⟩, hport, hpassword⟩
    · subst hat
      exact ⟨hpop, hport, fun _ => suffix_snoc _ _⟩
    · exact hpop
  | password =>
    obtain ⟨hpop, hport⟩ := hs
    simp only [UrlReader.step] at h
    split_ifs at h with hbyte hat <;> cases h
    · exact ⟨hpop, hport⟩
    · subst hat
      exact ⟨hpop, hport, fun _ => suffix_snoc _ _⟩
  | hostname =>
    obtain ⟨hpop, hport, hat⟩ := hs
    simp only [UrlReader.step] at h
    split_ifs at h with hbracket hbyte hcolon hslash <;> cases h
    · obtain ⟨rfl, hempty⟩ : ch = 91 ∧ url.hostname = [] := by simpa using hbracket
      obtain ⟨before, rfl⟩ := hat hempty
      exact ⟨hpop, before, by simp⟩
    · exact ⟨hpop, hport, fun hnil => absurd hnil (by simp)⟩
    · subst hcolon
      exact ⟨.inl ⟨hpop, suffix_snoc _ _⟩, hport⟩
    · exact hpop
  | ipv6Hostname => cases h
  | portOrPassword =>
    obtain ⟨hcollected, hport, hpassword⟩ := hs
    simp only [UrlReader.step] at h
    split_ifs at h with hdigit hslash hbyte <;> cases h
    · exact ⟨hcollected.push hdigit, hport, hpassword⟩
    · exact hport
    · exact ⟨hpassword, hport⟩
  | port =>
    obtain ⟨hcollected, hport⟩ := hs
    simp only [UrlReader.step] at h
    split_ifs at h with hdigit hslash <;> cases h
    · exact ⟨hcollected.push hdigit, hport⟩
    · exact hport
  | fragment =>
    cases h
    exact hs
  | _ =>
    simp only [UrlReader.step] at h
    split_ifs at h <;> cases h <;> exact hs

theorem past_collected (hs : Past pre s) (hpop : s.portOrPassword ≠ []) :
    ∃ d, isDigit d ∧ [58, d] <:+: pre := by
  obtain ⟨state, url, uoh, pop⟩ := s
  have hcollected : Collected pre pop → ∃ d, isDigit d ∧ [58, d] <:+: pre := by
    rintro (⟨hnil, _⟩ | h)
    · exact absurd hnil hpop
    · exact h
  cases state with
  | portOrPassword => exact hcollected hs.1
  | port => exact hcollected hs.1
  | path => exact absurd hs hpop
  | query => exact absurd hs hpop
  | fragment => exact absurd hs hpop
  | _ => exact absurd hs.1 hpop

theorem finish_assertionFailed {valid : Bool} (h : s.finish valid = .assertionFailed) :
    s.portOrPassword ≠ [] := by
  intro hnil
  simp [UrlReader.finish, hnil] at h

theorem step_stop {v : UrlStop} (h : s.step ch = .stop v s') :
    s'.portOrPassword = s.portOrPassword ∧ (v = .abort → s.state = .ipv6Hostname) := by
  obtain ⟨state, url, uoh, pop⟩ := s
  cases state with
  | ipv6Hostname =>
    cases h
    exact ⟨rfl, fun _ => rfl⟩
  | fragment => cases h
  | _ =>
    simp only [UrlReader.step, UrlReader.invalid] at h
    split_ifs at h <;> cases h <;> exact ⟨rfl, nofun⟩

end Past

/-- An assertion fails only if a digit follows a colon, and `abort` is called only if a bracket
follows an at sign. On other strings the parser always comes to a result. -/
theorem url_ends (str : List UInt8) :
    (UrlParser.parse_ str = .assertionFailed → ∃ d, isDigit d ∧ [58, d] <:+: str) ∧
      (UrlParser.parse_ str = .aborted → [64, 91] <:+: str) := by
  have hpast : ∀ pre s, feed UrlReader.step .start pre = .more s → Past pre s := fun pre s h => by
    have hstart : Past [] UrlReader.start := ⟨rfl, rfl, rfl⟩
    simpa using feed_history (fun _ _ _ _ => past_step) hstart h
  rw [UrlParser.parse_]
  cases hfeed : feed UrlReader.step .start str with
  | more s =>
    refine ⟨fun h => past_collected (hpast str s hfeed) (finish_assertionFailed h), fun h => ?_⟩
    simp only [UrlReader.result, UrlReader.finish] at h
    split_ifs at h
  | stop v s =>
    obtain ⟨pre, c, post, a, rfl, hpre, hstop⟩ := feed_stop_inv hfeed
    obtain ⟨hpop, habort⟩ := step_stop hstop
    have hprefix : pre <:+: pre ++ c :: post := (List.prefix_append _ _).isInfix
    cases v with
    | invalid =>
      constructor
      · intro h
        have hne : a.portOrPassword ≠ [] := by rw [← hpop]; exact finish_assertionFailed h
        obtain ⟨d, hd, hpart⟩ := past_collected (hpast pre a hpre) hne
        exact ⟨d, hd, hpart.trans hprefix⟩
      · intro h
        simp only [UrlReader.result, UrlReader.finish] at h
        split_ifs at h
    | abort =>
      refine ⟨nofun, fun _ => ?_⟩
      have ha := hpast pre a hpre
      rw [Past, habort rfl] at ha
      exact ha.2.isInfix.trans hprefix

end Netier.HttpParser
