import Netier.Http.Request
import Netier.Http.Response

/-! What holds in every state a parser can be in: the last header is there when it is used,
the counters are not 0 when they are decremented, and the content fits a vector. -/
namespace Netier.HttpParser
open Lib

/-- Before the body there is no content, and what was announced fits. -/
def Session.Announced (d : Session) : Prop := d.content = [] ∧ d.contentSize.toNat ≤ maxSize

/-- What is left to come fits behind the content. -/
def Session.Room (d : Session) (left : UInt64) : Prop := left ≠ 0 ∧ d.content.length + left.toNat ≤ maxSize

/-- What a state asks of the session. -/
def MessageState.Needs (d : Session) : MessageState → Prop
  | .headerLineStart | .expectingNewline_2 | .expectingNewline_3 => d.Announced
  | .headerLws | .headerName | .spaceBeforeHeaderValue | .headerValue => d.Announced ∧ d.headers ≠ []
  | .post => d.Room d.contentSize
  | .chunkData => d.Room d.chunkSize
  | _ => True

structure Reader.Sound (r : Reader) : Prop where
  content_le : r.2.content.length ≤ maxSize
  size_text : ∀ c ∈ r.2.chunkSizeStr, isalnum c
  needs : r.1.Needs r.2

section Step
variable {memory : Nat → Bool} {framed : Bool} {r r' : Reader} {d d' : Session} {c : UInt8} {w : Verdict}

theorem reserve_le {size n : Nat} (h : reserve memory size n = none) (hsize : size ≤ maxSize) :
    n ≤ maxSize := by
  unfold reserve at h
  split_ifs at h <;> omega

theorem unlessThrown_more {σ : Type} {thrown : Option Verdict} {s next s' : σ}
    (h : unlessThrown thrown s next = .more s') : thrown = none ∧ next = s' := by
  cases thrown with
  | none =>
    cases h
    exact ⟨rfl, rfl⟩
  | some w => cases h

theorem withBack_more {here next : MessageState} {f : HeaderItem → HeaderItem}
    (h : withBack here next d f = .more r') :
    ∃ headers, headers ≠ [] ∧ r' = (next, { d with headers := headers }) := by
  unfold withBack at h
  cases hback : amendBack d.headers f with
  | none =>
    rw [hback] at h
    cases h
  | some headers =>
    rw [hback] at h
    cases h
    refine ⟨headers, ?_, rfl⟩
    obtain ⟨item, _, rfl⟩ := Option.map_eq_some_iff.1 hback
    simp

/-- A header may be added to, or the last one changed. -/
theorem Reader.Sound.with_headers {st next : MessageState} (hr : Reader.Sound (st, d)) (hd : d.Announced)
    {headers : List HeaderItem} (hne : headers ≠ [])
    (hnext : next = .headerName ∨ next = .headerValue) : Reader.Sound (next, { d with headers := headers }) := by
  refine ⟨hr.content_le, hr.size_text, ?_⟩
  rcases hnext with rfl | rfl <;> exact ⟨hd, hne⟩

theorem withBack_sound {st next : MessageState} {f : HeaderItem → HeaderItem} (hr : Reader.Sound (st, d))
    (hd : d.Announced) (hnext : next = .headerName ∨ next = .headerValue)
    (h : withBack st next d f = .more r') : r'.Sound := by
  obtain ⟨headers, hne, rfl⟩ := withBack_more h
  exact hr.with_headers hd hne hnext

theorem headerEnd_sound (hr : Reader.Sound (.headerValue, d)) (h : headerEnd memory d = .more r') : r'.Sound := by
  obtain ⟨hcontent, hannounced⟩ := hr.needs.1
  unfold headerEnd at h
  cases hlast : d.headers.getLast? with
  | none =>
    rw [hlast] at h
    cases h
  | some item =>
    simp only [hlast] at h
    split_ifs at h
    · obtain ⟨hroom, rfl⟩ := unlessThrown_more h
      exact ⟨hr.content_le, hr.size_text, hcontent, reserve_le hroom hr.content_le⟩
    all_goals
      cases h
      exact ⟨hr.content_le, hr.size_text, hcontent, hannounced⟩

theorem toNat_sub_one {left : UInt64} (hne : left ≠ 0) : (left - 1).toNat = left.toNat - 1 := by
  have hle : (1 : UInt64) ≤ left := by
    have hpos := toNat_pos hne
    rw [UInt64.le_iff_toNat_le]
    simpa using Nat.succ_le_of_lt hpos
  rw [UInt64.toNat_sub_of_le _ _ hle]
  rfl

/-- One more byte of a counted part. -/
theorem room_step {left : UInt64} (h : d.Room left) (c : UInt8) :
    (d.content ++ [c]).length ≤ maxSize ∧ (d.content ++ [c]).length + (left - 1).toNat ≤ maxSize := by
  have hpos := toNat_pos h.1
  have hle := h.2
  rw [toNat_sub_one h.1, List.length_append, List.length_singleton]
  omega

theorem post_sound (hr : Reader.Sound (.post, d)) (h : consumeMessage memory framed (.post, d) c = .more r') :
    r'.Sound := by
  obtain ⟨hcontent, hroom⟩ := room_step hr.needs c
  simp only [consumeMessage] at h
  split_ifs at h with hzero
  cases h
  exact ⟨hcontent, hr.size_text, hzero, hroom⟩

theorem chunkData_sound (hr : Reader.Sound (.chunkData, d))
    (h : consumeMessage memory framed (.chunkData, d) c = .more r') : r'.Sound := by
  obtain ⟨hcontent, hroom⟩ := room_step hr.needs c
  simp only [consumeMessage] at h
  split_ifs at h with hzero <;> cases h
  · exact ⟨hcontent, hr.size_text, trivial⟩
  · exact ⟨hcontent, hr.size_text, hzero, hroom⟩

theorem chunkSizeNewLine_sound (hr : Reader.Sound (.chunkSizeNewLine, d))
    (h : consumeMessage memory framed (.chunkSizeNewLine, d) c = .more r') : r'.Sound := by
  simp only [consumeMessage] at h
  split_ifs at h with hlf hzero
  · obtain ⟨_, rfl⟩ := unlessThrown_more h
    exact ⟨hr.content_le, by simp, trivial⟩
  · obtain ⟨hroom, rfl⟩ := unlessThrown_more h
    exact ⟨hr.content_le, by simp, hzero, reserve_le hroom hr.content_le⟩

theorem expectingNewline_3_sound (hr : Reader.Sound (.expectingNewline_3, d))
    (h : consumeMessage memory framed (.expectingNewline_3, d) c = .more r') : r'.Sound := by
  obtain ⟨hcontent, hannounced⟩ := hr.needs
  simp only [consumeMessage] at h
  split_ifs at h with hchunked hsize hc <;> cases h
  · exact ⟨hr.content_le, hr.size_text, trivial⟩
  · have hroom : d.content.length + d.contentSize.toNat ≤ maxSize := by
      rw [hcontent]
      simpa using hannounced
    exact ⟨hr.content_le, hr.size_text, hsize, hroom⟩

/-- One byte keeps it. -/
theorem consumeMessage_sound {st : MessageState} (hr : Reader.Sound (st, d))
    (h : consumeMessage memory framed (st, d) c = .more r') : r'.Sound := by
  cases st with
  | headerLineStart =>
    have hd : d.Announced := hr.needs
    simp only [consumeMessage] at h
    split_ifs at h with hcr hfold <;> cases h
    · exact ⟨hr.content_le, hr.size_text, hd⟩
    · rw [Bool.and_eq_true] at hfold
      exact ⟨hr.content_le, hr.size_text, hd, by simpa using hfold.1⟩
    · exact hr.with_headers hd (by simp) (.inl rfl)
  | headerLws =>
    simp only [consumeMessage] at h
    split_ifs at h
    · cases h
      exact ⟨hr.content_le, hr.size_text, hr.needs.1⟩
    · cases h
      exact hr
    · exact withBack_sound hr hr.needs.1 (.inr rfl) h
  | headerName =>
    simp only [consumeMessage] at h
    split_ifs at h
    · cases h
      exact ⟨hr.content_le, hr.size_text, hr.needs⟩
    · exact withBack_sound hr hr.needs.1 (.inl rfl) h
  | spaceBeforeHeaderValue =>
    simp only [consumeMessage] at h
    split_ifs at h
    cases h
    exact ⟨hr.content_le, hr.size_text, hr.needs⟩
  | headerValue =>
    simp only [consumeMessage] at h
    split_ifs at h
    · exact headerEnd_sound hr h
    · cases h
      exact ⟨hr.content_le, hr.size_text, hr.needs.1⟩
    · exact withBack_sound hr hr.needs.1 (.inr rfl) h
  | expectingNewline_2 =>
    simp only [consumeMessage] at h
    split_ifs at h
    cases h
    exact ⟨hr.content_le, hr.size_text, hr.needs⟩
  | expectingNewline_3 => exact expectingNewline_3_sound hr h
  | post => exact post_sound hr h
  | chunkSize =>
    simp only [consumeMessage] at h
    split_ifs at h with halnum <;> cases h
    · refine ⟨hr.content_le, ?_, trivial⟩
      simpa [or_imp, forall_and, halnum] using hr.size_text
    all_goals exact ⟨hr.content_le, hr.size_text, trivial⟩
  | chunkSizeNewLine => exact chunkSizeNewLine_sound hr h
  | chunkData => exact chunkData_sound hr h
  | _ =>
    simp only [consumeMessage] at h
    split_ifs at h <;> cases h <;> exact ⟨hr.content_le, hr.size_text, trivial⟩

theorem reserve_ne_undefined (size n : Nat) : reserve memory size n ≠ some .undefined := by
  unfold reserve
  split_ifs <;> simp

theorem unlessThrown_stop {σ : Type} {thrown : Option Verdict} {s next s' : σ}
    (h : unlessThrown thrown s next = .stop w s') : thrown = some w := by
  cases thrown with
  | none => cases h
  | some v =>
    cases h
    rfl

theorem withBack_defined {here next : MessageState} {f : HeaderItem → HeaderItem} (hne : d.headers ≠ []) :
    withBack here next d f ≠ .stop .undefined r' := by
  simp [withBack, amendBack, List.getLast?_eq_some_getLast hne]

theorem headerEnd_defined (hne : d.headers ≠ []) : headerEnd memory d ≠ .stop .undefined r' := by
  intro h
  simp only [headerEnd, List.getLast?_eq_some_getLast hne] at h
  split_ifs at h
  · exact reserve_ne_undefined _ _ (unlessThrown_stop h)

/-- And nothing is undefined where it holds. -/
theorem consumeMessage_defined {st : MessageState} (hr : Reader.Sound (st, d)) :
    consumeMessage memory framed (st, d) c ≠ .stop .undefined r' := by
  intro h
  cases st with
  | headerLws =>
    simp only [consumeMessage] at h
    split_ifs at h
    · cases h
    · exact withBack_defined hr.needs.2 h
  | headerName =>
    simp only [consumeMessage] at h
    split_ifs at h
    · cases h
    · exact withBack_defined hr.needs.2 h
  | headerValue =>
    simp only [consumeMessage] at h
    split_ifs at h
    · exact headerEnd_defined hr.needs.2 h
    · cases h
    · exact withBack_defined hr.needs.2 h
  | chunkSizeNewLine =>
    simp only [consumeMessage] at h
    split_ifs at h
    · exact reserve_ne_undefined _ _ (unlessThrown_stop h)
    · exact reserve_ne_undefined _ _ (unlessThrown_stop h)
    · cases h
  | _ =>
    simp only [consumeMessage] at h
    split_ifs at h <;> cases h

end Step

section Sizes

theorem sign_nonneg {s : List UInt8} (hs : ∀ c ∈ s, c ≠ 45) : (sign s).1 = false := by
  unfold sign
  split
  · exact absurd rfl (hs 45 (by simp))
  · rfl
  · rfl

/-- Letters and digits never make a negative number. -/
theorem strtol_bounds (base : Nat) {s : List UInt8} (hs : ∀ c ∈ s, isalnum c) :
    0 ≤ strtol base s ∧ strtol base s ≤ longMax := by
  have hsign : (sign ((cstr s).dropWhile isspace)).1 = false := by
    refine sign_nonneg fun c hc => ?_
    have halnum := hs c ((List.takeWhile_sublist _).subset ((List.dropWhile_sublist _).subset hc))
    rintro rfl
    exact absurd halnum (by decide)
  have hlong : 0 ≤ longMax := by decide
  simp only [strtol, hsign, Bool.false_eq_true, if_false]
  omega

/-- The sum that `reserve` is asked for does not wrap around. -/
theorem Reader.Sound.no_wrap {r : Reader} (hr : r.Sound) :
    r.2.content.length + (UInt64.ofInt (strtol 16 r.2.chunkSizeStr)).toNat < 2 ^ 64 := by
  obtain ⟨hnonneg, hle⟩ := strtol_bounds 16 hr.size_text
  have hcontent := hr.content_le
  obtain ⟨n, hn⟩ := Int.eq_ofNat_of_zero_le hnonneg
  unfold maxSize at hcontent
  unfold longMax at hle
  rw [hn, toNat_ofInt (by omega)]
  omega

end Sizes
/-- Nothing of the message has been read. -/
def Fresh (m : Message) (f : Framing) : Prop := m.headers = [] ∧ m.content = [] ∧ f = Framing.empty

theorem Fresh.sound {m : Message} {f : Framing} (h : Fresh m f) : Reader.Sound (.headerLineStart, ⟨m, f⟩) := by
  obtain ⟨_, hcontent, rfl⟩ := h
  exact ⟨by simp [hcontent], by simp [Framing.empty], hcontent, by simp [Framing.empty]⟩

/-- The size that the next chunk asks for, before the addition is cut down to a `size_t`. -/
def requested (m : Message) (f : Framing) : Nat :=
  m.content.length + (UInt64.ofInt (strtol 16 f.chunkSizeStr)).toNat

section Request
variable {memory : Nat → Bool} {p p' : HttpRequestParser} {req req' : Request} {c : UInt8}

def RequestSound (s : HttpRequestParser × Request) : Prop :=
  match s.1.state with
  | .common st => Reader.Sound (st, ⟨s.2.toMessage, s.1.toFraming⟩)
  | _ => Fresh s.2.toMessage s.1.toFraming

theorem RequestSound.requested_lt {s : HttpRequestParser × Request} (hs : RequestSound s) :
    requested s.2.toMessage s.1.toFraming < 2 ^ 64 := by
  obtain ⟨⟨framing, state⟩, req⟩ := s
  cases state with
  | common st => exact Reader.Sound.no_wrap hs
  | _ => exact (Fresh.sound hs).no_wrap

/-- With the next digit of a version number, as a character, the sum leads out of an `int`. -/
def RequestOverflow (c : UInt8) (s : HttpRequestParser × Request) : Prop :=
  isDigit c ∧ (s.1.state = .requestHttpVersion_major ∧ intMax < s.2.versionMajor * 10 + c.toNat ∨
    s.1.state = .requestHttpVersion_minor ∧ intMax < s.2.versionMinor * 10 + c.toNat)

theorem request_step_sound {s s' : HttpRequestParser × Request} (hs : RequestSound s)
    (h : HttpRequestParser.consume memory s c = .more s') : RequestSound s' := by
  obtain ⟨⟨framing, state⟩, req⟩ := s
  cases state with
  | common st =>
    obtain ⟨r', hr', rfl⟩ := map_more_iff.1 h
    exact consumeMessage_sound hs hr'
  | responseHttpVersion_newLine =>
    simp only [HttpRequestParser.consume, HttpRequestParser.expect] at h
    split_ifs at h
    cases h
    exact Fresh.sound hs
  | requestHttpVersion_major =>
    simp only [HttpRequestParser.consume] at h
    split_ifs at h
    · cases h
      exact hs
    · split at h <;> cases h
      exact hs
  | requestHttpVersion_minor =>
    simp only [HttpRequestParser.consume] at h
    split_ifs at h
    · cases h
      exact hs
    · split at h <;> cases h
      exact hs
  | _ =>
    simp only [HttpRequestParser.consume, HttpRequestParser.expect] at h
    split_ifs at h <;> cases h <;> exact hs

theorem request_step_defined {s s' : HttpRequestParser × Request} (hs : RequestSound s)
    (h : HttpRequestParser.consume memory s c = .stop .undefined s') : s' = s ∧ RequestOverflow c s := by
  obtain ⟨⟨framing, state⟩, req⟩ := s
  cases state with
  | common st =>
    obtain ⟨r', hr', rfl⟩ := map_stop_iff.1 h
    exact absurd hr' (consumeMessage_defined hs)
  | requestHttpVersion_major =>
    simp only [HttpRequestParser.consume] at h
    split_ifs at h with _ hc
    · split at h <;> cases h
      exact ⟨rfl, hc, .inl ⟨rfl, versionDigit_none ‹_›⟩⟩
    · cases h
  | requestHttpVersion_minor =>
    simp only [HttpRequestParser.consume] at h
    split_ifs at h with _ hc
    · split at h <;> cases h
      exact ⟨rfl, hc, .inr ⟨rfl, versionDigit_none ‹_›⟩⟩
    · cases h
  | _ =>
    simp only [HttpRequestParser.consume, HttpRequestParser.expect] at h
    split_ifs at h <;> cases h

/-- On any input, in any pieces: in every state that is reached before the parser stops, the last
header is there when it is used, counters are positive, the content has room and the size of the
next chunk can be added to it; and, with glibc as the C library, nothing is undefined but the sum
for a digit of a version number that is beyond an `int`. -/
theorem request_safe (memory : Nat → Bool) (pieces : List (List UInt8)) (s : HttpRequestParser × Request) :
    (feedAll (HttpRequestParser.consume memory) requestStart pieces = .more s →
      RequestSound s ∧ requested s.2.toMessage s.1.toFraming < 2 ^ 64) ∧
    (feedAll (HttpRequestParser.consume memory) requestStart pieces = .stop .undefined s →
      ∃ c ∈ pieces.flatten, RequestOverflow c s) := by
  have hstart : RequestSound requestStart := ⟨rfl, rfl, rfl⟩
  rw [feedAll_eq]
  constructor
  · intro h
    have hs := feed_invariant (fun a c a' => request_step_sound) hstart h
    exact ⟨hs, hs.requested_lt⟩
  · intro h
    obtain ⟨pre, c, post, a, hsplit, hpre, hstop⟩ := feed_stop_inv h
    have ha := feed_invariant (fun a c a' => request_step_sound) hstart hpre
    obtain ⟨rfl, hover⟩ := request_step_defined ha hstop
    exact ⟨c, by simp [hsplit], hover⟩

end Request
section Response
variable {memory : Nat → Bool} {c : UInt8}

def ResponseSound (s : HttpResponseParser × Response) : Prop :=
  match s.1.state with
  | .common st => Reader.Sound (st, ⟨s.2.toMessage, s.1.toFraming⟩)
  | _ => Fresh s.2.toMessage s.1.toFraming

theorem ResponseSound.requested_lt {s : HttpResponseParser × Response} (hs : ResponseSound s) :
    requested s.2.toMessage s.1.toFraming < 2 ^ 64 := by
  obtain ⟨⟨framing, state⟩, resp⟩ := s
  cases state with
  | common st => exact Reader.Sound.no_wrap hs
  | _ => exact (Fresh.sound hs).no_wrap

def ResponseOverflow (c : UInt8) (s : HttpResponseParser × Response) : Prop :=
  isDigit c ∧ (s.1.state = .responseHttpVersion_major ∧ intMax < s.2.versionMajor * 10 + c.toNat ∨
    s.1.state = .responseHttpVersion_minor ∧ intMax < s.2.versionMinor * 10 + c.toNat)

theorem response_step_sound {s s' : HttpResponseParser × Response} (hs : ResponseSound s)
    (h : HttpResponseParser.consume memory s c = .more s') : ResponseSound s' := by
  obtain ⟨⟨framing, state⟩, resp⟩ := s
  cases state with
  | common st =>
    obtain ⟨r', hr', rfl⟩ := map_more_iff.1 h
    exact consumeMessage_sound hs hr'
  | responseHttpVersion_newLine =>
    simp only [HttpResponseParser.consume, HttpResponseParser.expect] at h
    split_ifs at h
    cases h
    exact Fresh.sound hs
  | responseHttpVersion_major =>
    simp only [HttpResponseParser.consume] at h
    split_ifs at h
    · cases h
      exact hs
    · split at h <;> cases h
      exact hs
  | responseHttpVersion_minor =>
    simp only [HttpResponseParser.consume] at h
    split_ifs at h
    · cases h
      exact hs
    · split at h <;> cases h
      exact hs
  | _ =>
    simp only [HttpResponseParser.consume, HttpResponseParser.expect] at h
    split_ifs at h <;> cases h <;> exact hs

theorem response_step_defined {s s' : HttpResponseParser × Response} (hs : ResponseSound s)
    (h : HttpResponseParser.consume memory s c = .stop .undefined s') : s' = s ∧ ResponseOverflow c s := by
  obtain ⟨⟨framing, state⟩, resp⟩ := s
  cases state with
  | common st =>
    obtain ⟨r', hr', rfl⟩ := map_stop_iff.1 h
    exact absurd hr' (consumeMessage_defined hs)
  | responseHttpVersion_major =>
    simp only [HttpResponseParser.consume] at h
    split_ifs at h with _ hc
    · split at h <;> cases h
      exact ⟨rfl, hc, .inl ⟨rfl, versionDigit_none ‹_›⟩⟩
    · cases h
  | responseHttpVersion_minor =>
    simp only [HttpResponseParser.consume] at h
    split_ifs at h with _ hc
    · split at h <;> cases h
      exact ⟨rfl, hc, .inr ⟨rfl, versionDigit_none ‹_›⟩⟩
    · cases h
  | _ =>
    simp only [HttpResponseParser.consume, HttpResponseParser.expect] at h
    split_ifs at h <;> cases h

/-- The same of responses. -/
theorem response_safe (memory : Nat → Bool) (pieces : List (List UInt8)) (s : HttpResponseParser × Response) :
    (feedAll (HttpResponseParser.consume memory) responseStart pieces = .more s →
      ResponseSound s ∧ requested s.2.toMessage s.1.toFraming < 2 ^ 64) ∧
    (feedAll (HttpResponseParser.consume memory) responseStart pieces = .stop .undefined s →
      ∃ c ∈ pieces.flatten, ResponseOverflow c s) := by
  have hstart : ResponseSound responseStart := ⟨rfl, rfl, rfl⟩
  rw [feedAll_eq]
  constructor
  · intro h
    have hs := feed_invariant (fun a c a' => response_step_sound) hstart h
    exact ⟨hs, hs.requested_lt⟩
  · intro h
    obtain ⟨pre, c, post, a, hsplit, hpre, hstop⟩ := feed_stop_inv h
    have ha := feed_invariant (fun a c a' => response_step_sound) hstart hpre
    obtain ⟨rfl, hover⟩ := response_step_defined ha hstop
    exact ⟨c, by simp [hsplit], hover⟩

end Response
end Netier.HttpParser
