import Netier.Http.Response

/-! The complete responses as texts. The parser completes on them and on nothing else. -/
namespace Netier.HttpParser
open Lib

/-- Three parts of a status line: version, code and text. -/
structure StatusLine where
  major : VersionNumber
  minor : VersionNumber
  code : List UInt8
  status : List UInt8
  code_ne : code ≠ []
  code_text : ∀ c ∈ code, isDigit c
  status_ne : status ≠ []
  status_head : ∀ c ∈ status.head?, isChar c
  status_tail : ∀ c ∈ status.tail, isChar c ∧ c ≠ cr

/-- The code as it is collected, in 32 bits. -/
def StatusLine.statusCode (l : StatusLine) : UInt32 := UInt32.ofNat (numeral 10 l.code)

structure ResponseText where
  line : StatusLine
  message : MessageText

def StatusLine.print (l : StatusLine) : List UInt8 :=
  printVersion l.major l.minor ++ space :: (l.code ++ space :: l.status)

def ResponseText.print (t : ResponseText) : List UInt8 := t.line.print ++ (crlf ++ t.message.print)

def StatusLine.response (l : StatusLine) : Response :=
  ⟨{ Message.empty with versionMajor := l.major.value, versionMinor := l.minor.value }, l.statusCode, l.status⟩

/-- The code has to have three digits once the number has been cut down to 32 bits. -/
def ResponseText.read (memory : Nat → Bool) (t : ResponseText) : Option (HttpResponseParser × Response) :=
  if 100 ≤ t.line.statusCode ∧ t.line.statusCode ≤ 999 then
    (t.message.read memory true t.line.response.toMessage).map t.line.response.embed
  else none

/-- A response parser that has not reached the header lines. -/
abbrev responseIn (state : ResponseState) : HttpResponseParser := ⟨Framing.empty, state⟩

section Steps
variable {memory : Nat → Bool} {resp : Response} {bs left : List UInt8} {t : HttpResponseParser × Response}

abbrev ResponseCompletes (memory : Nat → Bool) (state : ResponseState) (resp : Response) (bs : List UInt8)
    (t : HttpResponseParser × Response) (left : List UInt8) : Prop :=
  feedRest (HttpResponseParser.consume memory) (responseIn state, resp) bs = .stop (.completed, left) t

theorem rejects_response {s : HttpResponseParser × Response} {c : UInt8}
    (h : HttpResponseParser.consume memory s c = .stop .error s) :
    Rejects (HttpResponseParser.consume memory) .completed s c :=
  ⟨.error, s, h, by decide⟩

theorem rejects_response_expect {p : HttpResponseParser} {next : ResponseState} {e c : UInt8}
    (h : HttpResponseParser.consume memory (p, resp) c = p.expect resp e c next) (hc : c ≠ e) :
    Rejects (HttpResponseParser.consume memory) .completed (p, resp) c :=
  rejects_response (by rw [h, HttpResponseParser.expect, if_neg hc])

/-- The letters before the version. -/
theorem responseHttp_spells : Spells (HttpResponseParser.consume memory) .completed
    (responseIn .responseStatusStart, resp) (ascii "HTTP/")
    (responseIn .responseHttpVersion_majorStart, { resp with versionMajor := 0, versionMinor := 0 }) := by
  refine ⟨_, rfl, fun c hc => rejects_response_expect rfl hc, ?_⟩
  refine ⟨_, rfl, fun c hc => rejects_response_expect rfl hc, ?_⟩
  refine ⟨_, rfl, fun c hc => rejects_response_expect rfl hc, ?_⟩
  refine ⟨_, rfl, fun c hc => rejects_response_expect rfl hc, ?_⟩
  exact ⟨_, rfl, fun c hc => rejects_response (if_neg hc), rfl⟩

theorem responseMajor_iff : ResponseCompletes memory .responseHttpVersion_majorStart resp bs t left ↔
    ∃ (major : VersionNumber) (rest : List UInt8), bs = major.digits ++ 46 :: rest ∧
      ResponseCompletes memory .responseHttpVersion_minorStart { resp with versionMajor := major.value } rest t left :=
  version_iff (fun v => (responseIn .responseHttpVersion_major, { resp with versionMajor := v }))
    (fun v => (responseIn .responseHttpVersion_minorStart, { resp with versionMajor := v }))
    (by decide) (fun _ => rfl) (fun _ _ => rfl)

theorem responseMinor_iff : ResponseCompletes memory .responseHttpVersion_minorStart resp bs t left ↔
    ∃ (minor : VersionNumber) (rest : List UInt8), bs = minor.digits ++ space :: rest ∧
      ResponseCompletes memory .responseHttpVersion_statusCodeStart
        { resp with versionMinor := minor.value, statusCode := 0 } rest t left :=
  version_iff (fun v => (responseIn .responseHttpVersion_minor, { resp with versionMinor := v }))
    (fun v => (responseIn .responseHttpVersion_statusCodeStart, { resp with versionMinor := v, statusCode := 0 }))
    (by decide) (fun _ => rfl) (fun _ _ => rfl)

theorem statusDigit_ofNat (n : Nat) {c : UInt8} (hc : isDigit c) :
    statusDigit (UInt32.ofNat n) c = UInt32.ofNat (n * 10 + digitValue c) := by
  have hb := isDigit_bounds hc
  have hsum : n * 10 + digitValue c + 48 = n * 10 + c.toNat := by
    rw [digitValue_of_isDigit hc]
    omega
  calc statusDigit (UInt32.ofNat n) c
      = UInt32.ofNat (n * 10 + c.toNat) - 48 := by
        rw [UInt32.ofNat_add, UInt32.ofNat_mul]
        simp [statusDigit]
    _ = UInt32.ofNat (n * 10 + digitValue c + 48) - 48 := by rw [hsum]
    _ = UInt32.ofNat (n * 10 + digitValue c) + 48 - 48 := by
        rw [UInt32.ofNat_add (n * 10 + digitValue c)]
        rfl
    _ = UInt32.ofNat (n * 10 + digitValue c) := by simp

/-- The code is collected modulo `2 ^ 32`. -/
theorem foldl_statusDigit (run : List UInt8) (n : Nat) (hrun : ∀ c ∈ run, isDigit c) :
    run.foldl statusDigit (UInt32.ofNat n) =
      UInt32.ofNat (run.foldl (fun n c => n * 10 + digitValue c) n) := by
  induction run generalizing n with
  | nil => rfl
  | cons c run ih =>
    obtain ⟨hc, hrun⟩ := List.forall_mem_cons.1 hrun
    rw [List.foldl_cons, List.foldl_cons, statusDigit_ofNat n hc, ih _ hrun]

theorem numeral_cons {c : UInt8} (hc : isDigit c) {run : List UInt8} (hrun : ∀ c ∈ run, isDigit c) :
    run.foldl statusDigit (c.toUInt32 - 48) = UInt32.ofNat (numeral 10 (c :: run)) := by
  have hfirst : c.toUInt32 - 48 = UInt32.ofNat (digitValue c) := by
    have h := statusDigit_ofNat 0 hc
    simpa [statusDigit] using h
  rw [hfirst, foldl_statusDigit run _ hrun]
  simp [numeral]

/-- A code of three digits is asked for when the first other byte has come. -/
theorem statusCode_iff (code : UInt32) :
    ResponseCompletes memory .responseHttpVersion_statusCode { resp with statusCode := code } bs t left ↔
      ∃ run rest, bs = run ++ space :: rest ∧ (∀ c ∈ run, isDigit c) ∧
        (100 ≤ run.foldl statusDigit code ∧ run.foldl statusDigit code ≤ 999) ∧
        ResponseCompletes memory .responseHttpVersion_statusTextStart
          { resp with statusCode := run.foldl statusDigit code } rest t left := by
  refine (stop_loop_iff (fun c => isDigit c)
    (fun v => (responseIn .responseHttpVersion_statusCode, { resp with statusCode := v })) statusDigit
    ?loop code).trans ?_
  case loop =>
    intro v c hc
    simp [HttpResponseParser.consume, hc]
  constructor
  · rintro ⟨run, c, rest, rfl, hrun, hc, h⟩
    by_cases hrange : 100 ≤ run.foldl statusDigit code ∧ run.foldl statusDigit code ≤ 999
    · have hrange' : ¬ (run.foldl statusDigit code < 100 ∨ run.foldl statusDigit code > 999) := by
        simpa [not_or] using hrange
      by_cases hspace : c = space
      · subst hspace
        rw [rest_cons_more (by
          simp only [HttpResponseParser.consume, if_neg hc, if_neg hrange']
          rfl)] at h
        exact ⟨run, rest, rfl, hrun, hrange, h⟩
      · refine absurd h (Rejects.not_stop (rejects_response ?_) rest)
        simp only [HttpResponseParser.consume, if_neg hc, if_neg hrange', HttpResponseParser.expect, if_neg hspace]
    · have hrange' : run.foldl statusDigit code < 100 ∨ run.foldl statusDigit code > 999 := by
        simpa only [not_and_or, UInt32.not_le] using hrange
      refine absurd h (Rejects.not_stop (rejects_response ?_) rest)
      simp only [HttpResponseParser.consume, if_neg hc, if_pos hrange']
  · rintro ⟨run, rest, rfl, hrun, hrange, h⟩
    have hrange' : ¬ (run.foldl statusDigit code < 100 ∨ run.foldl statusDigit code > 999) := by
      simpa [not_or] using hrange
    refine ⟨run, space, rest, rfl, hrun, by decide, ?_⟩
    rw [rest_cons_more (by
      simp only [HttpResponseParser.consume, show ¬ isDigit space = true by decide, if_neg hrange']
      rfl)]
    exact h

theorem statusText_iff (status : List UInt8) :
    ResponseCompletes memory .responseHttpVersion_statusText { resp with status := status } bs t left ↔
      ∃ run rest, bs = run ++ (crlf ++ rest) ∧ (∀ c ∈ run, isChar c ∧ c ≠ cr) ∧
        ResponseCompletes memory (.common .headerLineStart) { resp with status := status ++ run } rest t left := by
  have hcr : ∀ status, HttpResponseParser.consume memory
      (responseIn .responseHttpVersion_statusText, { resp with status := status }) cr =
        .more (responseIn .responseHttpVersion_newLine, { resp with status := status }) := fun _ => rfl
  have hlf : ∀ resp bs, ResponseCompletes memory .responseHttpVersion_newLine resp bs t left ↔
      ∃ rest, bs = lf :: rest ∧
        ResponseCompletes memory (.common .headerLineStart) resp rest t left := fun resp bs =>
    stop_expect_iff rfl fun c hc => rejects_response_expect rfl hc
  refine (stop_collect_until_iff (fun c => isChar c ∧ c ≠ cr)
    (fun s => (responseIn .responseHttpVersion_statusText, { resp with status := s })) cr
    ?loop (by decide) ?leave status).trans ?_
  case loop =>
    intro s c ⟨hc, hne⟩
    simp [HttpResponseParser.consume, hc, hne]
  case leave =>
    intro s c hc hne
    have hc' : isChar c = false := by simpa [hne] using hc
    exact rejects_response (by simp [HttpResponseParser.consume, hc', hne])
  simp only [rest_cons_more (hcr _), hlf]
  constructor
  · rintro ⟨run, _, rfl, hrun, rest, rfl, h⟩
    exact ⟨run, rest, rfl, hrun, h⟩
  · rintro ⟨run, rest, rfl, hrun, h⟩
    exact ⟨run, lf :: rest, rfl, hrun, rest, rfl, h⟩

/-- From the header lines on the part that requests share does the work. -/
theorem response_embed_iff {w : Verdict × List UInt8} (r : Reader) :
    feedRest (HttpResponseParser.consume memory) (resp.embed r) bs = .stop w t ↔
      ∃ t', feedRest (consumeMessage memory true) r bs = .stop w t' ∧ resp.embed t' = t := by
  have hmap : feedRest (HttpResponseParser.consume memory) (resp.embed r) bs =
      (feedRest (consumeMessage memory true) r bs).map resp.embed := rest_map (fun _ _ => rfl) r bs
  rw [hmap, map_stop_iff]

theorem responseCommon_iff : ResponseCompletes memory (.common .headerLineStart) resp bs t left ↔
    ∃ t', Accepts memory true (.headerLineStart, ⟨resp.toMessage, Framing.empty⟩) bs t' left ∧
      resp.embed t' = t :=
  response_embed_iff (.headerLineStart, ⟨resp.toMessage, Framing.empty⟩)

end Steps

section Responses
variable {memory : Nat → Bool} {bs left : List UInt8} {t : HttpResponseParser × Response}

/-- The code of a status line, from its first digit on. -/
theorem statusCodeStart_iff {resp : Response} :
    ResponseCompletes memory .responseHttpVersion_statusCodeStart resp bs t left ↔
      ∃ code rest, bs = code ++ space :: rest ∧ code ≠ [] ∧ (∀ c ∈ code, isDigit c) ∧
        (100 ≤ UInt32.ofNat (numeral 10 code) ∧ UInt32.ofNat (numeral 10 code) ≤ 999) ∧
        ResponseCompletes memory .responseHttpVersion_statusTextStart
          { resp with statusCode := UInt32.ofNat (numeral 10 code) } rest t left := by
  have hstart : ∀ c, isDigit c → HttpResponseParser.consume memory
      (responseIn .responseHttpVersion_statusCodeStart, resp) c =
        .more (responseIn .responseHttpVersion_statusCode, { resp with statusCode := c.toUInt32 - 48 }) :=
    fun c hc => by simp [HttpResponseParser.consume, hc]
  constructor
  · intro h
    cases bs with
    | nil => exact absurd h stop_nil
    | cons c bs =>
      by_cases hc : isDigit c
      · rw [ResponseCompletes, rest_cons_more (hstart c hc)] at h
        obtain ⟨run, rest, rfl, hrun, hrange, h⟩ := (statusCode_iff _).1 h
        rw [numeral_cons hc hrun] at hrange h
        exact ⟨c :: run, rest, rfl, by simp, List.forall_mem_cons.2 ⟨hc, hrun⟩, hrange, h⟩
      · refine absurd h (Rejects.not_stop (rejects_response ?_) bs)
        simp only [HttpResponseParser.consume, if_neg hc]
  · rintro ⟨code, rest, rfl, hne, hcode, hrange, h⟩
    obtain ⟨c, run, rfl⟩ := List.exists_cons_of_ne_nil hne
    obtain ⟨hc, hrun⟩ := List.forall_mem_cons.1 hcode
    rw [ResponseCompletes, List.cons_append, rest_cons_more (hstart c hc)]
    refine (statusCode_iff _).2 ⟨run, rest, rfl, hrun, ?_⟩
    rw [numeral_cons hc hrun]
    exact ⟨hrange, h⟩

/-- The text of a status line, which is not empty. -/
theorem statusTextStart_iff {resp : Response} (hstatus : resp.status = []) :
    ResponseCompletes memory .responseHttpVersion_statusTextStart resp bs t left ↔
      ∃ c run rest, bs = c :: (run ++ (crlf ++ rest)) ∧ isChar c ∧ (∀ c ∈ run, isChar c ∧ c ≠ cr) ∧
        ResponseCompletes memory (.common .headerLineStart) { resp with status := c :: run } rest t left := by
  have hstart : ∀ c, isChar c → HttpResponseParser.consume memory
      (responseIn .responseHttpVersion_statusTextStart, resp) c =
        .more (responseIn .responseHttpVersion_statusText, { resp with status := [c] }) :=
    fun c hc => by simp [HttpResponseParser.consume, hc, hstatus]
  constructor
  · intro h
    cases bs with
    | nil => exact absurd h stop_nil
    | cons c bs =>
      by_cases hc : isChar c
      · rw [ResponseCompletes, rest_cons_more (hstart c hc)] at h
        obtain ⟨run, rest, rfl, hrun, h⟩ := (statusText_iff [c]).1 h
        exact ⟨c, run, rest, rfl, hc, hrun, h⟩
      · refine absurd h (Rejects.not_stop (rejects_response ?_) bs)
        simp only [HttpResponseParser.consume, if_neg hc]
  · rintro ⟨c, run, rest, rfl, hc, hrun, h⟩
    rw [ResponseCompletes, rest_cons_more (hstart c hc)]
    exact (statusText_iff [c]).2 ⟨run, rest, rfl, hrun, h⟩

/-- The status line as a whole. -/
theorem statusLine_iff :
    feedRest (HttpResponseParser.consume memory) responseStart bs = .stop (.completed, left) t ↔
      ∃ (l : StatusLine) (rest : List UInt8), bs = l.print ++ (crlf ++ rest) ∧
        (100 ≤ l.statusCode ∧ l.statusCode ≤ 999) ∧
        ResponseCompletes memory (.common .headerLineStart) l.response rest t left := by
  constructor
  · intro h
    obtain ⟨_, rfl, hmajor⟩ := (stop_spells_iff responseHttp_spells).1 h
    obtain ⟨major, _, rfl, hminor⟩ := responseMajor_iff.1 hmajor
    obtain ⟨minor, _, rfl, hcode⟩ := responseMinor_iff.1 hminor
    obtain ⟨code, _, rfl, hne, hdigits, hrange, htext⟩ := statusCodeStart_iff.1 hcode
    obtain ⟨c, run, rest, rfl, hc, hrun, hcommon⟩ := (statusTextStart_iff rfl).1 htext
    refine ⟨⟨major, minor, code, c :: run, hne, hdigits, by simp, by simpa using hc, hrun⟩,
      rest, ?_, hrange, hcommon⟩
    simp [StatusLine.print, printVersion]
  · rintro ⟨⟨major, minor, code, status, hne, hdigits, hstatus, hhead, htail⟩, rest, rfl, hrange, hcommon⟩
    obtain ⟨c, run, rfl⟩ := List.exists_cons_of_ne_nil hstatus
    have hprint : StatusLine.print ⟨major, minor, code, c :: run, hne, hdigits, hstatus, hhead, htail⟩ ++
        (crlf ++ rest) = ascii "HTTP/" ++ (major.digits ++ 46 :: (minor.digits ++
          space :: (code ++ space :: c :: (run ++ (crlf ++ rest))))) := by
      simp [StatusLine.print, printVersion]
    rw [hprint]
    refine (stop_spells_iff responseHttp_spells).2 ⟨_, rfl, responseMajor_iff.2 ⟨major, _, rfl, ?_⟩⟩
    refine responseMinor_iff.2 ⟨minor, _, rfl, statusCodeStart_iff.2
      ⟨code, _, rfl, hne, hdigits, hrange, ?_⟩⟩
    exact (statusTextStart_iff rfl).2 ⟨c, run, rest, rfl, hhead c rfl, htail, hcommon⟩

/-- The parser takes exactly the texts of complete responses. -/
theorem rest_response (memory : Nat → Bool) (bs left : List UInt8) (t : HttpResponseParser × Response) :
    feedRest (HttpResponseParser.consume memory) responseStart bs = .stop (.completed, left) t ↔
      ∃ text : ResponseText, bs = text.print ++ left ∧ text.read memory = some t := by
  rw [statusLine_iff]
  simp only [responseCommon_iff]
  constructor
  · rintro ⟨l, _, hsplit, hrange, t', hmessage, rfl⟩
    obtain ⟨message, rfl, hread⟩ := (message_iff rfl).1 hmessage
    refine ⟨⟨l, message⟩, by simp [hsplit, ResponseText.print], ?_⟩
    rw [ResponseText.read, if_pos hrange]
    exact Option.map_eq_some_iff.2 ⟨t', hread, rfl⟩
  · rintro ⟨⟨l, message⟩, hsplit, hread⟩
    rw [ResponseText.read] at hread
    split_ifs at hread with hrange
    obtain ⟨t', hmessage, rfl⟩ := Option.map_eq_some_iff.1 hread
    refine ⟨l, message.print ++ left, by simp [hsplit, ResponseText.print], hrange, t', ?_, rfl⟩
    exact (message_iff rfl).2 ⟨message, rfl, hmessage⟩

theorem feed_response (memory : Nat → Bool) (bs : List UInt8) (t : HttpResponseParser × Response) :
    feed (HttpResponseParser.consume memory) responseStart bs = .stop .completed t ↔
      ∃ (text : ResponseText) (rest : List UInt8), bs = text.print ++ rest ∧
        text.read memory = some t := by
  rw [feed_stop_iff]
  simp only [rest_response]
  exact exists_comm

/-- In whatever pieces the input comes, the parser completes exactly on the texts of complete
responses, whatever follows them, and leaves the response that the text stands for. -/
theorem response_accepted (memory : Nat → Bool) (pieces : List (List UInt8))
    (t : HttpResponseParser × Response) :
    feedAll (HttpResponseParser.consume memory) responseStart pieces = .stop .completed t ↔
      ∃ (text : ResponseText) (rest : List UInt8), pieces.flatten = text.print ++ rest ∧
        text.read memory = some t := by
  rw [feedAll_eq]
  exact feed_response memory _ t

end Responses
end Netier.HttpParser
