import Netier.Http.Request

/-! The complete requests as texts. The parser completes on them and on nothing else. -/
namespace Netier.HttpParser
open Lib

/-- Method and target; the target's first byte may be a space. -/
structure RequestLine where
  method : List UInt8
  uri : List UInt8
  method_ne : method ≠ []
  method_token : ∀ c ∈ method, isToken c
  uri_ne : uri ≠ []
  uri_head : ∀ c ∈ uri.head?, isControl c = false
  uri_tail : ∀ c ∈ uri.tail, isControl c = false ∧ c ≠ space

/-- A request without a version ends with the carriage return of its first line. -/
inductive RequestText where
  | http09 (line : RequestLine)
  | full (line : RequestLine) (major minor : VersionNumber) (message : MessageText)

def RequestLine.print (l : RequestLine) : List UInt8 := l.method ++ space :: l.uri

def RequestText.print : RequestText → List UInt8
  | .http09 line => line.print ++ [cr]
  | .full line major minor message =>
    line.print ++ space :: (printVersion major minor ++ (crlf ++ message.print))

/-- The request once its first line is known. -/
def RequestLine.request (l : RequestLine) (major minor : Nat) : Request :=
  ⟨{ Message.empty with versionMajor := major, versionMinor := minor }, l.method, l.uri⟩

/-- A request parser that has not reached the header lines. -/
abbrev requestIn (state : RequestState) : HttpRequestParser := ⟨Framing.empty, state⟩

def RequestText.read (memory : Nat → Bool) : RequestText → Option (HttpRequestParser × Request)
  | .http09 line => some (requestIn .requestUri, line.request 0 9)
  | .full line major minor message =>
    let req := line.request major.value minor.value
    (message.read memory req.framed req.toMessage).map req.embed

section Steps
variable {memory : Nat → Bool} {req : Request} {bs left : List UInt8} {t : HttpRequestParser × Request}

/-- The parser completes on these bytes up to what is left of them. -/
abbrev Completes (memory : Nat → Bool) (state : RequestState) (req : Request) (bs : List UInt8)
    (t : HttpRequestParser × Request) (left : List UInt8) : Prop :=
  feedRest (HttpRequestParser.consume memory) (requestIn state, req) bs = .stop (.completed, left) t

theorem rejects_request {s : HttpRequestParser × Request} {c : UInt8}
    (h : HttpRequestParser.consume memory s c = .stop .error s) :
    Rejects (HttpRequestParser.consume memory) .completed s c :=
  ⟨.error, s, h, by decide⟩

theorem not_token {c : UInt8} (hc : ¬ isToken c) : (!isChar c || isControl c || isSpecial c) = true := by
  simpa [isToken, imp_iff_not_or] using hc

theorem requestMethod_iff (req : Request) (method : List UInt8) :
    Completes memory .requestMethod { req with method := method } bs t left ↔
      ∃ run rest, bs = run ++ space :: rest ∧ (∀ c ∈ run, isToken c) ∧
        Completes memory .requestUriStart { req with method := method ++ run } rest t left := by
  have hexit : ∀ method, HttpRequestParser.consume memory
      (requestIn .requestMethod, { req with method := method }) space =
        .more (requestIn .requestUriStart, { req with method := method }) := fun _ => by
    simp [HttpRequestParser.consume]
  refine (stop_collect_until_iff (fun c => isToken c)
    (fun m => (requestIn .requestMethod, { req with method := m })) space
    ?loop (by decide) ?leave method).trans ?_
  case loop =>
    intro m c hc
    have hspace : c ≠ space := isToken_ne hc (by decide)
    simp [HttpRequestParser.consume, hspace, isToken_eq.1 hc]
  case leave =>
    intro m c hc hspace
    exact rejects_request (by simp only [HttpRequestParser.consume, hspace, if_false, not_token hc, if_true])
  simp only [rest_cons_more (hexit _)]

/-- The rest of a target: the carriage return after it ends a request without a version. -/
theorem requestUri_iff (req : Request) (uri : List UInt8) :
    Completes memory .requestUri { req with uri := uri } bs t left ↔
      ∃ run, (∀ c ∈ run, isControl c = false ∧ c ≠ space) ∧
        ((bs = run ++ cr :: left ∧
            t = (requestIn .requestUri, { req with uri := uri ++ run, versionMajor := 0, versionMinor := 9 })) ∨
          ∃ rest, bs = run ++ space :: rest ∧
            Completes memory .requestHttpVersion_h { req with uri := uri ++ run } rest t left) := by
  have hspace : ∀ uri, HttpRequestParser.consume memory
      (requestIn .requestUri, { req with uri := uri }) space =
        .more (requestIn .requestHttpVersion_h, { req with uri := uri }) := fun _ => by
    simp [HttpRequestParser.consume]
  have hcr : ∀ uri, HttpRequestParser.consume memory
      (requestIn .requestUri, { req with uri := uri }) cr =
        .stop .completed (requestIn .requestUri,
          { req with uri := uri, versionMajor := 0, versionMinor := 9 }) := fun _ => by
    simp [HttpRequestParser.consume, show cr ≠ space by decide]
  refine (stop_loop_iff (fun c => isControl c = false ∧ c ≠ space)
    (fun u => (requestIn .requestUri, { req with uri := u }))
    (fun u c => u ++ [c]) ?loop uri).trans ?_
  case loop =>
    intro u c ⟨hc, hne⟩
    have hccr : c ≠ cr := by
      rintro rfl
      exact absurd hc (by decide)
    simp [HttpRequestParser.consume, hc, hne, hccr]
  simp only [foldl_snoc]
  constructor
  · rintro ⟨run, c, rest, rfl, hrun, hc, h⟩
    refine ⟨run, hrun, ?_⟩
    by_cases hcspace : c = space
    · subst hcspace
      rw [rest_cons_more (hspace _)] at h
      exact .inr ⟨rest, rfl, h⟩
    by_cases hccr : c = cr
    · subst hccr
      rw [rest_cons_stop (hcr _)] at h
      cases h
      exact .inl ⟨rfl, rfl⟩
    · have hcontrol : isControl c = true := by simpa [hcspace] using hc
      refine absurd h (Rejects.not_stop (rejects_request ?_) rest)
      simp [HttpRequestParser.consume, hcspace, hccr, hcontrol]
  · rintro ⟨run, hrun, ⟨rfl, rfl⟩ | ⟨rest, rfl, h⟩⟩
    · exact ⟨run, cr, left, rfl, hrun, by decide, rest_cons_stop (hcr _) left⟩
    · exact ⟨run, space, rest, rfl, hrun, by decide, by rw [rest_cons_more (hspace _), h]⟩

theorem rejects_expect {p : HttpRequestParser} {next : RequestState} {e c : UInt8}
    (h : HttpRequestParser.consume memory (p, req) c = p.expect req e c next) (hc : c ≠ e) :
    Rejects (HttpRequestParser.consume memory) .completed (p, req) c :=
  rejects_request (by rw [h, HttpRequestParser.expect, if_neg hc])

/-- The letters before the version. -/
theorem requestHttp_spells : Spells (HttpRequestParser.consume memory) .completed
    (requestIn .requestHttpVersion_h, req) (ascii "HTTP/")
    (requestIn .requestHttpVersion_majorStart, { req with versionMajor := 0, versionMinor := 0 }) := by
  refine ⟨_, rfl, fun c hc => rejects_expect rfl hc, ?_⟩
  refine ⟨_, rfl, fun c hc => rejects_expect rfl hc, ?_⟩
  refine ⟨_, rfl, fun c hc => rejects_expect rfl hc, ?_⟩
  refine ⟨_, rfl, fun c hc => rejects_expect rfl hc, ?_⟩
  exact ⟨_, rfl, fun c hc => rejects_request (if_neg hc), rfl⟩

theorem requestMajor_iff : Completes memory .requestHttpVersion_majorStart req bs t left ↔
    ∃ (major : VersionNumber) (rest : List UInt8), bs = major.digits ++ 46 :: rest ∧
      Completes memory .requestHttpVersion_minorStart { req with versionMajor := major.value } rest t left :=
  version_iff (fun v => (requestIn .requestHttpVersion_major, { req with versionMajor := v }))
    (fun v => (requestIn .requestHttpVersion_minorStart, { req with versionMajor := v }))
    (by decide) (fun _ => rfl) (fun _ _ => rfl)

theorem requestMinor_iff : Completes memory .requestHttpVersion_minorStart req bs t left ↔
    ∃ (minor : VersionNumber) (rest : List UInt8), bs = minor.digits ++ (crlf ++ rest) ∧
      Completes memory (.common .headerLineStart) { req with versionMinor := minor.value } rest t left := by
  have hlf : ∀ req bs, Completes memory .responseHttpVersion_newLine req bs t left ↔
      ∃ rest, bs = lf :: rest ∧ Completes memory (.common .headerLineStart) req rest t left := fun req bs =>
    stop_expect_iff rfl fun c hc => rejects_expect rfl hc
  refine (version_iff (fun v => (requestIn .requestHttpVersion_minor, { req with versionMinor := v }))
    (fun v => (requestIn .responseHttpVersion_newLine, { req with versionMinor := v }))
    (by decide) (fun _ => rfl) (fun _ _ => rfl)).trans ?_
  simp only [hlf]
  constructor
  · rintro ⟨minor, _, rfl, rest, rfl, h⟩
    exact ⟨minor, rest, rfl, h⟩
  · rintro ⟨minor, rest, rfl, h⟩
    exact ⟨minor, lf :: rest, rfl, rest, rfl, h⟩

/-- From the header lines on the part that responses share does the work. -/
theorem request_embed_iff {w : Verdict × List UInt8} (r : Reader) :
    feedRest (HttpRequestParser.consume memory) (req.embed r) bs = .stop w t ↔
      ∃ t', feedRest (consumeMessage memory req.framed) r bs = .stop w t' ∧ req.embed t' = t := by
  have hmap : feedRest (HttpRequestParser.consume memory) (req.embed r) bs =
      (feedRest (consumeMessage memory req.framed) r bs).map req.embed := rest_map (fun _ _ => rfl) r bs
  rw [hmap, map_stop_iff]

theorem requestCommon_iff : Completes memory (.common .headerLineStart) req bs t left ↔
    ∃ t', Accepts memory req.framed (.headerLineStart, ⟨req.toMessage, Framing.empty⟩) bs t' left ∧
      req.embed t' = t :=
  request_embed_iff (.headerLineStart, ⟨req.toMessage, Framing.empty⟩)

theorem requestVersion_iff : Completes memory .requestHttpVersion_h req bs t left ↔
    ∃ (major minor : VersionNumber) (rest : List UInt8), bs = printVersion major minor ++ (crlf ++ rest) ∧
      Completes memory (.common .headerLineStart)
        { req with versionMajor := major.value, versionMinor := minor.value } rest t left := by
  constructor
  · intro h
    obtain ⟨_, rfl, hmajor⟩ := (stop_spells_iff requestHttp_spells).1 h
    obtain ⟨major, _, rfl, hminor⟩ := requestMajor_iff.1 hmajor
    obtain ⟨minor, rest, rfl, hcommon⟩ := requestMinor_iff.1 hminor
    exact ⟨major, minor, rest, by simp [printVersion], hcommon⟩
  · rintro ⟨major, minor, rest, rfl, hcommon⟩
    refine (stop_spells_iff requestHttp_spells).2 ⟨_, List.append_assoc _ _ _, ?_⟩
    refine requestMajor_iff.2 ⟨major, minor.digits ++ (crlf ++ rest), by simp, ?_⟩
    exact requestMinor_iff.2 ⟨minor, rest, rfl, hcommon⟩

end Steps

section Requests
variable {memory : Nat → Bool} {bs left : List UInt8} {t : HttpRequestParser × Request}

/-- The first line up to the first byte of the target. -/
theorem requestStart_iff :
    feedRest (HttpRequestParser.consume memory) requestStart bs = .stop (.completed, left) t ↔
      ∃ c method c' rest, bs = c :: (method ++ space :: c' :: rest) ∧ (∀ b ∈ c :: method, isToken b) ∧
        isControl c' = false ∧
        Completes memory .requestUri ⟨Message.empty, c :: method, [c']⟩ rest t left := by
  constructor
  · intro h
    cases bs with
    | nil => exact absurd h stop_nil
    | cons c bs =>
      by_cases hc : isToken c
      · have hstep : HttpRequestParser.consume memory requestStart c =
            .more (requestIn .requestMethod, ⟨Message.empty, [c], []⟩) := by
          simp [HttpRequestParser.consume, requestStart, isToken_eq.1 hc]
        rw [rest_cons_more hstep] at h
        obtain ⟨method, rest, rfl, hmethod, h⟩ := (requestMethod_iff ⟨Message.empty, [], []⟩ [c]).1 h
        cases rest with
        | nil => exact absurd h stop_nil
        | cons c' rest =>
          cases hc' : isControl c' with
          | true =>
            refine absurd h (Rejects.not_stop (rejects_request ?_) rest)
            simp [HttpRequestParser.consume, hc']
          | false =>
            rw [Completes, rest_cons_more (by simp only [HttpRequestParser.consume, hc']; rfl)] at h
            exact ⟨c, method, c', rest, rfl, List.forall_mem_cons.2 ⟨hc, hmethod⟩, hc', h⟩
      · refine absurd h (Rejects.not_stop (rejects_request ?_) bs)
        simp only [HttpRequestParser.consume, requestStart, not_token hc, if_true]
  · rintro ⟨c, method, c', rest, rfl, htoken, hc', h⟩
    obtain ⟨hc, hmethod⟩ := List.forall_mem_cons.1 htoken
    have hstep : HttpRequestParser.consume memory requestStart c =
        .more (requestIn .requestMethod, ⟨Message.empty, [c], []⟩) := by
      simp [HttpRequestParser.consume, requestStart, isToken_eq.1 hc]
    rw [rest_cons_more hstep]
    refine (requestMethod_iff ⟨Message.empty, [], []⟩ [c]).2 ⟨method, _, rfl, hmethod, ?_⟩
    rw [Completes, rest_cons_more (by simp only [HttpRequestParser.consume, hc']; rfl)]
    exact h

/-- Method and target, and what comes after them. -/
theorem requestLine_iff :
    feedRest (HttpRequestParser.consume memory) requestStart bs = .stop (.completed, left) t ↔
      ∃ l : RequestLine, (bs = l.print ++ cr :: left ∧ t = (requestIn .requestUri, l.request 0 9)) ∨
        ∃ rest, bs = l.print ++ space :: rest ∧
          Completes memory .requestHttpVersion_h (l.request 0 0) rest t left := by
  rw [requestStart_iff]
  constructor
  · rintro ⟨c, method, c', rest, rfl, hmethod, hc', h⟩
    obtain ⟨run, hrun, huri⟩ := (requestUri_iff ⟨Message.empty, c :: method, []⟩ [c']).1 h
    refine ⟨⟨c :: method, c' :: run, by simp, hmethod, by simp, by simpa using hc', hrun⟩, ?_⟩
    rcases huri with ⟨rfl, rfl⟩ | ⟨rest, rfl, hversion⟩
    · exact .inl ⟨by simp [RequestLine.print], rfl⟩
    · exact .inr ⟨rest, by simp [RequestLine.print], hversion⟩
  · rintro ⟨⟨method, uri, hmethod, htoken, huri, hhead, htail⟩, h⟩
    obtain ⟨c, method, rfl⟩ := List.exists_cons_of_ne_nil hmethod
    obtain ⟨c', run, rfl⟩ := List.exists_cons_of_ne_nil huri
    rcases h with ⟨rfl, rfl⟩ | ⟨rest, rfl, hversion⟩
    · refine ⟨c, method, c', run ++ cr :: left, by simp [RequestLine.print], htoken, hhead c' rfl, ?_⟩
      exact (requestUri_iff ⟨Message.empty, c :: method, []⟩ [c']).2 ⟨run, htail, .inl ⟨rfl, rfl⟩⟩
    · refine ⟨c, method, c', run ++ space :: rest, by simp [RequestLine.print], htoken, hhead c' rfl, ?_⟩
      exact (requestUri_iff ⟨Message.empty, c :: method, []⟩ [c']).2
        ⟨run, htail, .inr ⟨rest, rfl, hversion⟩⟩

/-- The parser takes exactly the texts of complete requests. -/
theorem rest_request (memory : Nat → Bool) (bs left : List UInt8) (t : HttpRequestParser × Request) :
    feedRest (HttpRequestParser.consume memory) requestStart bs = .stop (.completed, left) t ↔
      ∃ text : RequestText, bs = text.print ++ left ∧ text.read memory = some t := by
  rw [requestLine_iff]
  simp only [requestVersion_iff, requestCommon_iff]
  constructor
  · rintro ⟨l, ⟨hsplit, rfl⟩ | ⟨_, hsplit, major, minor, _, rfl, t', hmessage, rfl⟩⟩
    · exact ⟨.http09 l, by simp [hsplit, RequestText.print], rfl⟩
    · obtain ⟨message, rfl, hread⟩ := (message_iff rfl).1 hmessage
      refine ⟨.full l major minor message, by simp [hsplit, RequestText.print], ?_⟩
      exact Option.map_eq_some_iff.2 ⟨t', hread, rfl⟩
  · rintro ⟨text, hsplit, hread⟩
    cases text with
    | http09 l =>
      cases hread
      exact ⟨l, .inl ⟨by simp [hsplit, RequestText.print], rfl⟩⟩
    | full l major minor message =>
      obtain ⟨t', hmessage, rfl⟩ := Option.map_eq_some_iff.1 hread
      refine ⟨l, .inr ⟨printVersion major minor ++ (crlf ++ (message.print ++ left)), ?_, ?_⟩⟩
      · simp [hsplit, RequestText.print]
      · exact ⟨major, minor, message.print ++ left, rfl, t',
          (message_iff rfl).2 ⟨message, rfl, hmessage⟩, rfl⟩

theorem feed_request (memory : Nat → Bool) (bs : List UInt8) (t : HttpRequestParser × Request) :
    feed (HttpRequestParser.consume memory) requestStart bs = .stop .completed t ↔
      ∃ (text : RequestText) (rest : List UInt8), bs = text.print ++ rest ∧
        text.read memory = some t := by
  rw [feed_stop_iff]
  simp only [rest_request]
  exact exists_comm

/-- In whatever pieces the input comes, the parser completes exactly on the texts of complete
requests, whatever follows them, and leaves the request that the text stands for. -/
theorem request_accepted (memory : Nat → Bool) (pieces : List (List UInt8)) (t : HttpRequestParser × Request) :
    feedAll (HttpRequestParser.consume memory) requestStart pieces = .stop .completed t ↔
      ∃ (text : RequestText) (rest : List UInt8), pieces.flatten = text.print ++ rest ∧
        text.read memory = some t := by
  rw [feedAll_eq]
  exact feed_request memory _ t

end Requests
end Netier.HttpParser
