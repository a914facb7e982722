import Netier.Http.RoundTrip

/-! What the parsers do not do: stop before the end of a message, or read a second one. -/
namespace Netier.HttpParser
open Lib

section Once
variable {memory : Nat → Bool} {framed : Bool} {m : Message} {bs left : List UInt8} {r t : Reader}

/-- Where the shared part can stand when a message is complete. -/
def Spent (r : Reader) : Prop :=
  (r.1 = .expectingNewline_3 ∧ r.2.chunked = false ∧ r.2.contentSize = 0) ∨
  (r.1 = .post ∧ r.2.contentSize = 0) ∨ r.1 = .chunkSizeNewLine_3

/-- What has been read of the message does not matter. -/
theorem Spent.with_message (hr : Spent r) (m : Message) : Spent (r.1, ⟨m, r.2.toFraming⟩) := hr

theorem read_spent {text : MessageText} (h : text.read memory framed m = some r) : Spent r := by
  obtain ⟨head, _, hbody⟩ := Option.bind_eq_some_iff.1 h
  cases hb : text.body with
  | empty =>
    simp only [Body.read, hb] at hbody
    split_ifs at hbody with hif
    cases hbody
    exact .inl ⟨rfl, hif.1, hif.2.1⟩
  | sized content =>
    simp only [Body.read, hb] at hbody
    split_ifs at hbody with hif
    cases hbody
    exact .inr (.inl ⟨rfl, rfl⟩)
  | chunked body =>
    simp only [Body.read, hb] at hbody
    split_ifs at hbody
    obtain ⟨content, _, rfl⟩ := Option.map_eq_some_iff.1 hbody
    exact .inr (.inr rfl)

/-- A completed parser takes a line feed for the end of the message it has read, and any other
input for more content or for an error. -/
theorem spent_once (hr : Spent r) (hhead : bs.head? ≠ some lf) (hlength : bs.length < 2 ^ 64) :
    ¬ Accepts memory framed r bs t left := by
  obtain ⟨st, d⟩ := r
  intro h
  rcases hr with ⟨rfl, hchunked, hsize⟩ | ⟨rfl, hsize⟩ | rfl
  · cases bs with
    | nil => exact stop_nil h
    | cons c bs =>
      have hc : c ≠ lf := by simpa using hhead
      have hchunked' : d.chunked = false := hchunked
      have hsize' : d.contentSize = 0 := hsize
      rw [Accepts, rest_cons_stop (by
        simp only [consumeMessage, hchunked', Bool.false_eq_true, if_false, hsize', if_true, if_neg hc]
        rfl)] at h
      cases h
  · have hd : { d with contentSize := UInt64.ofNat (2 ^ 64), content := d.content } = d := by
      have hsize' : d.contentSize = 0 := hsize
      simp [← hsize']
    rw [← hd, post_count (by decide) le_rfl] at h
    obtain ⟨content, rest, rfl, hcontent, _⟩ := h
    rw [List.length_append] at hlength
    omega
  · obtain ⟨rfl, _⟩ := chunkSizeNewLine_3_iff.1 h
    exact hhead rfl

end Once

section Requests
variable {memory : Nat → Bool} {s t : HttpRequestParser × Request} {left : List UInt8}

/-- The parser waits for the last byte of a request: without it there is neither an error nor
another request. -/
theorem request_awaited (text : RequestText) (ht : text.read memory = some t) (pieces : List (List UInt8))
    (missing : List UInt8) (hsplit : text.print = pieces.flatten ++ missing) (hmissing : missing ≠ []) :
    (∃ s, feedAll (HttpRequestParser.consume memory) requestStart pieces = .more s) ∧
      ∀ text' : RequestText, text'.print = pieces.flatten → text'.read memory = none := by
  rw [feedAll_eq]
  exact texts_awaited (rest_request memory) ht hsplit hmissing

/-- `GET /` -/
def getLine : RequestLine :=
  { postLine with method := ascii "GET", method_ne := by decide, method_token := by decide +kernel }

theorem get_awaited : (∃ s, feedAll (HttpRequestParser.consume fun _ => true) requestStart
      [ascii "GE", ascii "T /"] = .more s) ∧
    ∀ text' : RequestText, text'.print = ascii "GET /" → text'.read (fun _ => true) = none :=
  request_awaited (.http09 getLine) rfl [ascii "GE", ascii "T /"] [cr] rfl (by decide)

theorem RequestLine.print_head (l : RequestLine) (bs : List UInt8) : (l.print ++ bs).head? ≠ some lf := by
  obtain ⟨c, method, hmethod⟩ := List.exists_cons_of_ne_nil l.method_ne
  have hc : c ≠ lf := isToken_ne (l.method_token c (by simp [hmethod])) (by decide)
  simpa [RequestLine.print, hmethod] using hc

theorem RequestText.print_head (text : RequestText) : text.print.head? ≠ some lf := by
  cases text with
  | http09 l => exact l.print_head _
  | full l major minor message => exact l.print_head _

/-- Bytes of a target after its first one. -/
def UriByte (c : UInt8) : Prop := isControl c = false ∧ c ≠ space

theorem uriByte_of_token {c : UInt8} (hc : isToken c) : UriByte c :=
  ⟨(isToken_eq.1 hc).2.1, isToken_ne hc (by decide)⟩

theorem uriByte_of_digit {c : UInt8} (hc : isDigit c) : UriByte c := by
  have hb := isDigit_bounds hc
  refine ⟨?_, isDigit_ne hc (by decide)⟩
  have hlow : ¬ c < 32 := by
    rw [UInt8.lt_iff_toNat_lt]
    have h32 : (32 : UInt8).toNat = 32 := rfl
    omega
  simp [isControl, hlow, isDigit_ne hc (show isDigit 127 = false by decide)]

theorem printVersion_bytes (major minor : VersionNumber) : ∀ c ∈ printVersion major minor, UriByte c := by
  intro c hc
  simp only [printVersion, List.mem_append, List.mem_cons] at hc
  rcases hc with hc | hc | rfl | hc
  · revert hc
    revert c
    exact show ∀ c ∈ ascii "HTTP/", isControl c = false ∧ c ≠ space by decide +kernel
  · exact uriByte_of_digit (major.digits_text c hc)
  · exact ⟨by decide, by decide⟩
  · exact uriByte_of_digit (minor.digits_text c hc)

theorem not_uriByte_cr : ¬ UriByte cr := fun h => absurd h.1 (by decide)
theorem not_uriByte_space : ¬ UriByte space := fun h => h.2 rfl

/-- What follows the target in a request's text. -/
theorem RequestText.print_eq (text : RequestText) : ∃ (l : RequestLine) (after : List UInt8),
    text.print = l.method ++ space :: (l.uri ++ after) ∧ (after = [cr] ∨ ∃ more, after = space :: more) := by
  cases text with
  | http09 l => exact ⟨l, [cr], by simp [RequestText.print, RequestLine.print], .inl rfl⟩
  | full l major minor message =>
    exact ⟨l, space :: (printVersion major minor ++ (crlf ++ message.print)),
      by simp [RequestText.print, RequestLine.print], .inr ⟨_, rfl⟩⟩

/-- A target that starts with a byte of a version is no version with its line end. -/
theorem uri_not_version (l : RequestLine) (major minor : VersionNumber) {after rest : List UInt8}
    (hafter : after = [cr] ∨ ∃ more, after = space :: more) :
    l.uri ++ after ≠ printVersion major minor ++ (crlf ++ rest) := by
  intro h
  obtain ⟨c, run, huri⟩ := List.exists_cons_of_ne_nil l.uri_ne
  have hbytes := printVersion_bytes major minor
  obtain ⟨v, hv⟩ : ∃ v, printVersion major minor = 72 :: v := ⟨_, rfl⟩
  obtain ⟨rfl, _⟩ : c = 72 ∧ run ++ after = v ++ (crlf ++ rest) := by simpa [huri, hv] using h
  have huriBytes : ∀ c ∈ l.uri, UriByte c := by
    rw [huri]
    refine List.forall_mem_cons.2 ⟨⟨by decide, by decide⟩, ?_⟩
    simpa [huri, UriByte] using l.uri_tail
  rcases hafter with rfl | ⟨more, rfl⟩
  · obtain ⟨_, _, hnil⟩ := split_unique huriBytes hbytes not_uriByte_cr not_uriByte_cr h
    cases hnil
  · obtain ⟨_, hne, _⟩ := split_unique huriBytes hbytes not_uriByte_space not_uriByte_cr h
    exact absurd hne (by decide)

/-- A request without a version leaves the parser in its target. The next request's method goes
there, and its target is not a version with a line end. -/
theorem http09_once (req : Request) (text : RequestText) :
    ¬ Completes memory .requestUri req text.print t left := by
  intro h
  obtain ⟨l, after, hprint, hafter⟩ := text.print_eq
  rw [hprint] at h
  have hmethod : ∀ c ∈ l.method, UriByte c := fun c hc => uriByte_of_token (l.method_token c hc)
  obtain ⟨run, hrun, ⟨hsplit, _⟩ | ⟨rest, hsplit, hversion⟩⟩ := (requestUri_iff req req.uri).1 h
  · obtain ⟨_, hne, _⟩ := split_unique hmethod hrun not_uriByte_space not_uriByte_cr hsplit
    exact absurd hne (by decide)
  · obtain ⟨_, _, rfl⟩ := split_unique hmethod hrun not_uriByte_space not_uriByte_space hsplit
    obtain ⟨major, minor, rest, hrest, _⟩ := requestVersion_iff.1 hversion
    exact uri_not_version l major minor hafter hrest

/-- After a complete request the parser never completes another one, whichever object it is to
go into. -/
theorem request_once (memory : Nat → Bool) (pieces : List (List UInt8)) (s : HttpRequestParser × Request)
    (hs : feedAll (HttpRequestParser.consume memory) requestStart pieces = .stop .completed s)
    (req : Request) (text : RequestText) (hlength : text.print.length < 2 ^ 64) :
    ¬ ∃ t, feed (HttpRequestParser.consume memory) (s.1, req) text.print = .stop .completed t := by
  rintro ⟨t, h⟩
  rw [feed_stop_iff] at h
  obtain ⟨left, h⟩ := h
  rw [feedAll_eq] at hs
  obtain ⟨first, _, _, hread⟩ := (feed_request _ _ _).1 hs
  cases first with
  | http09 l =>
    cases hread
    exact http09_once req text h
  | full l major minor message =>
    obtain ⟨r, hr, rfl⟩ := Option.map_eq_some_iff.1 hread
    obtain ⟨t', hcommon, _⟩ := (request_embed_iff (r.1, ⟨req.toMessage, r.2.toFraming⟩)).1 h
    exact spent_once ((read_spent hr).with_message req.toMessage) text.print_head hlength hcommon

/-- Into a new object. -/
theorem get_once : ¬ ∃ t, feed (HttpRequestParser.consume fun _ => true)
    (requestIn .requestUri, requestStart.2) (RequestText.http09 getLine).print = .stop .completed t :=
  request_once _ [ascii "GE", ascii "T /\r"] (_, getLine.request 0 9) rfl _ _ (by decide)

end Requests
section Responses
variable {memory : Nat → Bool}

theorem ResponseText.print_head (text : ResponseText) : text.print.head? ≠ some lf := by
  obtain ⟨after, hafter⟩ : ∃ after, text.print = 72 :: after := ⟨_, rfl⟩
  rw [hafter]
  exact show some 72 ≠ some lf by decide

/-- The parser waits for the last byte of a response, as for that of a request. -/
theorem response_awaited (text : ResponseText) {t : HttpResponseParser × Response}
    (ht : text.read memory = some t) (pieces : List (List UInt8)) (missing : List UInt8)
    (hsplit : text.print = pieces.flatten ++ missing) (hmissing : missing ≠ []) :
    (∃ s, feedAll (HttpResponseParser.consume memory) responseStart pieces = .more s) ∧
      ∀ text' : ResponseText, text'.print = pieces.flatten → text'.read memory = none := by
  rw [feedAll_eq]
  exact texts_awaited (rest_response memory) ht hsplit hmissing

/-- A response without headers and without content. -/
def okText : ResponseText := ⟨okLine, Payload.empty.text []⟩

theorem ok_awaited : (∃ s, feedAll (HttpResponseParser.consume fun _ => true) responseStart
      [ascii "HTTP/1.1 20", ascii "0 OK\r\n\r"] = .more s) ∧
    ∀ text' : ResponseText, text'.print = ascii "HTTP/1.1 200 OK\r\n\r" → text'.read (fun _ => true) = none :=
  response_awaited okText rfl [ascii "HTTP/1.1 20", ascii "0 OK\r\n\r"] [lf] rfl (by decide)

/-- After a complete response the parser never completes another one, whichever object it is to
go into. -/
theorem response_once (memory : Nat → Bool) (pieces : List (List UInt8)) (s : HttpResponseParser × Response)
    (hs : feedAll (HttpResponseParser.consume memory) responseStart pieces = .stop .completed s)
    (resp : Response) (text : ResponseText) (hlength : text.print.length < 2 ^ 64) :
    ¬ ∃ t, feed (HttpResponseParser.consume memory) (s.1, resp) text.print = .stop .completed t := by
  rintro ⟨t, h⟩
  rw [feed_stop_iff] at h
  obtain ⟨left, h⟩ := h
  rw [feedAll_eq] at hs
  obtain ⟨⟨l, message⟩, _, _, hread⟩ := (feed_response _ _ _).1 hs
  rw [ResponseText.read] at hread
  split_ifs at hread
  obtain ⟨r, hr, rfl⟩ := Option.map_eq_some_iff.1 hread
  obtain ⟨t', hcommon, _⟩ := (response_embed_iff (r.1, ⟨resp.toMessage, r.2.toFraming⟩)).1 h
  exact spent_once ((read_spent hr).with_message resp.toMessage) text.print_head hlength hcommon

/-- The parser that has read it does not read it again. -/
theorem ok_once : ¬ ∃ t, feed (HttpResponseParser.consume fun _ => true)
    (⟨.empty, .common .expectingNewline_3⟩, { okLine.response with keepAlive := true })
    okText.print = .stop .completed t :=
  response_once _ [okText.print] (_, { okLine.response with keepAlive := true }) rfl _ _ (by decide)

end Responses
end Netier.HttpParser
