import Netier.Http.Body
import Netier.Http.Version

/-! `HttpResponseParser`: the status line, and the messages that are complete responses. -/
namespace Netier.HttpParser
open Lib

structure Response extends Message where
  statusCode : UInt32
  status : List UInt8
  deriving DecidableEq, Repr

/-- `HttpResponseParser::State`; what the request parser knows as well is in `common`. -/
inductive ResponseState where
  | responseStatusStart
  | responseHttpVersion_ht
  | responseHttpVersion_htt
  | responseHttpVersion_http
  | responseHttpVersion_slash
  | responseHttpVersion_majorStart
  | responseHttpVersion_major
  | responseHttpVersion_minorStart
  | responseHttpVersion_minor
  | responseHttpVersion_statusCodeStart
  | responseHttpVersion_statusCode
  | responseHttpVersion_statusTextStart
  | responseHttpVersion_statusText
  | responseHttpVersion_newLine
  | common (state : MessageState)
  deriving DecidableEq, Repr

structure HttpResponseParser extends Framing where
  state : ResponseState
  deriving DecidableEq, Repr

/-- A new parser and a new response. -/
def responseStart : HttpResponseParser × Response :=
  (⟨Framing.empty, .responseStatusStart⟩, ⟨Message.empty, 0, []⟩)

/-- `statusCode * 10 + input - '0'`, which wraps around. -/
def statusDigit (statusCode : UInt32) (input : UInt8) : UInt32 := statusCode * 10 + input.toUInt32 - 48

/-- What the shared part of the parser leaves in the whole. -/
def Response.embed (resp : Response) (r : Reader) : HttpResponseParser × Response :=
  (⟨r.2.toFraming, .common r.1⟩, { resp with toMessage := r.2.toMessage })

/-- Goes on to `next` if the byte is the one expected. -/
def HttpResponseParser.expect (p : HttpResponseParser) (resp : Response) (c input : UInt8) (next : ResponseState) :
    Next (HttpResponseParser × Response) Verdict :=
  if input = c then .more ({ p with state := next }, resp) else .stop .error (p, resp)

/-- One round of the loop in `consume`. -/
def HttpResponseParser.consume (memory : Nat → Bool) : HttpResponseParser × Response → UInt8 →
    Next (HttpResponseParser × Response) Verdict
  | (p, resp), input =>
    match p.state with
    | .responseStatusStart => p.expect resp 72 input .responseHttpVersion_ht
    | .responseHttpVersion_ht => p.expect resp 84 input .responseHttpVersion_htt
    | .responseHttpVersion_htt => p.expect resp 84 input .responseHttpVersion_http
    | .responseHttpVersion_http => p.expect resp 80 input .responseHttpVersion_slash
    | .responseHttpVersion_slash =>
      if input = 47 then
        .more ({ p with state := .responseHttpVersion_majorStart },
          { resp with versionMajor := 0, versionMinor := 0 })
      else .stop .error (p, resp)
    | .responseHttpVersion_majorStart =>
      if isDigit input then
        .more ({ p with state := .responseHttpVersion_major }, { resp with versionMajor := input.toNat - 48 })
      else .stop .error (p, resp)
    | .responseHttpVersion_major =>
      if input = 46 then .more ({ p with state := .responseHttpVersion_minorStart }, resp)
      else if isDigit input then
        match versionDigit resp.versionMajor input with
        | none => .stop .undefined (p, resp)
        | some version => .more (p, { resp with versionMajor := version })
      else .stop .error (p, resp)
    | .responseHttpVersion_minorStart =>
      if isDigit input then
        .more ({ p with state := .responseHttpVersion_minor }, { resp with versionMinor := input.toNat - 48 })
      else .stop .error (p, resp)
    | .responseHttpVersion_minor =>
      if input = space then
        .more ({ p with state := .responseHttpVersion_statusCodeStart }, { resp with statusCode := 0 })
      else if isDigit input then
        match versionDigit resp.versionMinor input with
        | none => .stop .undefined (p, resp)
        | some version => .more (p, { resp with versionMinor := version })
      else .stop .error (p, resp)
    | .responseHttpVersion_statusCodeStart =>
      if isDigit input then
        .more ({ p with state := .responseHttpVersion_statusCode },
          { resp with statusCode := input.toUInt32 - 48 })
      else .stop .error (p, resp)
    | .responseHttpVersion_statusCode =>
      if isDigit input then .more (p, { resp with statusCode := statusDigit resp.statusCode input })
      else if resp.statusCode < 100 ∨ resp.statusCode > 999 then .stop .error (p, resp)
      else p.expect resp space input .responseHttpVersion_statusTextStart
    | .responseHttpVersion_statusTextStart =>
      -- any character at all, also the carriage return of an empty text
      if isChar input then
        .more ({ p with state := .responseHttpVersion_statusText }, { resp with status := resp.status ++ [input] })
      else .stop .error (p, resp)
    | .responseHttpVersion_statusText =>
      if input = cr then .more ({ p with state := .responseHttpVersion_newLine }, resp)
      else if isChar input then .more (p, { resp with status := resp.status ++ [input] })
      else .stop .error (p, resp)
    | .responseHttpVersion_newLine => p.expect resp lf input (.common .headerLineStart)
    | .common state =>
      (consumeMessage memory true (state, ⟨resp.toMessage, p.toFraming⟩) input).map resp.embed

end Netier.HttpParser
