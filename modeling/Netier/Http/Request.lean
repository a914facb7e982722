import Netier.Http.Body
import Netier.Http.Version

/-! `HttpRequestParser`: the request line, and the messages that are complete requests. -/
namespace Netier.HttpParser
open Lib

structure Request extends Message where
  method : List UInt8
  uri : List UInt8
  deriving DecidableEq, Repr

/-- `HttpRequestParser::State`; what the response parser knows as well is in `common`. -/
inductive RequestState where
  | requestMethodStart
  | requestMethod
  | requestUriStart
  | requestUri
  | requestHttpVersion_h
  | requestHttpVersion_ht
  | requestHttpVersion_htt
  | requestHttpVersion_http
  | requestHttpVersion_slash
  | requestHttpVersion_majorStart
  | requestHttpVersion_major
  | requestHttpVersion_minorStart
  | requestHttpVersion_minor
  | responseHttpVersion_newLine
  | common (state : MessageState)
  deriving DecidableEq, Repr

structure HttpRequestParser extends Framing where
  state : RequestState
  deriving DecidableEq, Repr

/-- A new parser and a new request. -/
def requestStart : HttpRequestParser × Request :=
  (⟨Framing.empty, .requestMethodStart⟩, ⟨Message.empty, [], []⟩)

/-- Only these methods have a body. -/
def Request.framed (req : Request) : Bool := req.method == ascii "POST" || req.method == ascii "PUT"

/-- What the shared part of the parser leaves in the whole. -/
def Request.embed (req : Request) (r : Reader) : HttpRequestParser × Request :=
  (⟨r.2.toFraming, .common r.1⟩, { req with toMessage := r.2.toMessage })

/-- Goes on to `next` if the byte is the one expected. -/
def HttpRequestParser.expect (p : HttpRequestParser) (req : Request) (c input : UInt8) (next : RequestState) :
    Next (HttpRequestParser × Request) Verdict :=
  if input = c then .more ({ p with state := next }, req) else .stop .error (p, req)

/-- One round of the loop in `consume`. -/
def HttpRequestParser.consume (memory : Nat → Bool) : HttpRequestParser × Request → UInt8 →
    Next (HttpRequestParser × Request) Verdict
  | (p, req), input =>
    match p.state with
    | .requestMethodStart =>
      if !isChar input || isControl input || isSpecial input then .stop .error (p, req)
      else .more ({ p with state := .requestMethod }, { req with method := req.method ++ [input] })
    | .requestMethod =>
      if input = space then .more ({ p with state := .requestUriStart }, req)
      else if !isChar input || isControl input || isSpecial input then .stop .error (p, req)
      else .more (p, { req with method := req.method ++ [input] })
    | .requestUriStart =>
      if isControl input then .stop .error (p, req)
      else .more ({ p with state := .requestUri }, { req with uri := req.uri ++ [input] })
    | .requestUri =>
      if input = space then .more ({ p with state := .requestHttpVersion_h }, req)
      else if input = cr then .stop .completed (p, { req with versionMajor := 0, versionMinor := 9 })
      else if isControl input then .stop .error (p, req)
      else .more (p, { req with uri := req.uri ++ [input] })
    | .requestHttpVersion_h => p.expect req 72 input .requestHttpVersion_ht
    | .requestHttpVersion_ht => p.expect req 84 input .requestHttpVersion_htt
    | .requestHttpVersion_htt => p.expect req 84 input .requestHttpVersion_http
    | .requestHttpVersion_http => p.expect req 80 input .requestHttpVersion_slash
    | .requestHttpVersion_slash =>
      if input = 47 then
        .more ({ p with state := .requestHttpVersion_majorStart },
          { req with versionMajor := 0, versionMinor := 0 })
      else .stop .error (p, req)
    | .requestHttpVersion_majorStart =>
      if isDigit input then
        .more ({ p with state := .requestHttpVersion_major }, { req with versionMajor := input.toNat - 48 })
      else .stop .error (p, req)
    | .requestHttpVersion_major =>
      if input = 46 then .more ({ p with state := .requestHttpVersion_minorStart }, req)
      else if isDigit input then
        match versionDigit req.versionMajor input with
        | none => .stop .undefined (p, req)
        | some version => .more (p, { req with versionMajor := version })
      else .stop .error (p, req)
    | .requestHttpVersion_minorStart =>
      if isDigit input then
        .more ({ p with state := .requestHttpVersion_minor }, { req with versionMinor := input.toNat - 48 })
      else .stop .error (p, req)
    | .requestHttpVersion_minor =>
      if input = cr then .more ({ p with state := .responseHttpVersion_newLine }, req)
      else if isDigit input then
        match versionDigit req.versionMinor input with
        | none => .stop .undefined (p, req)
        | some version => .more (p, { req with versionMinor := version })
      else .stop .error (p, req)
    | .responseHttpVersion_newLine => p.expect req lf input (.common .headerLineStart)
    | .common state =>
      (consumeMessage memory req.framed (state, ⟨req.toMessage, p.toFraming⟩) input).map req.embed

end Netier.HttpParser
