import Netier.Http.Text
import Netier.Lib.Feed

/-! What both parsers do from the first header line on. The two sources read the same there,
but for the requests whose header fields say nothing about a body. -/
namespace Netier.HttpParser
open Lib

structure HeaderItem where
  name : List UInt8
  value : List UInt8
  deriving DecidableEq, Repr

/-- The fields `Request` and `Response` share. -/
structure Message where
  versionMajor : Nat
  versionMinor : Nat
  headers : List HeaderItem
  content : List UInt8
  keepAlive : Bool
  deriving DecidableEq, Repr

/-- The parsers' own members. -/
structure Framing where
  contentSize : UInt64
  chunkSizeStr : List UInt8
  chunkSize : UInt64
  chunked : Bool
  deriving DecidableEq, Repr

def Message.empty : Message := ⟨0, 0, [], [], false⟩
def Framing.empty : Framing := ⟨0, [], 0, false⟩

structure Session extends Message, Framing
  deriving DecidableEq, Repr

/-- How `parse` ends before the input does: with one of its results, or with an exception
of `reserve`, or undefined. -/
inductive Verdict where
  | completed
  | error
  | lengthError
  | badAlloc
  | undefined
  deriving DecidableEq, Repr

/-- `State` from `HeaderLineStart` on -/
inductive MessageState where
  | headerLineStart
  | headerLws
  | headerName
  | spaceBeforeHeaderValue
  | headerValue
  | expectingNewline_2
  | expectingNewline_3
  | post
  | chunkSize
  | chunkExtensionName
  | chunkExtensionValue
  | chunkSizeNewLine
  | chunkSizeNewLine_2
  | chunkSizeNewLine_3
  | chunkTrailerName
  | chunkTrailerValue
  | chunkDataNewLine_1
  | chunkDataNewLine_2
  | chunkData
  deriving DecidableEq, Repr

abbrev Reader := MessageState × Session

/-- `max_size()` of a `std::vector<char>` -/
def maxSize : Nat := 2 ^ 63 - 1

/-- What `reserve(n)` throws on a vector of `size` bytes; `memory` says how much can be had. -/
def reserve (memory : Nat → Bool) (size n : Nat) : Option Verdict :=
  if n ≤ size then none
  else if maxSize < n then some .lengthError
  else if memory n then none
  else some .badAlloc

/-- Goes on, unless something was thrown. -/
def unlessThrown {σ : Type} (thrown : Option Verdict) (s next : σ) : Next σ Verdict :=
  match thrown with
  | none => .more next
  | some w => .stop w s

/-- `headers.back()` is undefined when there are none. -/
def amendBack (headers : List HeaderItem) (f : HeaderItem → HeaderItem) : Option (List HeaderItem) :=
  headers.getLast?.map fun h => headers.dropLast ++ [f h]

def HeaderItem.pushName (c : UInt8) (h : HeaderItem) : HeaderItem := { h with name := h.name ++ [c] }
def HeaderItem.pushValue (c : UInt8) (h : HeaderItem) : HeaderItem := { h with value := h.value ++ [c] }

/-- Goes on to `next` with the last header changed. -/
def withBack (here next : MessageState) (d : Session) (f : HeaderItem → HeaderItem) : Next Reader Verdict :=
  match amendBack d.headers f with
  | none => .stop .undefined (here, d)
  | some headers => .more (next, { d with headers := headers })

/-- The end of a header line: the fields that say how long the body is. -/
def headerEnd (memory : Nat → Bool) (d : Session) : Next Reader Verdict :=
  match d.headers.getLast? with
  | none => .stop .undefined (.headerValue, d)
  | some h =>
    if strcasecmp h.name (ascii "Content-Length") then
      let d := { d with contentSize := UInt64.ofInt (atoi h.value) }
      unlessThrown (reserve memory d.content.length d.contentSize.toNat) (.headerValue, d)
        (.expectingNewline_2, d)
    else if strcasecmp h.name (ascii "Transfer-Encoding") then
      if strcasecmp h.value (ascii "chunked") then .more (.expectingNewline_2, { d with chunked := true })
      else .more (.expectingNewline_2, d)
    else .more (.expectingNewline_2, d)

def checkIfConnection (item : HeaderItem) : Bool := strcasecmp item.name (ascii "Connection")

/-- The value of `keepAlive` once the headers are known. -/
def settle (m : Message) : Bool :=
  match m.headers.find? checkIfConnection with
  | some item => strcasecmp item.value (ascii "Keep-Alive")
  | none =>
    if m.versionMajor > 1 || (m.versionMajor == 1 && m.versionMinor == 1) then true else m.keepAlive

/-- One round of the loop in `consume`; `framed` says whether a header field may announce a body. -/
def consumeMessage (memory : Nat → Bool) (framed : Bool) : Reader → UInt8 → Next Reader Verdict
  | (.headerLineStart, d), input =>
    if input = cr then .more (.expectingNewline_3, d)
    else if !d.headers.isEmpty && (input == space || input == tab) then .more (.headerLws, d)
    else if !isChar input || isControl input || isSpecial input then .stop .error (.headerLineStart, d)
    else .more (.headerName, { d with headers := d.headers ++ [⟨[input], []⟩] })
  | (.headerLws, d), input =>
    if input = cr then .more (.expectingNewline_2, d)
    else if input = space ∨ input = tab then .more (.headerLws, d)
    else if isControl input then .stop .error (.headerLws, d)
    else withBack .headerLws .headerValue d (.pushValue input)
  | (.headerName, d), input =>
    if input = 58 then .more (.spaceBeforeHeaderValue, d)
    else if !isChar input || isControl input || isSpecial input then .stop .error (.headerName, d)
    else withBack .headerName .headerName d (.pushName input)
  | (.spaceBeforeHeaderValue, d), input =>
    if input = space then .more (.headerValue, d) else .stop .error (.spaceBeforeHeaderValue, d)
  | (.headerValue, d), input =>
    if input = cr then
      if framed then headerEnd memory d else .more (.expectingNewline_2, d)
    else if isControl input then .stop .error (.headerValue, d)
    else withBack .headerValue .headerValue d (.pushValue input)
  | (.expectingNewline_2, d), input =>
    if input = lf then .more (.headerLineStart, d) else .stop .error (.expectingNewline_2, d)
  | (.expectingNewline_3, d), input =>
    let d := { d with keepAlive := settle d.toMessage }
    -- with a body to come the byte is not looked at
    if d.chunked then .more (.chunkSize, d)
    else if d.contentSize = 0 then
      if input = lf then .stop .completed (.expectingNewline_3, d) else .stop .error (.expectingNewline_3, d)
    else .more (.post, d)
  | (.post, d), input =>
    let d := { d with contentSize := d.contentSize - 1, content := d.content ++ [input] }
    if d.contentSize = 0 then .stop .completed (.post, d) else .more (.post, d)
  | (.chunkSize, d), input =>
    if isalnum input then .more (.chunkSize, { d with chunkSizeStr := d.chunkSizeStr ++ [input] })
    else if input = 59 then .more (.chunkExtensionName, d)
    else if input = cr then .more (.chunkSizeNewLine, d)
    else .stop .error (.chunkSize, d)
  | (.chunkExtensionName, d), input =>
    if isalnum input ∨ input = space then .more (.chunkExtensionName, d)
    else if input = 61 then .more (.chunkExtensionValue, d)
    else if input = cr then .more (.chunkSizeNewLine, d)
    else .stop .error (.chunkExtensionName, d)
  | (.chunkExtensionValue, d), input =>
    if isalnum input ∨ input = space then .more (.chunkExtensionValue, d)
    else if input = cr then .more (.chunkSizeNewLine, d)
    else .stop .error (.chunkExtensionValue, d)
  | (.chunkSizeNewLine, d), input =>
    if input = lf then
      let d := { d with chunkSize := UInt64.ofInt (strtol 16 d.chunkSizeStr), chunkSizeStr := [] }
      -- neither summand is above `maxSize`, so the sum does not wrap
      unlessThrown (reserve memory d.content.length (d.content.length + d.chunkSize.toNat))
        (.chunkSizeNewLine, d) (if d.chunkSize = 0 then .chunkSizeNewLine_2 else .chunkData, d)
    else .stop .error (.chunkSizeNewLine, d)
  | (.chunkSizeNewLine_2, d), input =>
    if input = cr then .more (.chunkSizeNewLine_3, d)
    else if isalpha input then .more (.chunkTrailerName, d)
    else .stop .error (.chunkSizeNewLine_2, d)
  | (.chunkSizeNewLine_3, d), input =>
    if input = lf then .stop .completed (.chunkSizeNewLine_3, d) else .stop .error (.chunkSizeNewLine_3, d)
  | (.chunkTrailerName, d), input =>
    if isalnum input then .more (.chunkTrailerName, d)
    else if input = 58 then .more (.chunkTrailerValue, d)
    else .stop .error (.chunkTrailerName, d)
  | (.chunkTrailerValue, d), input =>
    if isalnum input ∨ input = space then .more (.chunkTrailerValue, d)
    else if input = cr then .more (.chunkSizeNewLine, d)
    else .stop .error (.chunkTrailerValue, d)
  | (.chunkData, d), input =>
    let d := { d with content := d.content ++ [input], chunkSize := d.chunkSize - 1 }
    if d.chunkSize = 0 then .more (.chunkDataNewLine_1, d) else .more (.chunkData, d)
  | (.chunkDataNewLine_1, d), input =>
    if input = cr then .more (.chunkDataNewLine_2, d) else .stop .error (.chunkDataNewLine_1, d)
  | (.chunkDataNewLine_2, d), input =>
    if input = lf then .more (.chunkSize, d) else .stop .error (.chunkDataNewLine_2, d)

end Netier.HttpParser
