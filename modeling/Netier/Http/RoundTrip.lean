import Netier.Http.RequestText
import Netier.Http.ResponseText
import Netier.Numerals

/-! Messages written out by a well-behaved peer, and what the parsers make of them. -/
namespace Netier.HttpParser
open Lib

/-- A block of content that becomes one chunk. -/
structure ChunkData where
  bytes : List UInt8
  bytes_ne : bytes ≠ []
  fits : bytes.length ≤ maxSize

/-- What a message carries: nothing, content of a length that an `int` holds, or chunks. -/
inductive Payload where
  | empty
  | sized (content : List UInt8) (content_ne : content ≠ []) (fits : content.length < 2 ^ 31)
  | chunked (blocks : List ChunkData) (fits : (blocks.flatMap ChunkData.bytes).length ≤ maxSize)

def Payload.content : Payload → List UInt8
  | .empty => []
  | .sized content _ _ => content
  | .chunked blocks _ => blocks.flatMap ChunkData.bytes

def HeaderItem.print (item : HeaderItem) : List UInt8 := item.name ++ 58 :: space :: (item.value ++ crlf)
def Field.item (f : Field) : HeaderItem := ⟨f.name, f.value⟩

section Payload
variable {memory : Nat → Bool} {framed : Bool} {h : Head} {fs : List Field}

theorem digitByte_text : ∀ d < 10, isControl (digitByte d) = false := by decide

def contentLength (n : Nat) : Field where
  name := ascii "Content-Length"
  value := digitText 10 n
  name_ne := by decide
  name_token := by decide +kernel
  value_text := forall_digitText (by decide) digitByte_text n

def transferEncoding : Field where
  name := ascii "Transfer-Encoding"
  value := ascii "chunked"
  name_ne := by decide
  name_token := by decide +kernel
  value_text := by decide +kernel

def Payload.fields : Payload → List Field
  | .empty => []
  | .sized content _ _ => [contentLength content.length]
  | .chunked _ _ => [transferEncoding]

/-- The chunk that a block becomes. -/
def ChunkData.chunk (b : ChunkData) : Chunk where
  line := ⟨digitText 16 b.bytes.length, none, forall_digitText (by decide) digitByte_alnum _⟩
  data := b.bytes
  data_ne := b.bytes_ne
  length_eq := by
    have hfits := b.fits
    unfold maxSize at hfits
    rw [SizeLine.value, strtol_digitText (by decide) (by decide) (by unfold longMax; omega),
      toNat_ofInt (by omega)]

def lastChunk : SizeLine := ⟨[48], none, by decide +kernel⟩

def Payload.body : Payload → Body
  | .empty => .empty
  | .sized content _ _ => .sized content
  | .chunked blocks _ => .chunked ⟨blocks.map ChunkData.chunk, lastChunk, [], by decide⟩

/-- The text that is written out, as the grammar has it. -/
def Payload.text (fs : List Field) (p : Payload) : MessageText :=
  ⟨(fs ++ p.fields).map Line.field, lf, p.body⟩

/-- What the headers tell about a payload. -/
def Payload.head (headers : List HeaderItem) : Payload → Head
  | .empty => ⟨headers, 0, false⟩
  | .sized content _ _ => ⟨headers, UInt64.ofInt content.length, false⟩
  | .chunked _ _ => ⟨headers, 0, true⟩

end Payload

/-- `1` -/
def versionOne : VersionNumber := ⟨[49], by decide, by decide +kernel, by decide⟩

def postLine : RequestLine :=
  ⟨ascii "POST", ascii "/", by decide, by decide +kernel, by decide, by decide +kernel, by decide +kernel⟩

/-- `HTTP/1.1 200 OK` -/
def okLine : StatusLine :=
  ⟨versionOne, versionOne, ascii "200", ascii "OK",
    by decide, by decide +kernel, by decide, by decide +kernel, by decide +kernel⟩

end Netier.HttpParser
