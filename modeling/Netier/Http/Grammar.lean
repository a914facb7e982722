import Netier.Http.Message

/-! The texts the parsers accept from the first header line on, as trees: what each part is
made of, the bytes it stands for and what it makes of what was read before it. -/
namespace Netier.HttpParser

def crlf : List UInt8 := [cr, lf]

/-- A header line with a name. -/
structure Field where
  name : List UInt8
  value : List UInt8
  name_ne : name ≠ []
  name_token : ∀ c ∈ name, isToken c
  value_text : ∀ c ∈ value, isControl c = false

/-- A line that goes on with the value before it, or is blank. -/
structure Fold where
  blank : List UInt8
  value : List UInt8
  blank_ne : blank ≠ []
  blank_blank : ∀ c ∈ blank, c = space ∨ c = tab
  value_text : ∀ c ∈ value, isControl c = false
  value_head : value.head? ≠ some space

inductive Line where
  | field (f : Field)
  | fold (f : Fold)

def Field.print (f : Field) : List UInt8 := f.name ++ 58 :: space :: (f.value ++ crlf)
def Fold.print (f : Fold) : List UInt8 := f.blank ++ (f.value ++ crlf)

def Line.print : Line → List UInt8
  | .field f => f.print
  | .fold f => f.print

/-- What the header lines have told so far. -/
structure Head where
  headers : List HeaderItem
  contentSize : UInt64
  chunked : Bool
  deriving DecidableEq, Repr

def Head.push (h : Head) (item : HeaderItem) : Head := { h with headers := h.headers ++ [item] }

/-- What the last header says about the body. -/
def Head.frame (memory : Nat → Bool) (framed : Bool) (h : Head) : Option Head :=
  if framed then
    h.headers.getLast?.bind fun item =>
      if strcasecmp item.name (ascii "Content-Length") then
        let n := UInt64.ofInt (atoi item.value)
        if reserve memory 0 n.toNat = none then some { h with contentSize := n } else none
      else if strcasecmp item.name (ascii "Transfer-Encoding") ∧ strcasecmp item.value (ascii "chunked") then
        some { h with chunked := true }
      else some h
  else some h

def Line.read (memory : Nat → Bool) (framed : Bool) (h : Head) : Line → Option Head
  | .field f => (h.push ⟨f.name, f.value⟩).frame memory framed
  | .fold f =>
    (amendBack h.headers fun item => { item with value := item.value ++ f.value }).bind fun headers =>
      if f.value = [] then some { h with headers := headers }
      else { h with headers := headers : Head }.frame memory framed

/-- What may follow the digits of a chunk size. -/
structure Extension where
  name : List UInt8
  value : Option (List UInt8)
  name_text : ∀ c ∈ name, isalnum c ∨ c = space
  value_text : ∀ v ∈ value, ∀ c ∈ v, isalnum c ∨ c = space

structure SizeLine where
  size : List UInt8
  extension : Option Extension
  size_text : ∀ c ∈ size, isalnum c

/-- The size of the chunk that the line announces. -/
def SizeLine.value (l : SizeLine) : UInt64 := UInt64.ofInt (strtol 16 l.size)

/-- A chunk that is not the last one. -/
structure Chunk where
  line : SizeLine
  data : List UInt8
  length_eq : data.length = line.value.toNat
  data_ne : data ≠ []

structure Trailer where
  name : List UInt8
  value : List UInt8
  name_head : ∃ c ∈ name.head?, isalpha c
  name_text : ∀ c ∈ name, isalnum c
  value_text : ∀ c ∈ value, isalnum c ∨ c = space

structure ChunkedBody where
  chunks : List Chunk
  last : SizeLine
  trailers : List Trailer
  last_zero : last.value = 0

inductive Body where
  | empty
  | sized (content : List UInt8)
  | chunked (body : ChunkedBody)

def Extension.print (e : Extension) : List UInt8 :=
  59 :: (e.name ++ match e.value with
    | none => []
    | some v => 61 :: v)

def SizeLine.print (l : SizeLine) : List UInt8 :=
  l.size ++ (l.extension.elim [] Extension.print ++ crlf)

def Chunk.print (c : Chunk) : List UInt8 := c.line.print ++ (c.data ++ crlf)
def Trailer.print (t : Trailer) : List UInt8 := t.name ++ 58 :: (t.value ++ crlf)

def ChunkedBody.print (b : ChunkedBody) : List UInt8 :=
  b.chunks.flatMap Chunk.print ++ (b.last.print ++ (b.trailers.flatMap Trailer.print ++ crlf))

def Body.print : Body → List UInt8
  | .empty => []
  | .sized content => content
  | .chunked body => body.print

/-- Room for one more chunk has to be found. -/
def Chunk.read (memory : Nat → Bool) (content : List UInt8) (c : Chunk) : Option (List UInt8) :=
  if reserve memory content.length (content.length + c.data.length) = none then some (content ++ c.data)
  else none

/-- The header lines, the byte where the line feed of the blank line belongs, and the body. -/
structure MessageText where
  lines : List Line
  newline : UInt8
  body : Body

def MessageText.print (t : MessageText) : List UInt8 :=
  t.lines.flatMap Line.print ++ cr :: t.newline :: t.body.print

/-- What the parser has read when it stands at the start of a line. -/
def Head.session (h : Head) (m : Message) : Session :=
  { m with headers := h.headers, contentSize := h.contentSize, chunkSizeStr := [], chunkSize := 0,
           chunked := h.chunked }

/-- And after the blank line. -/
def Head.settled (h : Head) (m : Message) : Session :=
  { h.session m with keepAlive := settle { m with headers := h.headers } }

/-- A body fits the head that announces it. -/
def Body.read (memory : Nat → Bool) (newline : UInt8) (h : Head) (d : Session) : Body → Option Reader
  | .empty =>
    if h.chunked = false ∧ h.contentSize = 0 ∧ newline = lf then some (.expectingNewline_3, d) else none
  | .sized content =>
    if h.chunked = false ∧ h.contentSize ≠ 0 ∧ content.length = h.contentSize.toNat then
      some (.post, { d with contentSize := 0, content := d.content ++ content })
    else none
  | .chunked body =>
    if h.chunked then
      (body.chunks.foldlM (Chunk.read memory) d.content).map fun content =>
        (.chunkSizeNewLine_3, { d with content := content })
    else none

def MessageText.read (memory : Nat → Bool) (framed : Bool) (m : Message) (t : MessageText) : Option Reader :=
  (t.lines.foldlM (Line.read memory framed) ⟨m.headers, 0, false⟩).bind fun h =>
    t.body.read memory t.newline h (h.settled m)

end Netier.HttpParser
