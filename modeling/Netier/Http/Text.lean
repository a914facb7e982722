import Netier.CString

/-! Bytes as the parsers classify them. -/
namespace Netier.HttpParser

def isChar (c : UInt8) : Bool := c < 128
def isControl (c : UInt8) : Bool := c < 32 || c == 127

/-- The bytes of `()<>@,;:\"/[]?=`, the two braces, space and tab. -/
def isSpecial (c : UInt8) : Bool :=
  [40, 41, 60, 62, 64, 44, 59, 58, 92, 34, 47, 91, 93, 63, 61, 123, 125, 32, 9].contains c

/-- What method and header names are made of. -/
def isToken (c : UInt8) : Bool := isChar c && !isControl c && !isSpecial c

def cr : UInt8 := 13
def lf : UInt8 := 10
def space : UInt8 := 32
def tab : UInt8 := 9

theorem isToken_ne {c d : UInt8} (h : isToken c) (hd : !isToken d) : c ≠ d := by
  rintro rfl
  simp [h] at hd

end Netier.HttpParser
