import Mathlib.Data.List.TakeWhile
import Mathlib.Data.UInt

/-! Bytes as the C library classifies them, and its functions on strings. `char` is signed, so a
byte from 128 on is a negative `int`, which is in no class of the C locale. The standard leaves
`isalnum` and `isalpha` of a negative `char` other than `EOF`, and `atoi` of a number beyond an
`int`, undefined; here they give what glibc gives. -/
namespace Netier

def isDigit (c : UInt8) : Bool := 48 ≤ c && c ≤ 57

def isalpha (c : UInt8) : Bool := 65 ≤ c && c ≤ 90 || 97 ≤ c && c ≤ 122
def isalnum (c : UInt8) : Bool := isalpha c || isDigit c
def isspace (c : UInt8) : Bool := c == 32 || 9 ≤ c && c ≤ 13
def tolower (c : UInt8) : UInt8 := if 65 ≤ c && c ≤ 90 then c + 32 else c

def ascii (s : String) : List UInt8 := s.toList.map fun c => c.toNat.toUInt8

/-- What `c_str()` shows of a string: nothing from its first zero byte on. -/
def cstr (s : List UInt8) : List UInt8 := s.takeWhile (· != 0)

/-- `strcasecmp(s, t) == 0` -/
def strcasecmp (s t : List UInt8) : Bool := (cstr s).map tolower == (cstr t).map tolower

def digitValue (c : UInt8) : Nat :=
  if isDigit c then c.toNat - 48
  else if isalpha c then (tolower c).toNat - 87
  else 36

def isDigitOf (base : Nat) (c : UInt8) : Bool := digitValue c < base

/-- The value of digits, the most significant one first. -/
def numeral (base : Nat) (s : List UInt8) : Nat := s.foldl (fun n c => n * base + digitValue c) 0

/-- The bytes after an optional sign, with the sign. -/
def sign : List UInt8 → Bool × List UInt8
  | 45 :: s => (true, s)
  | 43 :: s => (false, s)
  | s => (false, s)

/-- In base 16 the digits may follow `0x`. -/
def skipPrefix (base : Nat) : List UInt8 → List UInt8
  | 48 :: x :: s => if base = 16 ∧ tolower x = 120 then s else 48 :: x :: s
  | s => s

def longMax : Int := 2 ^ 63 - 1

/-- `strtol(s, NULL, base)`, which stays within the range of a `long`. -/
def strtol (base : Nat) (s : List UInt8) : Int :=
  let (negative, s) := sign ((cstr s).dropWhile isspace)
  let n := (numeral base ((skipPrefix base s).takeWhile (isDigitOf base)) : Int)
  if negative then max (-n) (-longMax - 1) else min n longMax

/-- In glibc `atoi` is `strtol` in base 10, cut down to an `int`. -/
def atoi (s : List UInt8) : Int := (strtol 10 s).bmod (2 ^ 32)

theorem cstr_eq {s : List UInt8} (h : ∀ c ∈ s, c ≠ 0) : cstr s = s :=
  List.takeWhile_eq_self_iff.2 fun c hc => by simpa using h c hc

end Netier
