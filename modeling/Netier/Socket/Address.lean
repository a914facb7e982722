import Netier.Lib.Feed
import Netier.Numerals

/-! `Address`: what it makes of a host name and a port, and the text it gives for them. -/
namespace Netier

/-- The four bytes of a `struct in_addr`. -/
structure InAddr where
  a : UInt8
  b : UInt8
  c : UInt8
  d : UInt8
  deriving DecidableEq, Repr

/-- `struct sockaddr_in`, with its numbers in the order of the network. -/
structure SockaddrIn where
  family : UInt16
  port : UInt16
  addr : InAddr
  deriving DecidableEq, Repr

structure Address where
  addr : SockaddrIn
  addrLen : UInt32
  addressType : UInt16
  deriving DecidableEq, Repr

def afInet : UInt16 := 2

/-- The bytes of a port change places on the way to the network, and back. -/
def htons (port : UInt16) : UInt16 := port <<< 8 ||| port >>> 8
def ntohs (port : UInt16) : UInt16 := htons port

/-- `strtoul(s, &end, 0)` where `s` starts with a digit: the number, and what `end` points to. -/
def strtoul : List UInt8 → Nat × List UInt8
  | 48 :: s =>
    match s with
    | x :: s =>
      if tolower x = 120 ∧ (s.head?.any (isDigitOf 16)) then
        (numeral 16 (s.takeWhile (isDigitOf 16)), s.dropWhile (isDigitOf 16))
      else (numeral 8 ((x :: s).takeWhile (isDigitOf 8)), (x :: s).dropWhile (isDigitOf 8))
    | [] => (0, [])
  | s => (numeral 10 (s.takeWhile (isDigitOf 10)), s.dropWhile (isDigitOf 10))

/-- The last of several parts stands for all the bytes that are left. -/
def lastPart (left n : Nat) : Option (List UInt8) :=
  if n < 256 ^ left then some ((List.range left).map fun i => UInt8.ofNat (n / 256 ^ (left - 1 - i))) else none

/-- The bytes that `inet_addr` reads from parts with dots between them, when `left` are missing. -/
def inetBytes : Nat → List UInt8 → Option (List UInt8)
  | 0, _ => none
  | left + 1, s =>
    if s.head?.any isDigit then
      match strtoul s with
      | (n, 46 :: s) => if n < 256 then (inetBytes left s).map (UInt8.ofNat n :: ·) else none
      | (n, s) => if s.head?.all isspace then lastPart (left + 1) n else none
    else none

/-- `inet_addr`, which returns `INADDR_NONE` for what is no address. -/
def inetAddr (cp : List UInt8) : InAddr :=
  match inetBytes 4 cp with
  | some [a, b, c, d] => ⟨a, b, c, d⟩
  | _ => ⟨255, 255, 255, 255⟩

/-- `%d` of a number that is not negative. -/
def decimal (n : Nat) : List UInt8 := if n = 0 then [48] else digitText 10 n

def inetNtoa (i : InAddr) : List UInt8 :=
  decimal i.a.toNat ++ 46 :: (decimal i.b.toNat ++ 46 :: (decimal i.c.toNat ++ 46 :: decimal i.d.toNat))

/-- `snprintf(buf, size, ...)` of what the format makes: the return value, and `buf`. -/
def snprintf (text : List UInt8) (size : Nat) : Int × List UInt8 :=
  (if text.length < 2 ^ 31 then text.length else -1, if size = 0 then [] else text.take (size - 1) ++ [0])

/-- `string_format`, with what the format makes of its arguments; nothing is the exception. -/
def stringFormat (text : List UInt8) : Option (List UInt8) :=
  let size := (snprintf text 0).1 + 1
  if size ≤ 0 then none
  else some ((snprintf text size.toNat).2.take (size.toNat - 1))

namespace Address

def create : Address := ⟨⟨0, 0, ⟨0, 0, 0, 0⟩⟩, 0, afInet⟩

/-- `setAddress(ip, port)` -/
def setAddress (a : Address) (ip : List UInt8) (port : UInt16) : Address :=
  { a with addr := ⟨a.addressType, htons port, inetAddr (cstr ip)⟩, addrLen := 16 }

/-- `setAddress(ip, port, type)` -/
def setAddressType (a : Address) (ip : List UInt8) (port : UInt16) (type : UInt16) : Address :=
  { a with addr := ⟨type, htons port, inetAddr (cstr ip)⟩, addrLen := 16, addressType := type }

/-- `setAddress(address)`: the length stays as it was. -/
def setSockaddr (a : Address) (address : SockaddrIn) : Address :=
  { a with addr := address, addressType := address.family }

/-- `Address(host, port)` -/
def ofHost (host : List UInt8) (port : UInt16) : Address := create.setAddress host port

/-- `Address(host, port, addrType)` -/
def ofHostType (host : List UInt8) (port : UInt16) (addrType : UInt16) : Address :=
  { create with addressType := addrType }.setAddress host port

def getPort (a : Address) : UInt16 := ntohs a.addr.port
def getHostString (a : Address) : List UInt8 := inetNtoa a.addr.addr

def getAddressString (a : Address) : Option (List UInt8) :=
  stringFormat (inetNtoa a.addr.addr ++ 58 :: decimal a.getPort.toNat)

end Address

section Text
variable {n : Nat} {rest : List UInt8}

theorem ntohs_htons (port : UInt16) : ntohs (htons port) = port := by
  apply UInt16.eq_of_toBitVec_eq
  simp only [ntohs, htons, UInt16.toBitVec_or, UInt16.toBitVec_shiftLeft, UInt16.toBitVec_shiftRight]
  generalize port.toBitVec = x
  ext i hi
  have hover : x.getLsbD (8 + (8 + i)) = false := BitVec.getLsbD_of_ge _ _ (by omega)
  rcases Nat.lt_or_ge i 8 with h | h
  · have hlow : 8 + i < 16 := by omega
    simp [h, hlow, hover]
  · have hback : 8 + (i - 8) = i := by omega
    have hhigh : ¬ 8 + i < 16 := by omega
    have hlow : i - 8 < 8 := by omega
    simp [Nat.not_lt.2 h, hback, hhigh, hlow, hover, BitVec.getLsbD_eq_getElem hi]

theorem digitByte_digit : ∀ d < 10, isDigit (digitByte d) := by decide
theorem digitByte_ten : ∀ d < 10, isDigitOf 10 (digitByte d) := by decide
theorem digitByte_ne_48 : ∀ d < 10, d ≠ 0 → digitByte d ≠ 48 := by decide

/-- A number that is written out does not start with a zero. -/
theorem digitText_head (hn : n ≠ 0) : ∃ c s, digitText 10 n = c :: s ∧ c ≠ 48 := by
  have hne : Nat.digits 10 n ≠ [] := by simp [Nat.digits_ne_nil_iff_ne_zero, hn]
  obtain ⟨ds, d, hd⟩ : ∃ ds d, Nat.digits 10 n = ds ++ [d] :=
    ⟨_, _, (List.dropLast_append_getLast hne).symm⟩
  have hlt : d < 10 := Nat.digits_lt_base (by decide) (show d ∈ Nat.digits 10 n by simp [hd])
  have hzero : d ≠ 0 := by simpa [hd] using Nat.getLast_digit_ne_zero 10 hn
  exact ⟨digitByte d, ds.reverse.map digitByte, by simp [digitText, hd], digitByte_ne_48 d hlt hzero⟩

theorem decimal_ne_nil (n : Nat) : decimal n ≠ [] := by
  unfold decimal
  split
  · simp
  · rename_i hn
    simp [digitText, Nat.digits_ne_nil_iff_ne_zero, hn]

theorem decimal_digits (n : Nat) : ∀ c ∈ decimal n, isDigit c := by
  unfold decimal
  split
  · decide +kernel
  · exact forall_digitText (by decide) digitByte_digit n

/-- A dot, or the end, ends a number in any base. -/
theorem dot_stops (hrest : ∀ c ∈ rest.head?, c = 46) (base : Nat) (hbase : base ≤ 16) :
    rest.takeWhile (isDigitOf base) = [] ∧ rest.dropWhile (isDigitOf base) = rest := by
  cases rest with
  | nil => simp
  | cons c rest =>
    obtain rfl : c = 46 := hrest c rfl
    have hvalue : digitValue 46 = 36 := by decide
    have hdot : isDigitOf base 46 = false := by
      simp only [isDigitOf, hvalue, decide_eq_false_iff_not]
      omega
    simp [hdot]

/-- Without leading zeros a number is read as the decimal one it is. -/
theorem strtoul_decimal (n : Nat) (rest : List UInt8) (hrest : ∀ c ∈ rest.head?, c = 46) :
    strtoul (decimal n ++ rest) = (n, rest) := by
  unfold decimal
  split
  · rename_i hn
    subst hn
    cases rest with
    | nil => rfl
    | cons c rest =>
      obtain rfl : c = 46 := hrest c rfl
      obtain ⟨htake, hdrop⟩ := dot_stops hrest 8 (by decide)
      have hx : tolower 46 ≠ 120 := by decide
      simp only [List.cons_append, List.nil_append, strtoul, hx, false_and, if_false, htake, hdrop]
      rfl
  · rename_i hn
    obtain ⟨c, s, htext, hc⟩ := digitText_head hn
    have hten : strtoul (digitText 10 n ++ rest) =
        (numeral 10 ((digitText 10 n ++ rest).takeWhile (isDigitOf 10)),
          (digitText 10 n ++ rest).dropWhile (isDigitOf 10)) := by
      rw [htext, List.cons_append, strtoul]
      exact fun s' h => hc (List.cons.inj h).1
    obtain ⟨htake, hdrop⟩ := dot_stops hrest 10 (by decide)
    have hdigits : ∀ c ∈ digitText 10 n, isDigitOf 10 c := forall_digitText (by decide) digitByte_ten n
    rw [hten, List.takeWhile_append_of_pos hdigits, List.dropWhile_append_of_pos hdigits, htake, hdrop,
      List.append_nil, numeral_digitText (by decide) (by decide)]

/-- A byte and the dot after it. -/
theorem inetBytes_part (left : Nat) (b : UInt8) (s : List UInt8) :
    inetBytes (left + 1) (decimal b.toNat ++ 46 :: s) = (inetBytes left s).map (b :: ·) := by
  have hhead : (decimal b.toNat ++ 46 :: s).head?.any isDigit := by
    obtain ⟨c, t, htext⟩ := List.exists_cons_of_ne_nil (decimal_ne_nil b.toNat)
    simpa [htext] using decimal_digits b.toNat c (by simp [htext])
  rw [inetBytes, if_pos hhead, strtoul_decimal b.toNat _ (by simp)]
  simp [b.toNat_lt]

theorem inetBytes_last (b : UInt8) : inetBytes 1 (decimal b.toNat) = some [b] := by
  have hhead : (decimal b.toNat).head?.any isDigit := by
    obtain ⟨c, t, htext⟩ := List.exists_cons_of_ne_nil (decimal_ne_nil b.toNat)
    simpa [htext] using decimal_digits b.toNat c (by simp [htext])
  have hread : strtoul (decimal b.toNat) = (b.toNat, []) := by
    simpa using strtoul_decimal b.toNat [] (by simp)
  rw [inetBytes, if_pos hhead, hread]
  simp [lastPart, b.toNat_lt]

/-- An address that is written out is read as itself. -/
theorem inetAddr_ntoa (i : InAddr) : inetAddr (inetNtoa i) = i := by
  simp [inetAddr, inetNtoa, inetBytes_part, inetBytes_last]

theorem inetNtoa_bytes (i : InAddr) : ∀ c ∈ inetNtoa i, isDigit c ∨ c = 46 := by
  intro c hc
  simp only [inetNtoa, List.mem_append, List.mem_cons] at hc
  rcases hc with hc | rfl | hc | rfl | hc | rfl | hc
  · exact .inl (decimal_digits _ c hc)
  · exact .inr rfl
  · exact .inl (decimal_digits _ c hc)
  · exact .inr rfl
  · exact .inl (decimal_digits _ c hc)
  · exact .inr rfl
  · exact .inl (decimal_digits _ c hc)

theorem cstr_inetNtoa (i : InAddr) : cstr (inetNtoa i) = inetNtoa i := by
  refine cstr_eq fun c hc => ?_
  rintro rfl
  exact absurd (inetNtoa_bytes i 0 hc) (by decide)

theorem decimal_injective : Function.Injective decimal := by
  intro m n h
  have hm := strtoul_decimal m [] (by simp)
  have hn := strtoul_decimal n [] (by simp)
  rw [h, hn] at hm
  exact (Prod.mk.inj hm).1.symm

theorem decimal_length {k : Nat} (hk : 0 < k) (hn : n < 10 ^ k) : (decimal n).length ≤ k := by
  unfold decimal
  split
  · exact hk
  · rw [digitText, List.length_map, List.length_reverse]
    exact (Nat.digits_length_le_iff (by decide) _).2 hn

theorem stringFormat_short {text : List UInt8} (h : text.length < 2 ^ 31 - 1) :
    stringFormat text = some text := by
  have hsize : (snprintf text 0).1 = text.length := if_pos (by omega)
  have hpos : ¬ ((text.length : Int) + 1 ≤ 0) := by omega
  have hnat : ((text.length : Int) + 1).toNat = text.length + 1 := by omega
  have htext : (snprintf text (text.length + 1)).2 = text ++ [0] := by simp [snprintf]
  simp only [stringFormat, hsize, if_neg hpos, hnat, htext]
  simp

end Text

namespace Address

/-- The text never fails, and has the bytes and the port of the address in it. -/
theorem getAddressString_eq (x : Address) :
    x.getAddressString = some (inetNtoa x.addr.addr ++ 58 :: decimal x.getPort.toNat) := by
  have hbyte (b : UInt8) : (decimal b.toNat).length ≤ 3 :=
    decimal_length (by decide) (b.toNat_lt.trans (by decide))
  have hport : (decimal x.getPort.toNat).length ≤ 5 :=
    decimal_length (by decide) (x.getPort.toNat_lt.trans (by decide))
  have ha := hbyte x.addr.addr.a
  have hb := hbyte x.addr.addr.b
  have hc := hbyte x.addr.addr.c
  have hd := hbyte x.addr.addr.d
  refine stringFormat_short ?_
  simp only [inetNtoa, List.length_append, List.length_cons]
  omega

/-- Of a host and a port the text is the one that was given exactly if the host is four decimal
numbers below 256, without leading zeros. -/
theorem host_comes_back_iff (x : Address) (host : List UInt8) (port : UInt16) :
    (x.setAddress host port).getAddressString = some (host ++ 58 :: decimal port.toNat) ↔
      ∃ i, host = inetNtoa i := by
  have hport : (x.setAddress host port).getPort = port := ntohs_htons port
  rw [getAddressString_eq, hport, Option.some_inj, List.append_cancel_right_eq]
  constructor
  · intro h
    exact ⟨_, h.symm⟩
  · rintro ⟨i, rfl⟩
    show inetNtoa (inetAddr (cstr (inetNtoa i))) = _
    rw [cstr_inetNtoa, inetAddr_ntoa]

theorem setSockaddr_getPort (x : Address) (s : SockaddrIn) : (x.setSockaddr s).getPort = ntohs s.port := rfl

/-- The host and the port that are told of a peer are enough to make its address again. -/
theorem peer_comes_back (x y : Address) (s : SockaddrIn) :
    (y.setAddressType (x.setSockaddr s).getHostString (x.setSockaddr s).getPort
      (x.setSockaddr s).addressType).addr = s := by
  have hport : htons (x.setSockaddr s).getPort = s.port := by
    rw [setSockaddr_getPort]
    exact ntohs_htons s.port
  have hhost : inetAddr (cstr (x.setSockaddr s).getHostString) = s.addr := by
    rw [getHostString, cstr_inetNtoa, inetAddr_ntoa]
    rfl
  simp only [setAddressType, hport, hhost]
  rfl

theorem getPort_injective {x y : Address} (h : x.getPort = y.getPort) : x.addr.port = y.addr.port := by
  rw [← ntohs_htons x.addr.port, ← ntohs_htons y.addr.port]
  exact congrArg htons h

/-- The text never fails to be formatted, and tells addresses apart that differ in their bytes
or their port. -/
theorem addressString_tells (x y : Address) :
    (∃ text, x.getAddressString = some text) ∧
      (x.getAddressString = y.getAddressString ↔ x.addr.addr = y.addr.addr ∧ x.addr.port = y.addr.port) := by
  refine ⟨⟨_, getAddressString_eq x⟩, ?_⟩
  rw [getAddressString_eq, getAddressString_eq, Option.some_inj]
  have hcolon : ¬ (isDigit 58 ∨ (58 : UInt8) = 46) := by decide
  constructor
  · intro h
    obtain ⟨hhost, _, hport⟩ :=
      Lib.split_unique (inetNtoa_bytes _) (inetNtoa_bytes _) hcolon hcolon h
    refine ⟨?_, getPort_injective (UInt16.toNat_inj.1 (decimal_injective hport))⟩
    rw [← inetAddr_ntoa x.addr.addr, hhost, inetAddr_ntoa]
  · rintro ⟨haddr, hport⟩
    rw [haddr, getPort, hport]
    rfl

end Address
end Netier
