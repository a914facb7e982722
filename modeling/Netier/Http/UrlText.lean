import Netier.Http.Url
import Netier.Numerals

/-! URLs written out from their parts, and what the parser makes of them. -/
namespace Netier.HttpParser
open Lib

def isSchemeByte (c : UInt8) : Bool := isalnum c || c == 43 || c == 45 || c == 46
def isHostByte (c : UInt8) : Bool := isUnreserved c || c == 37
def isPasswordByte (c : UInt8) : Bool := isalnum c || c == 37

structure UserInfo where
  name : List UInt8
  password : Option (List UInt8)
  name_text : ∀ c ∈ name, isHostByte c
  password_text : ∀ p ∈ password, ∀ c ∈ p, isPasswordByte c

/-- What follows the slash after the host. -/
structure UrlTail where
  path : List UInt8
  query : Option (List UInt8)
  fragment : Option (List UInt8)
  path_text : ∀ c ∈ path, c ≠ 35 ∧ c ≠ 63
  query_text : ∀ q ∈ query, ∀ c ∈ q, c ≠ 35 ∧ c ≠ 63

structure UrlText where
  scheme : List UInt8
  user : Option UserInfo
  host : List UInt8
  port : Option (List UInt8)
  tail : Option UrlTail
  scheme_text : ∀ c ∈ scheme, isSchemeByte c
  host_text : ∀ c ∈ host, isHostByte c
  port_text : ∀ p ∈ port, ∀ c ∈ p, isDigit c

def UserInfo.print (u : UserInfo) : List UInt8 :=
  u.name ++ (u.password.elim [] (fun p => 58 :: p) ++ [64])

def UrlTail.print (t : UrlTail) : List UInt8 :=
  47 :: (t.path ++ (t.query.elim [] (fun q => 63 :: q) ++ t.fragment.elim [] (fun f => 35 :: f)))

def UrlText.print (u : UrlText) : List UInt8 :=
  u.scheme ++ 58 :: 47 :: 47 :: (u.user.elim [] UserInfo.print ++
    (u.host ++ (u.port.elim [] (fun p => 58 :: p) ++ u.tail.elim [] UrlTail.print)))

/-- The parts as the parser stores them. -/
def UrlText.url (u : UrlText) : Url where
  scheme := u.scheme
  username := u.user.elim [] UserInfo.name
  password := (u.user.bind UserInfo.password).getD []
  hostname := u.host
  port := u.port.getD []
  path := 47 :: u.tail.elim [] UrlTail.path
  query := (u.tail.bind UrlTail.query).getD []
  fragment := (u.tail.bind UrlTail.fragment).getD []
  integerPort := portNumber (u.port.getD [])

section Steps
variable {url : Url} {uoh pop run rest : List UInt8}

/-- A state that appends bytes to one part of the URL. -/
theorem feed_part {state : UrlState} {P : UInt8 → Prop} (add : Url → List UInt8 → Url)
    (hnil : ∀ url, add url [] = url) (hcons : ∀ url c run, add (add url [c]) run = add url (c :: run))
    (hstep : ∀ url c, P c →
      UrlReader.step ⟨state, url, uoh, pop⟩ c = .more ⟨state, add url [c], uoh, pop⟩)
    (hrun : ∀ c ∈ run, P c) (rest : List UInt8) :
    feed UrlReader.step ⟨state, url, uoh, pop⟩ (run ++ rest) =
      feed UrlReader.step ⟨state, add url run, uoh, pop⟩ rest := by
  induction run generalizing url with
  | nil => rw [hnil, List.nil_append]
  | cons c run ih =>
    obtain ⟨hc, hrun⟩ := List.forall_mem_cons.1 hrun
    rw [List.cons_append, feed_cons_more (hstep url c hc), ih hrun, hcons]

theorem feed_digits {state : UrlState} (hstate : state = .portOrPassword ∨ state = .port)
    (hrun : ∀ c ∈ run, isDigit c) (rest : List UInt8) :
    feed UrlReader.step ⟨state, url, uoh, pop⟩ (run ++ rest) =
      feed UrlReader.step ⟨state, url, uoh, pop ++ run⟩ rest := by
  refine feed_collect (fun c => isDigit c) (fun a => UrlReader.mk state url uoh a) ?_ pop hrun rest
  intro a c hc
  rcases hstate with rfl | rfl <;> simp [UrlReader.step, hc]

theorem feed_path (hrun : ∀ c ∈ run, c ≠ 35 ∧ c ≠ 63) (rest : List UInt8) :
    feed UrlReader.step ⟨.path, url, uoh, pop⟩ (run ++ rest) =
      feed UrlReader.step ⟨.path, { url with path := url.path ++ run }, uoh, pop⟩ rest := by
  refine feed_part (fun url run => { url with path := url.path ++ run }) ?_ ?_ ?_ hrun rest
  · simp
  · simp
  · intro url c hc
    simp [UrlReader.step, hc]

theorem feed_query (hrun : ∀ c ∈ run, c ≠ 35 ∧ c ≠ 63) (rest : List UInt8) :
    feed UrlReader.step ⟨.query, url, uoh, pop⟩ (run ++ rest) =
      feed UrlReader.step ⟨.query, { url with query := url.query ++ run }, uoh, pop⟩ rest := by
  refine feed_part (fun url run => { url with query := url.query ++ run }) ?_ ?_ ?_ hrun rest
  · simp
  · simp
  · intro url c hc
    simp [UrlReader.step, hc]

theorem feed_fragment (run : List UInt8) : feed UrlReader.step ⟨.fragment, url, uoh, pop⟩ run =
    .more ⟨.fragment, { url with fragment := url.fragment ++ run }, uoh, pop⟩ := by
  induction run generalizing url with
  | nil => simp [feed]
  | cons c run ih =>
    rw [feed_cons_more (t := ⟨.fragment, { url with fragment := url.fragment ++ [c] }, uoh, pop⟩) rfl, ih]
    simp

/-- The part after the hash. -/
theorem feed_fragmentPart {st : UrlState} (hst : st = .path ∨ st = .query) (url : Url)
    (fragment : Option (List UInt8)) :
    ∃ st', feed UrlReader.step ⟨st, url, uoh, pop⟩ (fragment.elim [] fun f => 35 :: f) =
      .more ⟨st', { url with fragment := url.fragment ++ fragment.getD [] }, uoh, pop⟩ := by
  cases fragment with
  | none => exact ⟨st, by simp [feed]⟩
  | some f =>
    have hhash : UrlReader.step ⟨st, url, uoh, pop⟩ 35 = .more ⟨.fragment, url, uoh, pop⟩ := by
      rcases hst with rfl | rfl <;> rfl
    exact ⟨.fragment, (feed_cons_more hhash f).trans (feed_fragment f)⟩

/-- What follows the slash after the host. -/
theorem feed_tail (url : Url) (t : UrlTail) :
    ∃ st, feed UrlReader.step ⟨.path, url, uoh, pop⟩
        (t.path ++ (t.query.elim [] (fun q => 63 :: q) ++ t.fragment.elim [] (fun f => 35 :: f))) =
      .more ⟨st, { url with
        path := url.path ++ t.path
        query := url.query ++ t.query.getD []
        fragment := url.fragment ++ t.fragment.getD [] }, uoh, pop⟩ := by
  rw [feed_path t.path_text]
  cases hquery : t.query with
  | none =>
    obtain ⟨st, h⟩ := feed_fragmentPart (.inl rfl) { url with path := url.path ++ t.path } t.fragment
    exact ⟨st, by simpa using h⟩
  | some q =>
    have hquestion : ∀ url, UrlReader.step ⟨.path, url, uoh, pop⟩ 63 = .more ⟨.query, url, uoh, pop⟩ :=
      fun _ => rfl
    obtain ⟨st, h⟩ := feed_fragmentPart (.inr rfl)
      { url with path := url.path ++ t.path, query := url.query ++ q }
      t.fragment
    refine ⟨st, ?_⟩
    rw [Option.elim_some, List.cons_append, feed_cons_more (hquestion _), feed_query (t.query_text q hquery)]
    exact h

end Steps

section Outcome

def Url.withPort (url : Url) : Option (List UInt8) → Url
  | none => url
  | some p => { url with port := p, integerPort := portNumber p }

def Url.withTail (url : Url) : Option UrlTail → Url
  | none => url
  | some t => { url with path := 47 :: t.path, query := t.query.getD [], fragment := t.fragment.getD [] }

/-- A reader that has the host: it may end here, or go on to the path or to the port. -/
structure AtHost (s : UrlReader) (url : Url) : Prop where
  blank : url.port = [] ∧ url.integerPort = 0 ∧ url.path = [47] ∧ url.query = [] ∧ url.fragment = []
  ends : s.finish true = .parsed true url
  slash : s.step 47 = .more ⟨.path, url, [], []⟩
  colon : ∃ st url₀ uoh, (st = .portOrPassword ∨ st = .port) ∧
    s.step 58 = .more ⟨st, url₀, uoh, []⟩ ∧
    UrlReader.finish true ⟨st, url₀, uoh, []⟩ = .parsed true url ∧
    ∀ p, UrlReader.step ⟨st, url₀, uoh, p⟩ 47 =
      .more ⟨.path, { url with port := p, integerPort := portNumber p }, [], []⟩

theorem result_tail {s : UrlReader} {url : Url} (hslash : s.step 47 = .more ⟨.path, url, [], []⟩)
    (hpath : url.path = [47]) (hquery : url.query = []) (hfragment : url.fragment = []) (t : UrlTail) :
    UrlReader.result (feed UrlReader.step s t.print) = .parsed true (url.withTail (some t)) := by
  obtain ⟨st, h⟩ := feed_tail url t
  rw [UrlTail.print, feed_cons_more hslash, h, hpath, hquery, hfragment]
  rfl

theorem AtHost.withPort_nil {s : UrlReader} {url : Url} (hs : AtHost s url) : url.withPort (some []) = url := by
  cases url
  obtain ⟨rfl, rfl, -, -, -⟩ := hs.blank
  simp [Url.withPort, show portNumber [] = 0 by decide]

/-- From the host on. -/
theorem AtHost.result {s : UrlReader} {url : Url} (hs : AtHost s url) {port : Option (List UInt8)}
    (hport : ∀ p ∈ port, ∀ c ∈ p, isDigit c) (tail : Option UrlTail) :
    UrlReader.result (feed UrlReader.step s (port.elim [] (fun p => 58 :: p) ++ tail.elim [] UrlTail.print)) =
      if port.getD [] ≠ [] ∧ tail.isNone then .assertionFailed
      else .parsed true ((url.withPort port).withTail tail) := by
  obtain ⟨hnoPort, hnumber, hpath, hquery, hfragment⟩ := hs.blank
  obtain ⟨st, url₀, uoh, hst, hcolon, hempty, hslash⟩ := hs.colon
  cases port with
  | none =>
    cases tail with
    | none => exact hs.ends
    | some t => exact result_tail hs.slash hpath hquery hfragment t
  | some p =>
    have hfeed : ∀ rest, feed UrlReader.step s (58 :: (p ++ rest)) =
        feed UrlReader.step ⟨st, url₀, uoh, p⟩ rest := fun rest => by
      rw [feed_cons_more hcolon, feed_digits hst (hport p rfl)]
      rfl
    simp only [Option.elim_some, List.cons_append, hfeed]
    cases tail with
    | none =>
      by_cases hp : p = []
      · subst hp
        rw [hs.withPort_nil]
        exact hempty
      · rw [if_pos ⟨hp, rfl⟩]
        cases p with
        | nil => exact absurd rfl hp
        | cons c p => rfl
    | some t =>
      rw [if_neg (by simp)]
      exact result_tail (hslash p) hpath hquery hfragment t

/-- A port that is written out is the one to connect to, cut down to 16 bits. -/
theorem httpPort_written (u : UrlText) {n : Nat} (hpos : 0 < n) (hn : n < 2 ^ 31)
    (hport : u.port = some (digitText 10 n)) : UrlParser.httpPort u.url = UInt16.ofNat n := by
  have hne : digitText 10 n ≠ [] := by simp [digitText, Nat.digits_ne_nil_iff_ne_zero, hpos.ne']
  have hnumber : portNumber (digitText 10 n) = UInt16.ofNat n := by
    have hmod : ((n : Int) % 2 ^ 16).toNat = n % 2 ^ 16 := by omega
    rw [portNumber, atoi_digitText hn, UInt16.ofInt, hmod]
    exact UInt16.ofNat_mod_size
  simp [UrlParser.httpPort, UrlText.url, hport, hne, hnumber]

/-- Without one it follows the scheme. -/
theorem httpPort_default (u : UrlText) (hport : u.port.getD [] = []) :
    UrlParser.httpPort u.url = if u.scheme = ascii "https" then 443 else 80 := by
  simp [UrlParser.httpPort, UrlText.url, hport]

end Outcome
end Netier.HttpParser
