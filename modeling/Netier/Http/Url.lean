import Netier.Http.Text
import Netier.Lib.Feed

/-! `UrlParser`: the parts of a URL, and the ways in which parsing ends. -/
namespace Netier.HttpParser
open Lib

structure Url where
  scheme : List UInt8
  username : List UInt8
  password : List UInt8
  hostname : List UInt8
  port : List UInt8
  path : List UInt8
  query : List UInt8
  fragment : List UInt8
  integerPort : UInt16
  deriving DecidableEq, Repr

def Url.empty : Url := ⟨[], [], [], [], [], [], [], [], 0⟩

inductive UrlState where
  | scheme
  | slashAfterScheme1
  | slashAfterScheme2
  | usernameOrHostname
  | password
  | hostname
  | ipv6Hostname
  | portOrPassword
  | port
  | path
  | query
  | fragment
  deriving DecidableEq, Repr

/-- The locals of `parse_` with the URL. -/
structure UrlReader where
  state : UrlState
  url : Url
  usernameOrHostname : List UInt8
  portOrPassword : List UInt8
  deriving DecidableEq, Repr

/-- How the loop is left early. -/
inductive UrlStop where
  | invalid
  | abort
  deriving DecidableEq, Repr

/-- How `parse` ends: with a URL that is valid or not, in `abort` or in a failed assertion. -/
inductive UrlResult where
  | parsed (valid : Bool) (url : Url)
  | aborted
  | assertionFailed
  deriving DecidableEq, Repr

def isUnreserved (ch : UInt8) : Bool := isalnum ch || ch == 45 || ch == 46 || ch == 95 || ch == 126

/-- `atoi` of the port, cut down to 16 bits. -/
def portNumber (port : List UInt8) : UInt16 := UInt16.ofInt (atoi port)

/-- `valid = false` -/
def UrlReader.invalid (s : UrlReader) : Next UrlReader UrlStop := .stop .invalid { s with url := Url.empty }

/-- One round of the loop in `parse_`. -/
def UrlReader.step (s : UrlReader) (ch : UInt8) : Next UrlReader UrlStop :=
  match s.state with
  | .scheme =>
    if isalnum ch || ch == 43 || ch == 45 || ch == 46 then
      .more { s with url := { s.url with scheme := s.url.scheme ++ [ch] } }
    else if ch = 58 then .more { s with state := .slashAfterScheme1 }
    else s.invalid
  | .slashAfterScheme1 =>
    if ch = 47 then .more { s with state := .slashAfterScheme2 }
    else if isalnum ch then .more { s with state := .usernameOrHostname, usernameOrHostname := [ch] }
    else s.invalid
  | .slashAfterScheme2 =>
    if ch = 47 then .more { s with state := .usernameOrHostname } else s.invalid
  | .usernameOrHostname =>
    if isUnreserved ch || ch == 37 then .more { s with usernameOrHostname := s.usernameOrHostname ++ [ch] }
    else if ch = 58 then .more { s with state := .portOrPassword }
    else if ch = 64 then
      .more { s with state := .hostname, url := { s.url with username := s.usernameOrHostname }
                     usernameOrHostname := s.url.username }
    else if ch = 47 then
      .more { s with state := .path, url := { s.url with hostname := s.usernameOrHostname }
                     usernameOrHostname := s.url.hostname }
    else s.invalid
  | .password =>
    if isalnum ch || ch == 37 then .more { s with url := { s.url with password := s.url.password ++ [ch] } }
    else if ch = 64 then .more { s with state := .hostname }
    else s.invalid
  | .hostname =>
    if ch == 91 && s.url.hostname.isEmpty then .more { s with state := .ipv6Hostname }
    else if isUnreserved ch || ch == 37 then
      .more { s with url := { s.url with hostname := s.url.hostname ++ [ch] } }
    else if ch = 58 then .more { s with state := .port }
    else if ch = 47 then .more { s with state := .path }
    else s.invalid
  | .ipv6Hostname => .stop .abort s
  | .portOrPassword =>
    if isDigit ch then .more { s with portOrPassword := s.portOrPassword ++ [ch] }
    else if ch = 47 then
      .more { s with
        state := .path
        url := { s.url with hostname := s.usernameOrHostname, port := s.portOrPassword
                            integerPort := portNumber s.portOrPassword }
        usernameOrHostname := s.url.hostname
        portOrPassword := s.url.port }
    else if isalnum ch || ch == 37 then
      .more { s with
        state := .password
        url := { s.url with username := s.usernameOrHostname, password := s.portOrPassword ++ [ch] }
        usernameOrHostname := s.url.username
        portOrPassword := s.url.password }
    else s.invalid
  | .port =>
    if isDigit ch then .more { s with portOrPassword := s.portOrPassword ++ [ch] }
    else if ch = 47 then
      .more { s with
        state := .path
        url := { s.url with port := s.portOrPassword, integerPort := portNumber s.portOrPassword }
        portOrPassword := s.url.port }
    else s.invalid
  | .path =>
    if ch = 35 then .more { s with state := .fragment }
    else if ch = 63 then .more { s with state := .query }
    else .more { s with url := { s.url with path := s.url.path ++ [ch] } }
  | .query =>
    if ch = 35 then .more { s with state := .fragment }
    else if ch = 63 then .more { s with state := .query }
    else .more { s with url := { s.url with query := s.url.query ++ [ch] } }
  | .fragment => .more { s with url := { s.url with fragment := s.url.fragment ++ [ch] } }

def UrlReader.start : UrlReader := ⟨.scheme, { Url.empty with path := [47] }, [], []⟩

/-- After the loop, also when it was left because the URL is invalid. -/
def UrlReader.finish (valid : Bool) (s : UrlReader) : UrlResult :=
  if s.portOrPassword.isEmpty then
    .parsed valid (if s.usernameOrHostname.isEmpty then s.url else { s.url with hostname := s.usernameOrHostname })
  else .assertionFailed

def UrlReader.result : Next UrlReader UrlStop → UrlResult
  | .more s => s.finish true
  | .stop .invalid s => s.finish false
  | .stop .abort _ => .aborted

def UrlParser.parse_ (str : List UInt8) : UrlResult := UrlReader.result (feed UrlReader.step .start str)

/-- Of a valid URL. -/
def UrlParser.httpPort (url : Url) : UInt16 :=
  if url.port.isEmpty then
    if url.scheme == ascii "https" then 443 else 80
  else url.integerPort

end Netier.HttpParser
