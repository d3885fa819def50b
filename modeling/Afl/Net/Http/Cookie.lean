import Afl.Net.Header
import Afl.Net.Url.Url
import Afl.Sys.Time

/-!
# Cookies

`afl/net/http/cookie.cpp`. A position in a string that is parsed is the rest of the string from there on.
-/

namespace Afl.Net.Http

open Sys

/-! ### Matching -/

def getBasePath (s : Bytes) : Bytes :=
  let s := s.takeWhile (· ≠ 63)
  match s.reverse.dropWhile (· ≠ 47) with
  | [] => s
  | slash :: before => if before = [] then [slash] else before.reverse

/-- Whether a host is no IP address: there is no colon in it, as in IPv6, and not only digits and dots, as in IPv4. -/
def isNamedHost (host : Bytes) : Bool := 58 ∉ host && host.any fun c => !(charIsDigit c || c = 46)

def matchHost (userHost cookieHost : Bytes) (domainMatch : Bool) : Bool :=
  if cookieHost = userHost then true
  else if userHost.length > cookieHost.length then
    domainMatch && isNamedHost userHost && userHost.drop (userHost.length - cookieHost.length) = cookieHost &&
      (cookieHost.head? = some 46 || userHost[userHost.length - cookieHost.length - 1]? = some 46)
  else false

def matchCookiePath (userPath cookiePath : Bytes) : Bool :=
  if userPath.length < cookiePath.length then
    userPath.length + 1 = cookiePath.length && userPath = cookiePath.take userPath.length &&
      cookiePath[userPath.length]? = some 47
  else if userPath.take cookiePath.length ≠ cookiePath then false
  else if userPath.length = cookiePath.length then true
  else if cookiePath.getLast? = some 47 then true
  else userPath[cookiePath.length]? = some 47

/-! ### Expiry dates -/

def isDelimiter (ch : UInt8) : Bool :=
  ch = 0x09 || (0x20 ≤ ch && ch ≤ 0x2F) || (0x3B ≤ ch && ch ≤ 0x40) || (0x5B ≤ ch && ch ≤ 0x60) ||
    (0x7B ≤ ch && ch ≤ 0x7E)

/-- `parseNumber`: a number of some digits, and what follows it. -/
def parseDigits (str : Bytes) (minDig maxDig : Nat) : Option (UInt16 × Bytes) :=
  let digits := str.takeWhile charIsDigit
  if minDig ≤ digits.length ∧ digits.length ≤ maxDig then
    some (UInt16.ofNat (digitsValue digits), str.dropWhile charIsDigit)
  else none

/-- `parseDaytime`. It changes the fields it gets to. -/
def parseDaytime (str : Bytes) (pt : ParsedTime) : Bool × ParsedTime :=
  match parseDigits str 1 2 with
  | some (hour, 58 :: str) =>
    let pt := { pt with hour := hour }
    match parseDigits str 1 2 with
    | some (minute, 58 :: str) =>
      let pt := { pt with minute := minute }
      match parseDigits str 1 2 with
      | some (second, _) => (true, { pt with second := second })
      | none => (false, pt)
    | some (minute, _) => (false, { pt with minute := minute })
    | none => (false, pt)
  | some (hour, _) => (false, { pt with hour := hour })
  | none => (false, pt)

def parseDay (str : Bytes) (pt : ParsedTime) : Bool × ParsedTime :=
  match parseDigits str 1 2 with
  | some (day, _) => (true, { pt with day := day })
  | none => (false, pt)

def months : List Bytes :=
  [lit "jan", lit "feb", lit "mar", lit "apr", lit "may", lit "jun", lit "jul", lit "aug", lit "sep", lit "oct",
    lit "nov", lit "dec"]

def parseMonth (str : Bytes) (pt : ParsedTime) : Bool × ParsedTime :=
  match months.findIdx? fun m => strCaseCompare (str.take 3) m = 0 with
  | some i => (true, { pt with month := UInt16.ofNat (i + 1) })
  | none => (false, pt)

def parseYear (str : Bytes) (pt : ParsedTime) : Bool × ParsedTime :=
  match parseDigits str 2 4 with
  | some (year, _) => (true, { pt with year := year })
  | none => (false, pt)

/-- The variables of `parseTime`. -/
structure DateScan where
  pt : ParsedTime
  foundTime : Bool
  foundDaytime : Bool
  foundMonth : Bool
  foundYear : Bool

/-- What `parseTime` does with a token: each kind of field is looked for until it has been found. -/
def takeToken (s : DateScan) (token : Bytes) : DateScan :=
  let time := if s.foundTime then (false, s.pt) else parseDaytime token s.pt
  if time.1 then { s with pt := time.2, foundTime := true }
  else
    let day := if s.foundDaytime then (false, time.2) else parseDay token time.2
    if day.1 then { s with pt := day.2, foundDaytime := true }
    else
      let month := if s.foundMonth then (false, day.2) else parseMonth token day.2
      if month.1 then { s with pt := month.2, foundMonth := true }
      else
        let year := if s.foundYear then (false, month.2) else parseYear token month.2
        if year.1 then { s with pt := year.2, foundYear := true } else { s with pt := year.2 }

def isTokenChar (ch : UInt8) : Bool := !isDelimiter ch

def dateTokens (s : Bytes) : List Bytes :=
  let token := (s.dropWhile isDelimiter).takeWhile isTokenChar
  if _h : token = [] then [] else token :: dateTokens ((s.dropWhile isDelimiter).dropWhile isTokenChar)
termination_by s.length
decreasing_by
  have hsplit := congrArg List.length
    (List.takeWhile_append_dropWhile (p := isTokenChar) (l := s.dropWhile isDelimiter))
  have hdrop := (List.dropWhile_suffix isDelimiter (l := s)).length_le
  have hpos : 0 < ((s.dropWhile isDelimiter).takeWhile isTokenChar).length := List.length_pos_of_ne_nil _h
  rw [List.length_append] at hsplit
  omega

/-- The year, with two digits for one from 1970 to 2069. -/
def fixYear (year : UInt16) : UInt16 := if year < 100 then (if year < 70 then year + 2000 else year + 1900) else year

def parseTime (s : Bytes) : Option Time :=
  let scan := (dateTokens s).foldl takeToken ⟨⟨0, 0, 0, 0, 0, 0, 0⟩, false, false, false, false⟩
  if scan.foundTime ∧ scan.foundDaytime ∧ scan.foundMonth ∧ scan.foundYear then
    let pt : ParsedTime := { scan.pt with year := fixYear scan.pt.year }
    if pt.day < 1 ∨ pt.day > 31 ∨ pt.year < 1601 ∨ pt.hour > 23 ∨ pt.minute > 59 ∨ pt.second > 59 then none
    else some (packTime pt)
  else none

/-! ### Lines of a file -/

/-- `parseStringField`: the field up to the next tab, and what follows that. -/
def parseStringField (line : Bytes) : Bytes × Bytes :=
  (line.takeWhile (· ≠ 9), (line.dropWhile (· ≠ 9)).drop 1)

def parseBoolField (line : Bytes) : Option (Bool × Bytes) :=
  let (tmp, rest) := parseStringField line
  if strCaseCompare tmp (lit "TRUE") = 0 then some (true, rest)
  else if strCaseCompare tmp (lit "FALSE") = 0 then some (false, rest)
  else none

def parseTimeField (line : Bytes) : Option (Time × Bytes) :=
  let (tmp, rest) := parseStringField line
  match strToLong tmp with
  | some val => if val < 0 ∨ val > 0x10000000000 then none else some (Time.fromUnixTime (Int64.ofInt val), rest)
  | none => none

/-! ### Cookies -/

structure Cookie where
  sequenceNumber : UInt32
  host : Bytes
  hostDomainMatch : Bool
  path : Bytes
  secure : Bool
  expirationTime : Time
  name : Bytes
  value : Bytes
  persistent : Bool
deriving DecidableEq

namespace Cookie

def isValid (c : Cookie) : Bool := c.name ≠ [] && c.host ≠ [] && c.path.head? = some 47

def isExpired (c : Cookie) (now : Time) : Bool := c.persistent && c.expirationTime ≤ now

def matchUrl (c : Cookie) (url : Url) : Bool :=
  matchHost url.host c.host c.hostDomainMatch && matchCookiePath (getBasePath url.path) c.path &&
    (!c.secure || url.scheme = lit "https")

def matchCookie (c other : Cookie) : Bool := c.host = other.host && c.path = other.path && c.name = other.name

def parseFromString (line : Bytes) : Option Cookie := do
  guard (line ≠ [] ∧ line.head? ≠ some 35)
  let (host, line) := parseStringField line
  let (hostDomainMatch, line) ← parseBoolField line
  let (path, line) := parseStringField line
  let (secure, line) ← parseBoolField line
  let (expirationTime, line) ← parseTimeField line
  let (name, line) := parseStringField line
  let (value, _) := parseStringField line
  let c : Cookie := ⟨0, host, hostDomainMatch, path, secure, expirationTime, name, value, true⟩
  guard c.isValid
  pure c

def boolText (b : Bool) : Bytes := if b then lit "TRUE" else lit "FALSE"

def toString (c : Cookie) : Bytes :=
  c.host ++ 9 :: boolText c.hostDomainMatch ++ 9 :: c.path ++ 9 :: boolText c.secure ++
    9 :: decimal (Time.getUnixTime c.expirationTime).toInt ++ 9 :: c.name ++ 9 :: c.value

/-! ### Cookies of a server -/

/-- The attribute parser of `init`: the cookie, and whether a `Max-Age` has been seen. -/
structure AttributeParser where
  self : Cookie
  hadMaxAge : Bool

def handleExpires (p : AttributeParser) (value : Bytes) : AttributeParser :=
  if p.hadMaxAge then p
  else
    match parseTime value with
    | some t => { p with self := { p.self with expirationTime := t, persistent := true } }
    | none => p

def handleMaxAge (now : Time) (p : AttributeParser) (value : Bytes) : AttributeParser :=
  if p.hadMaxAge then p
  else
    match strToLong value with
    | some t =>
      ⟨{ p.self with expirationTime := now + fromSeconds (Int64.ofInt t), persistent := true }, true⟩
    | none => p

def handleAttribute (now : Time) (p : AttributeParser) (f : HeaderField) : AttributeParser :=
  if strCaseCompare f.name (lit "expires") = 0 then handleExpires p f.value
  else if strCaseCompare f.name (lit "max-age") = 0 then handleMaxAge now p f.value
  else if strCaseCompare f.name (lit "domain") = 0 then
    if f.value ≠ [] then { p with self := { p.self with host := strLCase f.value, hostDomainMatch := true } } else p
  else if strCaseCompare f.name (lit "path") = 0 then
    if f.value.head? = some 47 then { p with self := { p.self with path := f.value } } else p
  else if strCaseCompare f.name (lit "secure") = 0 then { p with self := { p.self with secure := true } }
  else p

/-- A port number is removed from a host, but nothing from an address in brackets. -/
def stripPort (host : Bytes) : Bytes :=
  match host.reverse.dropWhile fun c => c ≠ 58 ∧ c ≠ 93 with
  | 58 :: before => before.reverse
  | _ => host

def options : FieldMode := ⟨true, true, false⟩

def init (url : Url) (field : HeaderField) : Cookie where
  sequenceNumber := 0
  host := url.host
  hostDomainMatch := false
  path := getBasePath url.path
  secure := false
  expirationTime := 0
  name := field.name
  value := field.getPrimaryValueMode options
  persistent := false

def new (url : Url) (now : Time) (field : HeaderField) : Cookie :=
  let p := (field.enumerateSecondaryValues options).foldl (handleAttribute now) ⟨init url field, false⟩
  { p.self with host := stripPort p.self.host }

end Cookie

end Afl.Net.Http
