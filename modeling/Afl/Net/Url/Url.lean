import Afl.Charset.UrlEncoding

/-!
# URLs

`afl/net/url.cpp`. A position in the string that is parsed is the rest of the string from there on; `find` and
`find_first_of` are `findIdx?` on that rest, with `none` for `npos`.
-/

namespace Afl.Net

open Charset

structure Url where
  scheme : Bytes
  user : Bytes
  password : Bytes
  host : Bytes
  port : Bytes
  path : Bytes
  fragment : Bytes
deriving DecidableEq

namespace Url

/-! ### Parsing -/

/-- The characters `@:/#`, one of which ends a scheme. -/
def endsScheme (c : UInt8) : Bool := c = 64 || c = 58 || c = 47 || c = 35

/-- The characters `:/#?`, one of which ends a host name. -/
def endsHost (c : UInt8) : Bool := c = 58 || c = 47 || c = 35 || c = 63

def isDigit (c : UInt8) : Bool := 48 ≤ c && c ≤ 57

def parseScheme (url : Bytes) : Bytes × Bytes :=
  match url.findIdx? endsScheme with
  | none => ([], url)
  | some n =>
    if n ≠ 0 ∧ url[n]? = some 58 then (UrlEncoding.decode (url.take n), url.drop (n + 1)) else ([], url)

def parseUser (url : Bytes) : Option (Bytes × Bytes × Bytes) :=
  match url.findIdx? (· = 64) with
  | none => some ([], [], url)
  | some atPos =>
    if atPos = 0 then none
    else
      match url.findIdx? (· = 58) with
      | none => some (UrlEncoding.decode (url.take atPos), [], url.drop (atPos + 1))
      | some colonPos =>
        if colonPos = 0 then none
        else if colonPos < atPos then
          some (UrlEncoding.decode (url.take colonPos),
            UrlEncoding.decode ((url.drop (colonPos + 1)).take (atPos - colonPos - 1)), url.drop (atPos + 1))
        else some (UrlEncoding.decode (url.take atPos), [], url.drop (atPos + 1))

/-- A host name in brackets, given what follows the opening bracket. -/
def parseBracketed (url : Bytes) : Option (Bytes × Bytes) :=
  match url.findIdx? (· = 93) with
  | none => none
  | some bracketPos =>
    match url.drop (bracketPos + 1) with
    | [] => some (UrlEncoding.decode (url.take bracketPos), [])
    | c :: rest =>
      if c ≠ 58 ∧ c ≠ 47 ∧ c ≠ 35 then none else some (UrlEncoding.decode (url.take bracketPos), c :: rest)

/-- A host name that ends at one of `:/#?`. -/
def parsePlain (url : Bytes) : Bytes × Bytes :=
  match url.findIdx? endsHost with
  | none => (UrlEncoding.decode url, [])
  | some endPos => (UrlEncoding.decode (url.take endPos), url.drop endPos)

def parseHost (url : Bytes) : Option (Bytes × Bytes) :=
  match url with
  | [] => some (parsePlain [])
  | c :: rest => if c = 91 then parseBracketed rest else some (parsePlain (c :: rest))

def parseDigits (url : Bytes) : Option (Bytes × Bytes) :=
  match url.findIdx? (fun c => !isDigit c) with
  | none => some (UrlEncoding.decode url, [])
  | some portEndPos =>
    if portEndPos = 0 then none
    else
      match url.drop portEndPos with
      | [] => none
      | c :: rest =>
        if c ≠ 47 ∧ c ≠ 35 ∧ c ≠ 63 then none else some (UrlEncoding.decode (url.take portEndPos), c :: rest)

def parsePort (url : Bytes) : Option (Bytes × Bytes) :=
  match url with
  | [] => some ([], [])
  | c :: rest => if c = 58 then parseDigits rest else some ([], c :: rest)

/-- Path and fragment; the fragment keeps its `#`. -/
def parsePath (url : Bytes) : Bytes × Bytes :=
  match url.findIdx? (· = 35) with
  | none => (url, [])
  | some fragPos => (url.take fragPos, UrlEncoding.decode (url.drop fragPos))

/-- The path that `parse` makes of the one given when there is an authority. -/
def rooted (path : Bytes) : Bytes := if path.head? = some 47 then path else 47 :: path

/-- What follows the `//`. -/
def parseAuthority (scheme url : Bytes) : Option Url := do
  let (user, password, url) ← parseUser url
  let (host, url) ← parseHost url
  let (port, url) ← parsePort url
  let (path, fragment) := parsePath url
  return ⟨scheme, user, password, host, port, rooted path, fragment⟩

/-- `Url::parse`; `none` is a syntax error. -/
def parse (url : Bytes) : Option Url :=
  match parseScheme url with
  | (scheme, 47 :: 47 :: url) => parseAuthority scheme url
  | (scheme, url) =>
    let (path, fragment) := parsePath url
    some ⟨scheme, [], [], [], [], path, fragment⟩

/-! ### Printing -/

/-- The part of `toString` between the slashes and the path. -/
def authorityText (u : Url) : Bytes :=
  (if u.user ≠ [] then u.user ++ [58] ++ u.password ++ [64] else []) ++
    (if 58 ∈ u.host then [91] ++ u.host ++ [93] else u.host) ++
    (if u.port ≠ [] then [58] ++ u.port else [])

def toString (u : Url) : Bytes :=
  (if u.scheme ≠ [] then u.scheme ++ [58] else []) ++
    (if u.host ≠ [] then lit "//" ++ u.authorityText ++ (if u.path.head? = some 47 then [] else [47]) else []) ++
    u.path ++ u.fragment

def isValidHost (u : Url) : Bool := !u.scheme.isEmpty && !u.path.isEmpty && !u.host.isEmpty

/-! ### Merging -/

/-- `rfind('/')`: the position of the last slash. -/
def rfind : Bytes → Option Nat
  | [] => none
  | c :: s =>
    match rfind s with
    | some n => some (n + 1)
    | none => if c = 47 then some 0 else none

/-- Drop the last component of `result`; `keep` is 1 if the slash before it stays. -/
def dropComponent (keep : Nat) (result : Bytes) : Bytes :=
  match (if result.length ≥ 2 then rfind (result.take (result.length - 1)) else none) with
  | some drop => result.take (drop + keep)
  | none => [47]

/-- The body of the loop of `mergePath`. -/
def mergeComponent (result component : Bytes) : Bytes :=
  if component = lit ".." then dropComponent 1 result
  else if component = lit "." then result
  else result ++ component ++ [47]

/-- What `mergePath` does with the final component. -/
def mergeFinal (result component : Bytes) : Bytes :=
  if component = lit ".." then dropComponent 0 result
  else if component = lit "." then result
  else result ++ component

/-- The loop of `mergePath` over the third argument; `component` is what precedes it since the last slash. -/
def mergeComponents (result component : Bytes) : Bytes → Bytes
  | [] => mergeFinal result component
  | c :: right =>
    if c = 47 then mergeComponents (mergeComponent result component) [] right
    else mergeComponents result (component ++ [c]) right

def mergePath (left right : Bytes) : Bytes :=
  match rfind left with
  | some n => mergeComponents (left.take (n + 1)) [] right
  | none => mergeComponents left [] right

/-- The path after `mergeFrom`, if neither scheme nor host were given. -/
def mergedPath (path other : Bytes) : Bytes :=
  if path.head? = some 47 then path
  else if path = [] then other
  else mergePath other path

/-- `Url::mergeFrom`. Its `keep` is set as soon as the scheme or the host is not copied. -/
def mergeFrom (u other : Url) : Url :=
  if u.scheme = [] then
    if u.host = [] then
      { u with
        scheme := other.scheme
        host := other.host
        port := other.port
        user := other.user
        password := other.password
        path := mergedPath u.path other.path }
    else { u with scheme := other.scheme }
  else u

example : mergePath (lit "/foo/bar") (lit "../x/./y") = lit "/x/y" := by decide

end Url

end Afl.Net
