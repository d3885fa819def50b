import Afl.Lib.Split
import Afl.Net.Url.Url

/-!
# The grammar of URLs

The strings `parse` accepts, by what they consist of: an `Address` is a scheme, an authority, a path and a fragment
as they are written, with the proof that the delimiters cannot be mistaken. `parse_text` says that `parse` takes an
address apart, and `exists_address` that it accepts nothing else.
-/

namespace Afl.Net

open Charset UrlEncoding Url

/-- What precedes the host. -/
inductive Login
  | absent
  | user (name : Bytes)
  | full (name password : Bytes)
deriving DecidableEq

namespace Login

def text : Login → Bytes
  | absent => []
  | user name => name ++ [64]
  | full name password => name ++ [58] ++ password ++ [64]

def name : Login → Bytes
  | absent => []
  | user name => name
  | full name _ => name

def password : Login → Bytes
  | absent => []
  | user _ => []
  | full _ password => password

/-- Neither name nor password hold a delimiter; `rest` is what follows. -/
def Legal (rest : Bytes) : Login → Prop
  | absent => 64 ∉ rest
  | user name => name ≠ [] ∧ 58 ∉ name ∧ 64 ∉ name
  | full name password => name ≠ [] ∧ 58 ∉ name ∧ 64 ∉ name ∧ 64 ∉ password

end Login

/-- A host name as it is written. -/
inductive Host
  | plain (name : Bytes)
  | bracketed (name : Bytes)
deriving DecidableEq

namespace Host

def name : Host → Bytes
  | plain name => name
  | bracketed name => name

def text : Host → Bytes
  | plain name => name
  | bracketed name => [91] ++ name ++ [93]

/-- The name holds no delimiter, and `rest`, which follows, begins with one. -/
def Legal (rest : Bytes) : Host → Prop
  | plain name => (∀ c ∈ name, endsHost c = false) ∧ name.head? ≠ some 91 ∧ ∀ c ∈ rest.head?, endsHost c = true
  | bracketed name => 93 ∉ name ∧ ∀ c ∈ rest.head?, c = 58 ∨ c = 47 ∨ c = 35

end Host

def portText : Option Bytes → Bytes
  | none => []
  | some digits => 58 :: digits

/-- A port may be empty at the end of the string only. -/
def PortLegal (rest : Bytes) : Option Bytes → Prop
  | none => rest.head? ≠ some 58
  | some digits =>
    (∀ c ∈ digits, isDigit c = true) ∧ (digits = [] → rest = []) ∧ ∀ c ∈ rest.head?, c = 47 ∨ c = 35 ∨ c = 63

structure Authority where
  login : Login
  host : Host
  port : Option Bytes

namespace Authority

def text (a : Authority) : Bytes := a.login.text ++ a.host.text ++ portText a.port

structure Legal (a : Authority) (rest : Bytes) : Prop where
  login : a.login.Legal (a.host.text ++ portText a.port ++ rest)
  host : a.host.Legal (portText a.port ++ rest)
  port : PortLegal rest a.port

end Authority

/-- A path without authority: not the slashes of an authority, and not a scheme. -/
def BareLegal (scheme path : Bytes) : Prop :=
  ¬[47, 47] <+: path ∧ (scheme = [] → ∀ a b, path = a ++ 58 :: b → a ≠ [] → ∃ c ∈ a, endsScheme c = true)

/-- A URL as it is written. -/
structure Address where
  scheme : Bytes
  authority : Option Authority
  path : Bytes
  fragment : Bytes
  hscheme : ∀ c ∈ scheme, endsScheme c = false
  hauthority : ∀ a ∈ authority, a.Legal (path ++ fragment)
  hbare : authority = none → BareLegal scheme path
  hpath : 35 ∉ path
  hfragment : ∀ c ∈ fragment.head?, c = 35

namespace Address

def schemeText (scheme : Bytes) : Bytes := if scheme ≠ [] then scheme ++ [58] else []

def authorityText : Option Authority → Bytes
  | none => []
  | some a => lit "//" ++ a.text

def text (a : Address) : Bytes := schemeText a.scheme ++ authorityText a.authority ++ a.path ++ a.fragment

/-- What an address says. -/
def url (a : Address) : Url :=
  match a.authority with
  | none => ⟨decode a.scheme, [], [], [], [], a.path, decode a.fragment⟩
  | some b =>
    ⟨decode a.scheme, decode b.login.name, decode b.login.password, decode b.host.name, decode (b.port.getD []),
      rooted a.path, decode a.fragment⟩

end Address

/-! ### The parts of an address -/

theorem parseScheme_some {scheme : Bytes} (hne : scheme ≠ []) (h : ∀ c ∈ scheme, endsScheme c = false)
    (rest : Bytes) : parseScheme (scheme ++ 58 :: rest) = (decode scheme, rest) := by
  have hlength : scheme.length ≠ 0 := by simpa using hne
  simp [parseScheme, Split.findIdx?_append h (by decide : endsScheme 58 = true), hlength]

theorem parseScheme_none {s : Bytes} (h : ∀ a b, s = a ++ 58 :: b → a ≠ [] → ∃ c ∈ a, endsScheme c = true) :
    parseScheme s = ([], s) := by
  rcases Split.cases endsScheme s with hs | ⟨a, c, b, rfl, hc, ha⟩
  · simp [parseScheme, Split.findIdx?_none hs]
  · rw [parseScheme, Split.findIdx?_append ha hc]
    refine if_neg ?_
    rintro ⟨hne, hcolon⟩
    have hcolon : c = 58 := by simpa using hcolon
    subst hcolon
    obtain ⟨x, hx, hend⟩ := h a b rfl (by simpa using hne)
    exact absurd (ha x hx) (by simp [hend])

theorem ne_of_notMem {a c : UInt8} {s : Bytes} (h : a ∉ s) (hc : c ∈ s) : decide (c = a) = false :=
  decide_eq_false fun hca => h (hca ▸ hc)

theorem parseUser_text {login : Login} {rest : Bytes} (h : login.Legal rest) :
    parseUser (login.text ++ rest) = some (decode login.name, decode login.password, rest) := by
  cases login with
  | absent =>
    have hnone := Split.findIdx?_none fun c (hc : c ∈ rest) => ne_of_notMem h hc
    simp [parseUser, Login.text, Login.name, Login.password, hnone, decode]
  | user name =>
    obtain ⟨hne, hcolon, hat⟩ := h
    have hlength : name.length ≠ 0 := by simpa using hne
    have hfind := Split.findIdx?_append (b := rest) (fun c (hc : c ∈ name) => ne_of_notMem hat hc)
      (decide_eq_true (rfl : (64 : UInt8) = 64))
    have hnone := Split.findIdx?_none fun c (hc : c ∈ name) => ne_of_notMem hcolon hc
    have htext : Login.text (.user name) ++ rest = name ++ 64 :: rest := by simp [Login.text]
    rw [htext, parseUser, hfind]
    simp only [if_neg hlength, List.findIdx?_append, hnone, Option.none_or]
    -- a colon that follows the at sign does not matter
    cases hlater : (64 :: rest).findIdx? (· = 58) with
    | none => simp [Login.name, Login.password, decode]
    | some k => simp [Login.name, Login.password, decode, hlength]
  | full name password =>
    obtain ⟨hne, hcolon, hat, hpassword⟩ := h
    have hlength : name.length ≠ 0 := by simpa using hne
    have hbefore : ∀ c ∈ name ++ 58 :: password, decide (c = 64) = false := by
      intro c hc
      rcases List.mem_append.mp hc with hc | hc
      · exact ne_of_notMem hat hc
      · rcases List.mem_cons.mp hc with rfl | hc
        · rfl
        · exact ne_of_notMem hpassword hc
    have hfind := Split.findIdx?_append (b := rest) hbefore (decide_eq_true (rfl : (64 : UInt8) = 64))
    have hfindColon := Split.findIdx?_append (b := password ++ 64 :: rest)
      (fun c (hc : c ∈ name) => ne_of_notMem hcolon hc) (decide_eq_true (rfl : (58 : UInt8) = 58))
    have htext : Login.text (.full name password) ++ rest = (name ++ 58 :: password) ++ 64 :: rest := by
      simp [Login.text]
    have hsame : (name ++ 58 :: password) ++ 64 :: rest = name ++ 58 :: (password ++ 64 :: rest) := by simp
    have hdrop : (name ++ 58 :: (password ++ 64 :: rest)).drop (name.length + (password.length + 1) + 1) = rest := by
      simpa using Split.drop_append (name ++ 58 :: password) rest 64
    rw [htext, parseUser, hfind]
    simp only [hsame, hfindColon]
    simp [Login.name, Login.password, hlength, hdrop]

theorem parseHost_text {host : Host} {rest : Bytes} (h : host.Legal rest) :
    parseHost (host.text ++ rest) = some (decode host.name, rest) := by
  cases host with
  | plain name =>
    obtain ⟨hname, hbracket, hrest⟩ := h
    have hplain : parsePlain (name ++ rest) = (decode name, rest) := by
      cases rest with
      | nil => simp [parsePlain, Split.findIdx?_none hname]
      | cons c rest => simp [parsePlain, Split.findIdx?_append hname (hrest c rfl)]
    have hhead : (name ++ rest).head? ≠ some 91 := by
      cases name with
      | nil =>
        intro hhead
        exact absurd (hrest 91 hhead) (by decide)
      | cons c name => exact hbracket
    rw [Host.text, Host.name, ← hplain]
    cases htext : name ++ rest with
    | nil => rfl
    | cons c tail =>
      rw [htext] at hhead
      exact if_neg fun hc => hhead (congrArg some hc)
  | bracketed name =>
    obtain ⟨hname, hrest⟩ := h
    have hfind := Split.findIdx?_append (b := rest) (fun c (hc : c ∈ name) => ne_of_notMem hname hc)
      (decide_eq_true (rfl : (93 : UInt8) = 93))
    have htext : Host.text (.bracketed name) ++ rest = 91 :: (name ++ 93 :: rest) := by simp [Host.text]
    rw [htext, parseHost, if_pos rfl, parseBracketed, hfind]
    cases rest with
    | nil => simp [Host.name]
    | cons c rest =>
      have hc := hrest c rfl
      have hlegal : ¬(c ≠ 58 ∧ c ≠ 47 ∧ c ≠ 35) := by tauto
      simp [Host.name, hlegal]

theorem parsePort_text {port : Option Bytes} {rest : Bytes} (h : PortLegal rest port) :
    parsePort (portText port ++ rest) = some (decode (port.getD []), rest) := by
  cases port with
  | none =>
    cases rest with
    | nil => rfl
    | cons c rest =>
      have hc : c ≠ 58 := fun hc => h (congrArg some hc)
      simp [portText, parsePort, hc, decode]
  | some digits =>
    obtain ⟨hdigits, hempty, hrest⟩ := h
    have hall : ∀ c ∈ digits, (!isDigit c) = false := fun c hc => by simp [hdigits c hc]
    rw [portText, List.cons_append, parsePort, if_pos rfl, parseDigits]
    cases rest with
    | nil => simp [Split.findIdx?_none hall]
    | cons c rest =>
      have hc := hrest c rfl
      have hstop : (!isDigit c) = true := by rcases hc with rfl | rfl | rfl <;> rfl
      have hlength : digits.length ≠ 0 := by
        intro hzero
        exact absurd (hempty (List.length_eq_zero_iff.mp hzero)) (by simp)
      have hlegal : ¬(c ≠ 47 ∧ c ≠ 35 ∧ c ≠ 63) := by tauto
      simp [Split.findIdx?_append hall hstop, hlength, hlegal]

theorem parsePath_text {path fragment : Bytes} (hpath : 35 ∉ path) (hfragment : ∀ c ∈ fragment.head?, c = 35) :
    parsePath (path ++ fragment) = (path, decode fragment) := by
  have hbefore := fun c (hc : c ∈ path) => ne_of_notMem hpath hc
  cases fragment with
  | nil => simp [parsePath, Split.findIdx?_none hbefore, decode]
  | cons c fragment =>
    have hc := decide_eq_true (hfragment c rfl)
    simp [parsePath, Split.findIdx?_append hbefore hc]

/-! ### What is accepted -/

theorem parseAuthority_text (scheme : Bytes) {b : Authority} {path fragment : Bytes}
    (h : b.Legal (path ++ fragment)) (hpath : 35 ∉ path) (hfragment : ∀ c ∈ fragment.head?, c = 35) :
    parseAuthority scheme (b.text ++ path ++ fragment) =
      some ⟨scheme, decode b.login.name, decode b.login.password, decode b.host.name, decode (b.port.getD []),
        rooted path, decode fragment⟩ := by
  have htext : b.text ++ path ++ fragment =
      b.login.text ++ (b.host.text ++ (portText b.port ++ (path ++ fragment))) := by
    simp [Authority.text]
  have hlogin := h.login
  simp only [List.append_assoc] at hlogin
  rw [parseAuthority, htext, parseUser_text hlogin]
  simp [parseHost_text h.host, parsePort_text h.port, parsePath_text hpath hfragment]

theorem parse_of_authority {s scheme rest : Bytes} (h : parseScheme s = (scheme, 47 :: 47 :: rest)) :
    parse s = parseAuthority scheme rest := by
  rw [parse, h]
  rfl

theorem parse_of_bare {s scheme rest : Bytes} (h : parseScheme s = (scheme, rest)) (hrest : ¬[47, 47] <+: rest) :
    parse s = some ⟨scheme, [], [], [], [], (parsePath rest).1, (parsePath rest).2⟩ := by
  rw [parse, h]
  split
  · next heq =>
      obtain ⟨rfl, rfl⟩ := Prod.mk.injEq .. ▸ heq
      exact absurd ⟨_, rfl⟩ hrest
  · next heq =>
      obtain ⟨rfl, rfl⟩ := Prod.mk.injEq .. ▸ heq
      rfl

theorem parseScheme_text {scheme rest : Bytes} (h : ∀ c ∈ scheme, endsScheme c = false)
    (hrest : scheme = [] → ∀ a b, rest = a ++ 58 :: b → a ≠ [] → ∃ c ∈ a, endsScheme c = true) :
    parseScheme (Address.schemeText scheme ++ rest) = (decode scheme, rest) := by
  by_cases hne : scheme = []
  · subst hne
    exact parseScheme_none (hrest rfl)
  · have htext : Address.schemeText scheme ++ rest = scheme ++ 58 :: rest := by simp [Address.schemeText, hne]
    rw [htext]
    exact parseScheme_some hne h rest

theorem BareLegal.append {scheme path fragment : Bytes} (h : BareLegal scheme path)
    (hfragment : ∀ c ∈ fragment.head?, c = 35) (hscheme : scheme = []) (a b : Bytes)
    (heq : path ++ fragment = a ++ 58 :: b) (hne : a ≠ []) : ∃ c ∈ a, endsScheme c = true := by
  rcases List.append_eq_append_iff.mp heq with ⟨l, rfl, hl⟩ | ⟨l, hpath, hl⟩
  · cases l with
    | nil => exact absurd (hfragment 58 (by rw [hl]; rfl)) (by decide)
    | cons c l =>
      have hc : c = 35 := hfragment c (by rw [hl]; rfl)
      exact ⟨c, by simp, hc ▸ rfl⟩
  · cases l with
    | nil =>
      have hhead : fragment.head? = some 58 := by rw [← List.nil_append fragment, ← hl]; rfl
      exact absurd (hfragment 58 hhead) (by decide)
    | cons c l =>
      obtain ⟨rfl, rfl⟩ := List.cons.inj hl
      exact h.2 hscheme a l hpath hne

theorem BareLegal.not_prefix {scheme path fragment : Bytes} (h : BareLegal scheme path)
    (hfragment : ∀ c ∈ fragment.head?, c = 35) : ¬[47, 47] <+: path ++ fragment := by
  rintro ⟨t, ht⟩
  match path, h with
  | [], _ => exact absurd (hfragment 47 (by rw [← List.nil_append fragment, ← ht]; rfl)) (by decide)
  | [c], _ =>
    have htail : 47 :: t = fragment := (List.cons.inj ht).2
    exact absurd (hfragment 47 (by rw [← htail]; rfl)) (by decide)
  | c :: c' :: path, h =>
    obtain ⟨rfl, htail⟩ := List.cons.inj ht
    obtain ⟨rfl, -⟩ := List.cons.inj htail
    exact h.1 ⟨path, rfl⟩

theorem parse_text (a : Address) : parse a.text = some a.url := by
  obtain ⟨scheme, authority, path, fragment, hscheme, hauthority, hbare, hpath, hfragment⟩ := a
  cases authority with
  | none =>
    have hlegal := hbare rfl
    have htext : parseScheme (Address.schemeText scheme ++ (path ++ fragment)) = (decode scheme, path ++ fragment) :=
      parseScheme_text hscheme fun hnil a b => hlegal.append hfragment hnil a b
    have hparse := parse_of_bare htext (hlegal.not_prefix hfragment)
    simpa [Address.text, Address.authorityText, Address.url, parsePath_text hpath hfragment] using hparse
  | some b =>
    have htext : parseScheme (Address.schemeText scheme ++ 47 :: 47 :: (b.text ++ path ++ fragment)) =
        (decode scheme, 47 :: 47 :: (b.text ++ path ++ fragment)) := by
      refine parseScheme_text hscheme fun _ a rest heq hne => ?_
      cases a with
      | nil => exact absurd rfl hne
      | cons c a => exact ⟨c, List.mem_cons_self, (List.cons.inj heq).1 ▸ rfl⟩
    have hparse := parse_of_authority htext
    rw [parseAuthority_text _ (hauthority b rfl) hpath hfragment] at hparse
    simpa [Address.text, Address.authorityText, Address.url, lit] using hparse

/-! ### What is parsed is an address -/

theorem notMem_of_ne {a : UInt8} {s : Bytes} (h : ∀ c ∈ s, decide (c = a) = false) : a ∉ s :=
  fun ha => absurd (h a ha) (by simp)

theorem parseScheme_cases (s : Bytes) :
    ∃ scheme rest, s = Address.schemeText scheme ++ rest ∧ parseScheme s = (decode scheme, rest) ∧
      (∀ c ∈ scheme, endsScheme c = false) ∧
      (scheme = [] → ∀ a b, rest = a ++ 58 :: b → a ≠ [] → ∃ c ∈ a, endsScheme c = true) := by
  have hnone (h : parseScheme s = ([], s)) :
      ∃ scheme rest, s = Address.schemeText scheme ++ rest ∧ parseScheme s = (decode scheme, rest) ∧
        (∀ c ∈ scheme, endsScheme c = false) ∧
        (scheme = [] → ∀ a b, rest = a ++ 58 :: b → a ≠ [] → ∃ c ∈ a, endsScheme c = true) := by
    refine ⟨[], s, rfl, h, List.forall_mem_nil _, ?_⟩
    intro _ a b heq hne
    by_contra hno
    have ha : ∀ c ∈ a, endsScheme c = false := fun c hc => by
      by_contra hend
      exact hno ⟨c, hc, by simpa using hend⟩
    rw [heq, parseScheme_some hne ha b] at h
    exact absurd (Prod.mk.inj h).1 (decode_ne_nil hne)
  rcases Split.cases endsScheme s with hs | ⟨a, c, b, rfl, hc, ha⟩
  · exact hnone (by rw [parseScheme, Split.findIdx?_none hs])
  · by_cases hscheme : a ≠ [] ∧ c = 58
    · obtain ⟨hne, rfl⟩ := hscheme
      exact ⟨a, b, by simp [Address.schemeText, hne], parseScheme_some hne ha b, ha, fun h => absurd h hne⟩
    · refine hnone ?_
      rw [parseScheme, Split.findIdx?_append ha hc]
      refine if_neg fun h => hscheme ⟨by simpa using h.1, by simpa using h.2⟩

theorem parseUser_cases {s user password rest : Bytes} (h : parseUser s = some (user, password, rest)) :
    ∃ login : Login, s = login.text ++ rest ∧ login.Legal rest ∧ decode login.name = user ∧
      decode login.password = password := by
  rcases Split.cases (fun c => decide (c = 64)) s with hs | ⟨a, c, b, rfl, hc, ha⟩
  · rw [parseUser, Split.findIdx?_none hs] at h
    obtain ⟨rfl, rfl, rfl⟩ : [] = user ∧ [] = password ∧ s = rest := by simpa using h
    exact ⟨.absent, rfl, notMem_of_ne hs, rfl, rfl⟩
  · obtain rfl : c = 64 := of_decide_eq_true hc
    have hat := notMem_of_ne ha
    have hne : a ≠ [] := by
      rintro rfl
      rw [parseUser, Split.findIdx?_append ha hc] at h
      simp at h
    rcases Split.cases (fun c => decide (c = 58)) a with hcolon | ⟨name, c, pass, rfl, hc', hname⟩
    · have hlegal : Login.Legal b (.user a) := ⟨hne, notMem_of_ne hcolon, hat⟩
      have hparse := parseUser_text hlegal
      have htext : Login.text (.user a) ++ b = a ++ 64 :: b := by simp [Login.text]
      rw [htext, h] at hparse
      obtain ⟨rfl, rfl, rfl⟩ : user = _ ∧ password = _ ∧ rest = b := by simpa using hparse
      exact ⟨.user a, htext.symm, hlegal, rfl, rfl⟩
    · obtain rfl : c = 58 := of_decide_eq_true hc'
      have hname' : name ≠ [] := by
        rintro rfl
        rw [parseUser, Split.findIdx?_append ha hc] at h
        simp [List.findIdx?_cons] at h
      have hlegal : Login.Legal b (.full name pass) :=
        ⟨hname', notMem_of_ne hname, fun hx => hat (by simp [hx]), fun hx => hat (by simp [hx])⟩
      have hparse := parseUser_text hlegal
      have htext : Login.text (.full name pass) ++ b = (name ++ 58 :: pass) ++ 64 :: b := by simp [Login.text]
      rw [htext, h] at hparse
      obtain ⟨rfl, rfl, rfl⟩ : user = _ ∧ password = _ ∧ rest = b := by simpa using hparse
      exact ⟨.full name pass, htext.symm, hlegal, rfl, rfl⟩

theorem parseHost_cases {s name rest : Bytes} (h : parseHost s = some (name, rest)) :
    ∃ host : Host, s = host.text ++ rest ∧ host.Legal rest ∧ decode host.name = name := by
  by_cases hbracket : s.head? = some 91
  · obtain ⟨s, rfl⟩ : ∃ t, s = 91 :: t := List.head?_eq_some_iff.mp hbracket
    rw [parseHost, if_pos rfl, parseBracketed] at h
    rcases Split.cases (fun c => decide (c = 93)) s with hs | ⟨a, c, b, rfl, hc, ha⟩
    · simp [Split.findIdx?_none hs] at h
    · obtain rfl : c = 93 := of_decide_eq_true hc
      simp only [Split.findIdx?_append ha hc, Split.drop_append, List.take_left'] at h
      have htext (hrest : rest = b) : 91 :: (a ++ 93 :: b) = Host.text (.bracketed a) ++ rest := by
        simp [Host.text, hrest]
      cases b with
      | nil =>
        obtain ⟨rfl, rfl⟩ : decode a = name ∧ [] = rest := by simpa using h
        exact ⟨.bracketed a, htext rfl, ⟨notMem_of_ne ha, by simp⟩, rfl⟩
      | cons c b =>
        simp only at h
        split at h
        · exact absurd h (by simp)
        · next hend =>
          obtain ⟨rfl, rfl⟩ : decode a = name ∧ c :: b = rest := by simpa using h
          have hhead : c = 58 ∨ c = 47 ∨ c = 35 := by tauto
          exact ⟨.bracketed a, htext rfl, ⟨notMem_of_ne ha, by simpa using hhead⟩, rfl⟩
  · have hplain : parseHost s = some (parsePlain s) := by
      cases s with
      | nil => rfl
      | cons c s => exact if_neg fun hc => hbracket (congrArg some hc)
    rw [hplain, parsePlain] at h
    rcases Split.cases endsHost s with hs | ⟨a, c, b, rfl, hc, ha⟩
    · obtain ⟨rfl, rfl⟩ : decode s = name ∧ [] = rest := by simpa [Split.findIdx?_none hs] using h
      exact ⟨.plain s, by simp [Host.text], ⟨hs, hbracket, by simp⟩, rfl⟩
    · obtain ⟨rfl, rfl⟩ : decode a = name ∧ c :: b = rest := by simpa [Split.findIdx?_append ha hc] using h
      refine ⟨.plain a, rfl, ⟨ha, ?_, by simpa using hc⟩, rfl⟩
      cases a with
      | nil => simp
      | cons d a => exact hbracket

theorem parsePort_cases {s digits rest : Bytes} (h : parsePort s = some (digits, rest)) :
    ∃ port : Option Bytes, s = portText port ++ rest ∧ PortLegal rest port ∧ decode (port.getD []) = digits := by
  cases s with
  | nil =>
    obtain ⟨rfl, rfl⟩ : [] = digits ∧ [] = rest := by simpa [parsePort] using h
    exact ⟨none, rfl, by simp [PortLegal], rfl⟩
  | cons c s =>
    by_cases hc : c = 58
    · subst hc
      rw [parsePort, if_pos rfl, parseDigits] at h
      rcases Split.cases (fun c => !isDigit c) s with hs | ⟨a, c, b, rfl, hc, ha⟩
      · obtain ⟨rfl, rfl⟩ : decode s = digits ∧ [] = rest := by simpa [Split.findIdx?_none hs] using h
        exact ⟨some s, by simp [portText], ⟨by simpa using hs, fun _ => rfl, by simp⟩, rfl⟩
      · simp only [Split.findIdx?_append ha hc, List.drop_left', List.take_left'] at h
        split at h
        · exact absurd h (by simp)
        · next hlength =>
          split at h
          · exact absurd h (by simp)
          · next hend =>
            obtain ⟨rfl, rfl⟩ : decode a = digits ∧ c :: b = rest := by simpa using h
            have hhead : c = 47 ∨ c = 35 ∨ c = 63 := by tauto
            have hne : a ≠ [] := by simpa using hlength
            exact ⟨some a, rfl, ⟨by simpa using ha, fun hnil => absurd hnil hne, by simpa using hhead⟩, rfl⟩
    · obtain ⟨rfl, rfl⟩ : [] = digits ∧ c :: s = rest := by simpa [parsePort, hc] using h
      exact ⟨none, rfl, by simpa [PortLegal] using hc, rfl⟩

theorem parsePath_cases (s : Bytes) :
    ∃ path fragment, s = path ++ fragment ∧ parsePath s = (path, decode fragment) ∧ 35 ∉ path ∧
      ∀ c ∈ fragment.head?, c = 35 := by
  rcases Split.cases (fun c => decide (c = 35)) s with hs | ⟨a, c, b, rfl, hc, ha⟩
  · exact ⟨s, [], by simp, by simp [parsePath, Split.findIdx?_none hs, decode], notMem_of_ne hs, by simp⟩
  · have hfragment : ∀ d ∈ (c :: b).head?, d = 35 := by simpa using hc
    exact ⟨a, c :: b, rfl, parsePath_text (notMem_of_ne ha) hfragment, notMem_of_ne ha, hfragment⟩

theorem exists_address {s : Bytes} {u : Url} (h : parse s = some u) : ∃ a : Address, a.text = s ∧ a.url = u := by
  obtain ⟨scheme, rest, htext, hscheme, hends, hfirst⟩ := parseScheme_cases s
  by_cases hrest : [47, 47] <+: rest
  · obtain ⟨rest, rfl⟩ : ∃ t, rest = 47 :: 47 :: t := ⟨_, hrest.choose_spec.symm⟩
    rw [parse_of_authority hscheme, parseAuthority] at h
    obtain ⟨⟨user, password, rest₁⟩, huser, h⟩ := Option.bind_eq_some_iff.mp h
    obtain ⟨⟨name, rest₂⟩, hhost, h⟩ := Option.bind_eq_some_iff.mp h
    obtain ⟨⟨digits, rest₃⟩, hport, h⟩ := Option.bind_eq_some_iff.mp h
    obtain ⟨login, rfl, hlogin, rfl, rfl⟩ := parseUser_cases huser
    obtain ⟨host, rfl, hhostLegal, rfl⟩ := parseHost_cases hhost
    obtain ⟨port, rfl, hportLegal, rfl⟩ := parsePort_cases hport
    obtain ⟨path, fragment, rfl, hparse, hpath, hfragment⟩ := parsePath_cases rest₃
    have hlegal : Authority.Legal ⟨login, host, port⟩ (path ++ fragment) :=
      ⟨by simpa using hlogin, hhostLegal, hportLegal⟩
    refine ⟨⟨scheme, some ⟨login, host, port⟩, path, fragment, hends, ?_, by simp, hpath, hfragment⟩, ?_, ?_⟩
    · simpa using hlegal
    · simp [Address.text, Address.authorityText, Authority.text, htext, lit]
    · simpa [Address.url, hparse] using h
  · obtain ⟨path, fragment, rfl, hparse, hpath, hfragment⟩ := parsePath_cases rest
    rw [parse_of_bare hscheme hrest, hparse] at h
    have hbare : BareLegal scheme path := by
      refine ⟨fun hp => hrest (hp.trans (List.prefix_append _ _)), ?_⟩
      intro hnil a b heq hne
      exact hfirst hnil a (b ++ fragment) (by simp [heq]) hne
    refine ⟨⟨scheme, none, path, fragment, hends, by simp, fun _ => hbare, hpath, hfragment⟩, ?_, ?_⟩
    · simp [Address.text, Address.authorityText, htext]
    · simpa [Address.url] using h

end Afl.Net
