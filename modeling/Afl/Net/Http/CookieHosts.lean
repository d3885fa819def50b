import Afl.Net.Http.CookieJar

/-!
# Hosts of cookies

Who set the cookies that are sent to a host: a jar that is filled by servers sends a cookie only to the host that set
it, or within the domain that it was set for.
-/

namespace Afl.Net.Http

open Ages Sys

/-! ### Domains -/

/-- Not the text of an address: an IPv6 address has a colon, an IPv4 address only digits and dots. -/
def IsName (host : Bytes) : Prop := 58 ∉ host ∧ ∃ c ∈ host, charIsDigit c = false ∧ c ≠ 46

/-- A host is the domain, or a name that ends in it, preceded by a dot or beginning with it. -/
def InDomain (host domain : Bytes) : Prop :=
  host = domain ∨
    IsName host ∧ ∃ front, front ≠ [] ∧ host = front ++ domain ∧ (domain.head? = some 46 ∨ front.getLast? = some 46)

theorem isNamedHost_iff {host : Bytes} : isNamedHost host = true ↔ IsName host := by
  simp only [isNamedHost, IsName, Bool.and_eq_true, decide_eq_true_eq, List.any_eq_true, Bool.not_eq_true',
    Bool.or_eq_false_iff, decide_eq_false_iff_not, ne_eq]

theorem matchHost_exact {userHost cookieHost : Bytes} (h : matchHost userHost cookieHost false = true) :
    cookieHost = userHost := by
  rw [matchHost] at h
  split_ifs at h with heq hlength
  · exact heq
  · rw [Bool.false_and, Bool.false_and, Bool.false_and] at h
    cases h

theorem matchHost_domain {userHost cookieHost : Bytes} {domainMatch : Bool}
    (h : matchHost userHost cookieHost domainMatch = true) : InDomain userHost cookieHost := by
  rw [matchHost] at h
  split_ifs at h with heq hlength
  · exact .inl heq.symm
  · simp only [Bool.and_eq_true, Bool.or_eq_true, decide_eq_true_eq] at h
    obtain ⟨⟨⟨-, hname⟩, htail⟩, hdot⟩ := h
    refine .inr ⟨isNamedHost_iff.1 hname, userHost.take (userHost.length - cookieHost.length), ?_, ?_, ?_⟩
    · intro hnil
      rw [List.take_eq_nil_iff] at hnil
      rcases hnil with hzero | hnil
      · omega
      · rw [hnil] at hlength
        exact absurd hlength (Nat.not_lt_zero _)
    · conv_lhs => rw [← List.take_append_drop (userHost.length - cookieHost.length) userHost, htail]
    · refine hdot.imp id fun hdot => ?_
      rw [List.getLast?_eq_getElem?, List.length_take, List.getElem?_take]
      rw [Nat.min_eq_left (Nat.sub_le _ _), if_pos (by omega)]
      exact hdot

/-! ### The attributes of a cookie -/

def Cookie.attributes (field : HeaderField) : List HeaderField := field.enumerateSecondaryValues options

/-- The domain that an attribute sets: its value in lower case, without a port. -/
def Cookie.IsDomain (field : HeaderField) (domain : Bytes) : Prop :=
  ∃ a ∈ attributes field, strCaseCompare a.name (lit "domain") = 0 ∧ a.value ≠ [] ∧
    domain = stripPort (strLCase a.value)

/-- Whether a cookie is limited to HTTPS. -/
def Cookie.IsSecure (field : HeaderField) : Prop :=
  ∃ a ∈ attributes field, strCaseCompare a.name (lit "secure") = 0

namespace Cookie

/-- The host and the flags, after some attributes. -/
structure Parsed (host : Bytes) (attributes : List HeaderField) (c : Cookie) : Prop where
  same : c.hostDomainMatch = false → c.host = host
  domain : c.hostDomainMatch = true →
    ∃ a ∈ attributes, strCaseCompare a.name (lit "domain") = 0 ∧ a.value ≠ [] ∧ c.host = strLCase a.value
  secure : (∃ a ∈ attributes, strCaseCompare a.name (lit "secure") = 0) → c.secure = true

theorem Parsed.other {host : Bytes} {attributes : List HeaderField} {c c' : Cookie} (h : Parsed host attributes c)
    {a : HeaderField} (hhost : c'.host = c.host) (hmatch : c'.hostDomainMatch = c.hostDomainMatch)
    (hsecure : c'.secure = c.secure) (ha : strCaseCompare a.name (lit "secure") ≠ 0) :
    Parsed host (attributes ++ [a]) c' where
  same hfalse := by
    rw [hhost]
    exact h.same (hmatch ▸ hfalse)
  domain htrue := by
    obtain ⟨d, hd, hrest⟩ := h.domain (hmatch ▸ htrue)
    rw [hhost]
    exact ⟨d, List.mem_append_left _ hd, hrest⟩
  secure := by
    rintro ⟨d, hd, hname⟩
    rw [List.mem_append, List.mem_singleton] at hd
    rcases hd with hd | rfl
    · rw [hsecure]
      exact h.secure ⟨d, hd, hname⟩
    · exact absurd hname ha

theorem other_name {name s : Bytes} (h : strCaseCompare name s = 0) (hs : strUCase s ≠ strUCase (lit "secure")) :
    strCaseCompare name (lit "secure") ≠ 0 := by
  intro hsecure
  rw [strCaseCompare_eq_zero] at h hsecure
  exact hs (h.symm.trans hsecure)

theorem Parsed.step {host : Bytes} {attributes : List HeaderField} {p : AttributeParser}
    (h : Parsed host attributes p.self) (now : Time) (a : HeaderField) :
    Parsed host (attributes ++ [a]) (handleAttribute now p a).self := by
  rw [handleAttribute]
  split_ifs with hexpires hmaxAge hdomain hvalue hpath hslash hsecure
  · have hname := other_name hexpires (by decide)
    rw [handleExpires]
    split
    · exact h.other rfl rfl rfl hname
    · split <;> exact h.other rfl rfl rfl hname
  · have hname := other_name hmaxAge (by decide)
    rw [handleMaxAge]
    split
    · exact h.other rfl rfl rfl hname
    · split <;> exact h.other rfl rfl rfl hname
  · constructor
    · exact nofun
    · exact fun _ => ⟨a, List.mem_append_right _ (List.mem_singleton_self a), hdomain, hvalue, rfl⟩
    · exact (h.other rfl rfl rfl (other_name hdomain (by decide))).secure
  · exact h.other rfl rfl rfl (other_name hdomain (by decide))
  · exact h.other rfl rfl rfl (other_name hpath (by decide))
  · exact h.other rfl rfl rfl (other_name hpath (by decide))
  · constructor
    · exact h.same
    · intro htrue
      obtain ⟨d, hd, hrest⟩ := h.domain htrue
      exact ⟨d, List.mem_append_left _ hd, hrest⟩
    · exact fun _ => rfl
  · exact h.other rfl rfl rfl hsecure

theorem Parsed.run {host : Bytes} (now : Time) (rest : List HeaderField) :
    ∀ {attributes : List HeaderField} {p : AttributeParser}, Parsed host attributes p.self →
      Parsed host (attributes ++ rest) (rest.foldl (handleAttribute now) p).self := by
  induction rest with
  | nil =>
    intro attributes p h
    rw [List.append_nil]
    exact h
  | cons a rest ih =>
    intro attributes p h
    have hrest := ih (h.step now a)
    rwa [List.append_assoc] at hrest

theorem new_spec (url : Url) (now : Time) (field : HeaderField) :
    ((new url now field).hostDomainMatch = false → (new url now field).host = stripPort url.host) ∧
    ((new url now field).hostDomainMatch = true → IsDomain field (new url now field).host) ∧
    (IsSecure field → (new url now field).secure = true) := by
  have hinit : Parsed url.host [] (init url field) := ⟨fun _ => rfl, nofun, nofun⟩
  have hparsed := Parsed.run (p := ⟨init url field, false⟩) now (attributes field) hinit
  rw [List.nil_append] at hparsed
  refine ⟨fun hfalse => congrArg stripPort (hparsed.same hfalse), fun htrue => ?_, hparsed.secure⟩
  obtain ⟨a, ha, hname, hvalue, hhost⟩ := hparsed.domain htrue
  exact ⟨a, ha, hname, hvalue, congrArg stripPort hhost⟩

end Cookie

/-! ### Cookies in a jar -/

namespace CookieJar

theorem mem_run {es : List (Event Cookie)} {c : Cookie} (h : c ∈ (new.run es).cookies) :
    ∃ cookie, Event.add cookie ∈ es ∧ c = cookie.setSequenceNumber c.sequenceNumber := by
  induction es using List.reverseRecOn with
  | nil => cases h
  | append_singleton es e ih =>
    have hold : c ∈ (new.run es).cookies →
        ∃ cookie, Event.add cookie ∈ es ++ [e] ∧ c = cookie.setSequenceNumber c.sequenceNumber := by
      intro hc
      obtain ⟨cookie, hcookie, heq⟩ := ih hc
      exact ⟨cookie, List.mem_append_left _ hcookie, heq⟩
    rw [run_snoc] at h
    cases e with
    | add cookie =>
      have hnew : Event.add cookie ∈ es ++ [Event.add cookie] := List.mem_append_right _ (List.mem_singleton_self _)
      rw [handle] at h
      rcases addCookie_cases (new.run es) cookie with ⟨before, d, after, hcookies, -, hadd⟩ | ⟨-, hadd⟩
      · rw [hadd, List.mem_append, List.mem_cons] at h
        rcases h with h | rfl | h
        · exact hold (hcookies ▸ List.mem_append_left _ h)
        · exact ⟨cookie, hnew, rfl⟩
        · exact hold (hcookies ▸ List.mem_append_right _ (List.mem_cons_of_mem _ h))
      · rw [hadd, List.mem_append, List.mem_singleton] at h
        rcases h with h | rfl
        · exact hold h
        · exact ⟨cookie, hnew, rfl⟩
    | remove cookie => exact hold (List.eraseP_sublist.mem h)

theorem mem_responses {responses : List Response} {c : Cookie}
    (h : c ∈ ((responses.map Response.call).foldl call new).cookies) :
    ∃ r ∈ responses, ∃ field ∈ r.cookies,
      c = (Cookie.new r.requestUrl r.now field).setSequenceNumber c.sequenceNumber ∧
        c.matchUrl r.requestUrl = true := by
  rw [calls_eq_run] at h
  obtain ⟨cookie, hadd, heq⟩ := mem_run h
  rw [List.flatMap_map, List.mem_flatMap] at hadd
  obtain ⟨r, hr, hadd⟩ := hadd
  obtain ⟨field, hfield, hadd⟩ := List.mem_flatMap.1 hadd
  rw [fieldEvents] at hadd
  split_ifs at hadd with hmatch hexpired
  · cases List.mem_singleton.1 hadd
  · cases List.mem_singleton.1 hadd
    refine ⟨r, hr, field, hfield, heq, ?_⟩
    rw [heq]
    exact hmatch
  · cases hadd

/-- Whether a host may be sent a cookie that was set by a host. -/
def MaySend (field : HeaderField) (u v : Url) : Prop :=
  v.host = u.host ∨ ∃ domain, Cookie.IsDomain field domain ∧ InDomain u.host domain ∧ InDomain v.host domain

theorem maySend_of_match {u v : Url} (now : Time) {field : HeaderField} (hu : (Cookie.new u now field).matchUrl u = true)
    (hv : (Cookie.new u now field).matchUrl v = true) : MaySend field u v := by
  obtain ⟨-, hdomain, -⟩ := Cookie.new_spec u now field
  rw [Cookie.matchUrl, Bool.and_eq_true, Bool.and_eq_true] at hu hv
  cases hflag : (Cookie.new u now field).hostDomainMatch with
  | false =>
    rw [hflag] at hu hv
    exact .inl ((matchHost_exact hv.1.1).symm.trans (matchHost_exact hu.1.1))
  | true => exact .inr ⟨_, hdomain hflag, matchHost_domain hu.1.1, matchHost_domain hv.1.1⟩

/-- A jar that is filled by servers sends no cookie to other hosts, and those that are limited to HTTPS only there. -/
theorem enumerateCookies_maySend (responses : List Response) (v : Url) (now : Time) :
    ∃ cookies : List Cookie,
      ((responses.map Response.call).foldl call new).enumerateCookies v now =
        cookies.map (fun c => ⟨c.name, c.value⟩) ∧
      ∀ c ∈ cookies, ∃ r ∈ responses, ∃ field ∈ r.cookies,
        c = (Cookie.new r.requestUrl r.now field).setSequenceNumber c.sequenceNumber ∧
          MaySend field r.requestUrl v ∧ (Cookie.IsSecure field → v.scheme = lit "https") := by
  refine ⟨_, rfl, fun c hc => ?_⟩
  rw [enumerated, List.mem_mergeSort, List.mem_filter, Bool.and_eq_true] at hc
  obtain ⟨hmem, hv, -⟩ := hc
  obtain ⟨r, hr, field, hfield, heq, hu⟩ := mem_responses hmem
  refine ⟨r, hr, field, hfield, heq, ?_⟩
  rw [heq] at hu hv
  refine ⟨maySend_of_match r.now hu hv, fun hsecure => ?_⟩
  have hflag := (Cookie.new_spec r.requestUrl r.now field).2.2 hsecure
  rw [Cookie.matchUrl, Bool.and_eq_true, Bool.or_eq_true] at hv
  rcases hv.2 with hnot | hscheme
  · rw [show ((Cookie.new r.requestUrl r.now field).setSequenceNumber c.sequenceNumber).secure = true from hflag] at hnot
    cases hnot
  · exact of_decide_eq_true hscheme

end CookieJar

end Afl.Net.Http
