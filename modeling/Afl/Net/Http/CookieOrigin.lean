import Afl.Net.Http.CookieHosts

/-!
# Cookies for the URL that set them

A field without `Domain`, `Path` and `Secure` makes a cookie for the host and the path of the URL. Whether the cookie
is then sent to that URL depends on what removing a port does to the host.
-/

namespace Afl.Net.Http

open Sys

namespace Cookie

/-- An attribute that says nothing about where the cookie is sent. -/
def IsPlain (a : HeaderField) : Prop :=
  strCaseCompare a.name (lit "domain") ≠ 0 ∧ strCaseCompare a.name (lit "path") ≠ 0 ∧
    strCaseCompare a.name (lit "secure") ≠ 0

/-- A host that has no colon, or none behind its last closing bracket. -/
def KeepsHost (host : Bytes) : Prop := 58 ∉ host.reverse.takeWhile (· ≠ 93)

instance : DecidablePred KeepsHost := fun _ => inferInstanceAs (Decidable (_ ∉ _))

/-! ### Hosts -/

theorem lastOfBoth_cases (s : Bytes) :
    (58 ∉ s.takeWhile (· ≠ 93) ∧ ∀ before, s.dropWhile (fun c => c ≠ 58 ∧ c ≠ 93) ≠ 58 :: before) ∨
      (58 ∈ s.takeWhile (· ≠ 93) ∧ ∃ front before, s = front ++ 58 :: before ∧
        s.dropWhile (fun c => c ≠ 58 ∧ c ≠ 93) = 58 :: before) := by
  induction s with
  | nil => exact .inl ⟨List.not_mem_nil, nofun⟩
  | cons c s ih =>
    by_cases hbracket : c = 93
    · rw [hbracket]
      refine .inl ⟨List.not_mem_nil, fun before h => ?_⟩
      rw [List.dropWhile_cons_of_neg (by decide)] at h
      exact absurd (List.cons.inj h).1 (by decide)
    by_cases hcolon : c = 58
    · rw [hcolon]
      refine .inr ⟨?_, [], s, rfl, List.dropWhile_cons_of_neg (by decide)⟩
      rw [List.takeWhile_cons_of_pos (by decide)]
      exact List.mem_cons_self
    · have hboth : decide (c ≠ 58 ∧ c ≠ 93) = true := decide_eq_true ⟨hcolon, hbracket⟩
      have hneither : 58 ∈ (c :: s).takeWhile (· ≠ 93) ↔ 58 ∈ s.takeWhile (· ≠ 93) := by
        rw [List.takeWhile_cons, if_pos (decide_eq_true hbracket), List.mem_cons, or_iff_right (Ne.symm hcolon)]
      rw [hneither, List.dropWhile_cons, if_pos hboth]
      rcases ih with hnone | ⟨hsome, front, before, rfl, hdrop⟩
      · exact .inl hnone
      · exact .inr ⟨hsome, c :: front, before, rfl, hdrop⟩

theorem stripPort_eq_iff (host : Bytes) : stripPort host = host ↔ KeepsHost host := by
  rw [stripPort, KeepsHost]
  rcases lastOfBoth_cases host.reverse with ⟨hnone, hdrop⟩ | ⟨hsome, front, before, hhost, hdrop⟩
  · refine iff_of_true ?_ hnone
    split
    · next before h => exact absurd h (hdrop before)
    · rfl
  · rw [hdrop]
    refine iff_of_false (fun heq => ?_) (not_not.2 hsome)
    have hlength := congrArg List.length hhost
    rw [List.length_append, List.length_cons, List.length_reverse] at hlength
    have hreverse : before.reverse = host := heq
    have hshort := congrArg List.length hreverse
    rw [List.length_reverse] at hshort
    omega

/-! ### Plain attributes -/

structure FromField (url : Url) (field : HeaderField) (c : Cookie) : Prop where
  host : c.host = url.host
  hostDomainMatch : c.hostDomainMatch = false
  path : c.path = getBasePath url.path
  secure : c.secure = false
  name : c.name = field.name
  value : c.value = field.getPrimaryValueMode options

variable {url : Url} {field : HeaderField}

theorem FromField.step (now : Time) {p : AttributeParser} (h : FromField url field p.self) {a : HeaderField}
    (ha : IsPlain a) : FromField url field (handleAttribute now p a).self := by
  rw [handleAttribute, if_neg ha.1, if_neg ha.2.1, if_neg ha.2.2]
  split_ifs
  · rw [handleExpires]
    split_ifs
    · exact h
    · rcases parseTime a.value with _ | t
      · exact h
      · exact ⟨h.host, h.hostDomainMatch, h.path, h.secure, h.name, h.value⟩
  · rw [handleMaxAge]
    split_ifs
    · exact h
    · rcases strToLong a.value with _ | t
      · exact h
      · exact ⟨h.host, h.hostDomainMatch, h.path, h.secure, h.name, h.value⟩
  · exact h

theorem FromField.run (now : Time) {attributes : List HeaderField} (hplain : ∀ a ∈ attributes, IsPlain a)
    {p : AttributeParser} (h : FromField url field p.self) :
    FromField url field (attributes.foldl (handleAttribute now) p).self := by
  induction attributes generalizing p with
  | nil => exact h
  | cons a attributes ih =>
    rw [List.forall_mem_cons] at hplain
    exact ih hplain.2 (h.step now hplain.1)

/-- A cookie of a field with plain attributes: all is from the URL and the field, but the host is without a port. -/
theorem new_plain (url : Url) (now : Time) {field : HeaderField} (hplain : ∀ a ∈ attributes field, IsPlain a) :
    ∃ c, FromField url field c ∧ new url now field = { c with host := stripPort url.host } := by
  have hinit : FromField url field (init url field) := ⟨rfl, rfl, rfl, rfl, rfl, rfl⟩
  have hrun := FromField.run (p := ⟨init url field, false⟩) now hplain hinit
  refine ⟨_, hrun, ?_⟩
  rw [new, ← hrun.host]
  rfl

/-! ### Matching -/

theorem matchHost_exact_iff (userHost cookieHost : Bytes) :
    matchHost userHost cookieHost false = true ↔ cookieHost = userHost := by
  refine ⟨matchHost_exact, fun heq => ?_⟩
  rw [matchHost, if_pos heq]

theorem matchCookiePath_self (path : Bytes) : matchCookiePath path path = true := by
  rw [matchCookiePath, if_neg (Nat.lt_irrefl _), List.take_length, if_neg (not_not.2 rfl), if_pos rfl]

theorem matchUrl_plain_iff (url : Url) (now : Time) {field : HeaderField} (hplain : ∀ a ∈ attributes field, IsPlain a) :
    (new url now field).matchUrl url = true ↔ KeepsHost url.host := by
  obtain ⟨c, hc, hnew⟩ := new_plain url now hplain
  rw [hnew, matchUrl, hc.hostDomainMatch, hc.path, hc.secure, matchCookiePath_self, Bool.and_true, Bool.not_false,
    Bool.true_or, Bool.and_true, matchHost_exact_iff, stripPort_eq_iff]

end Cookie

/-! ### The jar -/

namespace CookieJar

theorem mem_addCookie (jar : CookieJar) (cookie : Cookie) :
    ∃ n, cookie.setSequenceNumber n ∈ (jar.addCookie cookie).cookies := by
  rcases addCookie_cases jar cookie with ⟨before, c, after, -, -, hadd⟩ | ⟨-, hadd⟩
  · rw [hadd]
    exact ⟨_, List.mem_append_right before List.mem_cons_self⟩
  · rw [hadd]
    exact ⟨_, List.mem_append_right jar.cookies List.mem_cons_self⟩

theorem enumerateCookies_of_mem {jar : CookieJar} {c : Cookie} (hc : c ∈ jar.cookies) {url : Url} {now : Time}
    (hmatch : c.matchUrl url = true) (hexpired : c.isExpired now = false) :
    ⟨c.name, c.value⟩ ∈ jar.enumerateCookies url now := by
  apply List.mem_map.2
  refine ⟨c, ?_, rfl⟩
  rw [enumerated, List.mem_mergeSort, List.mem_filter, hmatch, hexpired]
  exact ⟨hc, rfl⟩

/-- The cookie of a field matches the URL that set it; the jar stores it and reports it for that URL, unless it is
expired. -/
structure SetFor (url : Url) (now : Time) (field : HeaderField) : Prop where
  isSent : (Cookie.new url now field).matchUrl url = true
  stored : (Cookie.new url now field).isExpired now = false → ∀ (jar : CookieJar) (fields : HeaderTable),
    ∃ n, (Cookie.new url now field).setSequenceNumber n ∈ (jar.addCookies url now (fields ++ [field])).cookies
  reported : (Cookie.new url now field).isExpired now = false → ∀ (jar : CookieJar) (fields : HeaderTable) (later : Time),
    (Cookie.new url now field).isExpired later = false →
      ⟨field.name, field.getPrimaryValueMode Cookie.options⟩ ∈
        (jar.addCookies url now (fields ++ [field])).enumerateCookies url later

theorem addCookies_last {url : Url} {now : Time} {field : HeaderField}
    (hmatch : (Cookie.new url now field).matchUrl url = true) (hexpired : (Cookie.new url now field).isExpired now = false)
    (jar : CookieJar) (fields : HeaderTable) :
    ∃ n, (Cookie.new url now field).setSequenceNumber n ∈ (jar.addCookies url now (fields ++ [field])).cookies := by
  rw [addCookies, List.foldl_append, List.foldl_cons, List.foldl_nil, handleHeader, if_pos hmatch, hexpired]
  exact mem_addCookie _ _

/-- **Cookies without `Domain`, `Path` and `Secure`** match the URL that set them, and are stored and reported for it,
exactly if the host of the URL has no colon behind its last bracket. -/
theorem setFor_iff (url : Url) (now : Time) {field : HeaderField} (hplain : ∀ a ∈ Cookie.attributes field, Cookie.IsPlain a) :
    SetFor url now field ↔ Cookie.KeepsHost url.host := by
  rw [← Cookie.matchUrl_plain_iff url now hplain]
  refine ⟨SetFor.isSent, fun hmatch => ⟨hmatch, addCookies_last hmatch, fun hexpired jar fields later hlater => ?_⟩⟩
  obtain ⟨n, hn⟩ := addCookies_last hmatch hexpired jar fields
  have hreported := enumerateCookies_of_mem hn hmatch hlater
  obtain ⟨c, hc, hnew⟩ := Cookie.new_plain url now hplain
  rw [hnew] at hreported
  rw [← hc.name, ← hc.value]
  exact hreported

theorem attributes_value : Cookie.attributes ⟨lit "n", lit "v"⟩ = [] := by
  rw [Cookie.attributes, HeaderField.enumerateSecondaryValues, show (if Cookie.options.noPrimary = true then lit "v" else
    (extractPart Cookie.options .raw (lit "v")).2) = [] from by decide, parts_nil]
  rfl

/-- A field with a lifetime, and an attribute that is not known. -/
def agedField : HeaderField := ⟨lit "n", lit "v; Max-Age=60; HttpOnly"⟩

theorem attributes_agedField : Cookie.attributes agedField = [⟨lit "Max-Age", lit "60"⟩, ⟨lit "HttpOnly", []⟩] := by
  have hrest : (if Cookie.options.noPrimary = true then agedField.value else
      (extractPart Cookie.options .raw agedField.value).2) = lit " Max-Age=60; HttpOnly" := by decide
  rw [Cookie.attributes, HeaderField.enumerateSecondaryValues, hrest, parts_cons (by decide), parts_cons (by decide),
    show (extractPart Cookie.options .raw (extractPart Cookie.options .raw (lit " Max-Age=60; HttpOnly")).2).2 = [] from
      by decide, parts_nil]
  decide

theorem setFor_name : SetFor ⟨lit "http", [], [], lit "h", [], lit "/a/b", []⟩ 0 agedField := by
  have hplain : ∀ a ∈ Cookie.attributes agedField, Cookie.IsPlain a := by
    rw [attributes_agedField]
    simp only [List.forall_mem_cons, Cookie.IsPlain]
    exact ⟨by decide, by decide, List.forall_mem_nil _⟩
  exact (setFor_iff _ 0 hplain).2 (by decide)

/-- An IPv6 address: of the host `::1` only a colon is left, and the cookie does not match its own URL. -/
theorem not_setFor_address :
    ∃ url, Url.parse (lit "http://[::1]/") = some url ∧ url.host ≠ [] ∧
      (∀ a ∈ Cookie.attributes ⟨lit "n", lit "v"⟩, Cookie.IsPlain a) ∧ ¬SetFor url 0 ⟨lit "n", lit "v"⟩ := by
  refine ⟨⟨lit "http", [], [], lit "::1", [], lit "/", []⟩, by decide, by decide, ?_, fun h => ?_⟩
  · rw [attributes_value]
    exact nofun
  · have hmatch := h.isSent
    have hnone := attributes_value
    rw [Cookie.attributes] at hnone
    rw [Cookie.new, hnone] at hmatch
    exact absurd hmatch (by decide)

end CookieJar

end Afl.Net.Http
