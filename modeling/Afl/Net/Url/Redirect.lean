import Afl.Net.Url.Address

/-!
# The authority and the path

`parse` looks for the at sign in everything that follows the two slashes, and accepts an empty port at the end of
the string only. Apart from that, what follows the authority has no influence on it.
-/

namespace Afl.Net

open Charset UrlEncoding Url

/-- A scheme: what `parse` takes for one. -/
def IsScheme (s : Bytes) : Prop := s ≠ [] ∧ ∀ c ∈ s, endsScheme c = false

/-- No character that ends an authority. -/
def IsAuthority (a : Bytes) : Prop := ∀ c ∈ a, c ≠ 47 ∧ c ≠ 63 ∧ c ≠ 35

instance : DecidablePred IsScheme := fun s => @instDecidableAnd _ _ _ (List.decidableBAll _ s)

instance : DecidablePred IsAuthority := fun a => List.decidableBAll _ a

/-- Both URLs lead to the same place. -/
def Url.SameAuthority (u v : Url) : Prop :=
  u.user = v.user ∧ u.password = v.password ∧ u.host = v.host ∧ u.port = v.port

theorem parse_scheme {s : Bytes} (hs : IsScheme s) (rest : Bytes) :
    parse (s ++ lit "://" ++ rest) = parseAuthority (decode s) rest := by
  have htext : s ++ lit "://" ++ rest = s ++ 58 :: 47 :: 47 :: rest := by simp [lit]
  exact parse_of_authority (htext ▸ parseScheme_some hs.1 hs.2 _)

theorem authority_cases {scheme a : Bytes} {u : Url} (ha : IsAuthority a) (h : parseAuthority scheme a = some u) :
    ∃ b : Authority, a = b.text ∧ b.Legal [] ∧ u.user = decode b.login.name ∧
      u.password = decode b.login.password ∧ u.host = decode b.host.name ∧ u.port = decode (b.port.getD []) := by
  obtain ⟨⟨user, password, rest₁⟩, huser, h⟩ := Option.bind_eq_some_iff.mp h
  obtain ⟨⟨name, rest₂⟩, hhost, h⟩ := Option.bind_eq_some_iff.mp h
  obtain ⟨⟨digits, rest⟩, hport, h⟩ := Option.bind_eq_some_iff.mp h
  obtain ⟨login, rfl, hlogin, rfl, rfl⟩ := parseUser_cases huser
  obtain ⟨host, rfl, hhostLegal, rfl⟩ := parseHost_cases hhost
  obtain ⟨port, rfl, hportLegal, rfl⟩ := parsePort_cases hport
  have hrest : rest = [] := by
    cases rest with
    | nil => rfl
    | cons c rest =>
      obtain ⟨h47, h63, h35⟩ := ha c (by simp)
      exfalso
      cases port with
      | some digits =>
        have hc := hportLegal.2.2 c rfl
        tauto
      | none =>
        have hcolon : c ≠ 58 := fun hc => hportLegal (congrArg some hc)
        cases host with
        | plain name =>
          have hc := hhostLegal.2.2 c rfl
          simp [endsHost, hcolon, h47, h63, h35] at hc
        | bracketed name =>
          have hc := hhostLegal.2 c rfl
          tauto
  subst hrest
  have hu : some (Url.mk scheme (decode login.name) (decode login.password) (decode host.name)
      (decode (port.getD [])) (rooted (parsePath []).1) (parsePath []).2) = some u := h
  refine ⟨⟨login, host, port⟩, by simp [Authority.text], ⟨by simpa using hlogin, hhostLegal, hportLegal⟩, ?_⟩
  rw [← Option.some.inj hu]
  exact ⟨rfl, rfl, rfl, rfl⟩

theorem parseAuthority_append (scheme : Bytes) {b : Authority} {p : Bytes} (hb : b.Legal [])
    (hp : p.head? = some 47) (hat : 64 ∈ p → 64 ∈ b.text) :
    parseAuthority scheme (b.text ++ p) = (parsePort (portText b.port ++ p)).map fun port =>
      ⟨scheme, decode b.login.name, decode b.login.password, decode b.host.name, port.1,
        rooted (parsePath port.2).1, (parsePath port.2).2⟩ := by
  have hlogin : b.login.Legal (b.host.text ++ (portText b.port ++ p)) := by
    have hlegal := hb.login
    have htext : 64 ∈ b.text → 64 ∈ b.login.text ∨ 64 ∈ b.host.text ++ portText b.port ++ [] := by
      simp [Authority.text]
    cases hl : b.login with
    | absent =>
      rw [hl] at hlegal htext
      intro hmem
      have hmem : 64 ∈ b.host.text ++ portText b.port ++ [] ∨ 64 ∈ p := by
        simpa [or_assoc] using hmem
      rcases hmem with hmem | hmem
      · exact hlegal hmem
      · rcases htext (hat hmem) with hmem | hmem
        · exact List.not_mem_nil hmem
        · exact hlegal hmem
    | user name =>
      rw [hl] at hlegal
      exact hlegal
    | full name password =>
      rw [hl] at hlegal
      exact hlegal
  have hhead : (portText b.port ++ p).head? = some 58 ∨ (portText b.port ++ p).head? = some 47 := by
    cases b.port with
    | none => exact .inr hp
    | some digits => exact .inl rfl
  have hhost : b.host.Legal (portText b.port ++ p) := by
    have hlegal := hb.host
    cases hh : b.host with
    | plain name =>
      rw [hh] at hlegal
      refine ⟨hlegal.1, hlegal.2.1, ?_⟩
      rcases hhead with hhead | hhead <;> simp [hhead, endsHost]
    | bracketed name =>
      rw [hh] at hlegal
      refine ⟨hlegal.1, ?_⟩
      rcases hhead with hhead | hhead <;> simp [hhead]
  have htext : b.text ++ p = b.login.text ++ (b.host.text ++ (portText b.port ++ p)) := by simp [Authority.text]
  rw [parseAuthority, htext, parseUser_text hlogin]
  simp only [Option.bind_eq_bind, Option.bind_some, parseHost_text hhost]
  cases parsePort (portText b.port ++ p) <;> rfl

theorem Login.getLast?_text (l : Login) : l.text.getLast? ≠ some 58 := by
  cases l with
  | absent => simp [text]
  | user name => simp [text]
  | full name password =>
    have htext : text (.full name password) = (name ++ [58] ++ password) ++ [64] := rfl
    rw [htext, List.getLast?_concat]
    decide

theorem Host.getLast?_text {h : Host} {rest : Bytes} (hlegal : h.Legal rest) : h.text.getLast? ≠ some 58 := by
  cases h with
  | plain name =>
    intro hlast
    obtain ⟨front, hfront⟩ := List.getLast?_eq_some_iff.mp hlast
    have hmem : 58 ∈ name := by
      rw [show name = _ from hfront]
      simp
    exact absurd (hlegal.1 58 hmem) (by decide)
  | bracketed name =>
    rw [text, List.getLast?_concat]
    decide

theorem getLast?_text {b : Authority} (hb : b.Legal []) : b.text.getLast? = some 58 ↔ b.port = some [] := by
  constructor
  · intro hlast
    cases hport : b.port with
    | some digits =>
      have hdigits := hb.port
      rw [hport] at hdigits
      rcases List.eq_nil_or_concat digits with rfl | ⟨front, d, rfl⟩
      · rfl
      · have htext : b.text = (b.login.text ++ b.host.text ++ 58 :: front) ++ [d] := by
          simp [Authority.text, hport, portText]
        rw [htext, List.getLast?_concat] at hlast
        have hd : d = 58 := Option.some.inj hlast
        exact absurd (hdigits.1 d (by simp)) (by rw [hd]; decide)
    | none =>
      exfalso
      have htext : b.text = b.login.text ++ b.host.text := by simp [Authority.text, hport, portText]
      rw [htext, List.getLast?_append] at hlast
      cases hhost : b.host.text.getLast? with
      | none =>
        rw [hhost, Option.none_or] at hlast
        exact b.login.getLast?_text hlast
      | some c =>
        rw [hhost, Option.some_or, ← hhost] at hlast
        exact Host.getLast?_text hb.host hlast
  · intro hport
    simp [Authority.text, hport, portText]

theorem user_ne_nil {scheme s : Bytes} {v : Url} (hs : 64 ∈ s) (h : parseAuthority scheme s = some v) :
    v.user ≠ [] := by
  obtain ⟨⟨user, password, rest⟩, huser, h⟩ := Option.bind_eq_some_iff.mp h
  obtain ⟨⟨name, rest'⟩, hhost, h⟩ := Option.bind_eq_some_iff.mp h
  obtain ⟨⟨digits, rest''⟩, hport, h⟩ := Option.bind_eq_some_iff.mp h
  obtain ⟨login, rfl, hlogin, rfl, rfl⟩ := parseUser_cases huser
  have hv : some (Url.mk scheme (decode login.name) (decode login.password) name digits
      (rooted (parsePath rest'').1) (parsePath rest'').2) = some v := h
  rw [← Option.some.inj hv]
  cases login with
  | absent => exact absurd hs hlogin
  | user name => exact decode_ne_nil hlogin.1
  | full name password => exact decode_ne_nil hlogin.1

/-- What follows the authority cannot change it, unless it holds the first at sign or makes an empty port a syntax
error. -/
theorem parse_authority_iff {s a p : Bytes} {u : Url} (hs : IsScheme s) (ha : IsAuthority a)
    (hp : p.head? = some 47) (h : parse (s ++ lit "://" ++ a) = some u) :
    (∃ v, parse (s ++ lit "://" ++ a ++ p) = some v ∧ v.SameAuthority u) ↔
      (64 ∈ p → 64 ∈ a) ∧ a.getLast? ≠ some 58 := by
  rw [parse_scheme hs] at h
  have htext : s ++ lit "://" ++ a ++ p = s ++ lit "://" ++ (a ++ p) := by simp
  rw [htext, parse_scheme hs]
  obtain ⟨b, rfl, hb, huser, hpassword, hhost, hport⟩ := authority_cases ha h
  rw [Ne, getLast?_text hb]
  constructor
  · rintro ⟨v, hv, hsame⟩
    have hat : 64 ∈ p → 64 ∈ b.text := by
      intro hmem
      have hfound := user_ne_nil (List.mem_append_right b.text hmem) hv
      rw [hsame.1, huser] at hfound
      cases hlogin : b.login with
      | absent => exact absurd (by rw [hlogin]; rfl) hfound
      | user name => simp [Authority.text, hlogin, Login.text]
      | full name password => simp [Authority.text, hlogin, Login.text]
    refine ⟨hat, fun hempty => ?_⟩
    obtain ⟨p, rfl⟩ : ∃ t, p = 47 :: t := List.head?_eq_some_iff.mp hp
    have hsyntax : parsePort (portText (some []) ++ 47 :: p) = none := by
      simp [parsePort, portText, parseDigits, List.findIdx?_cons, isDigit]
    rw [parseAuthority_append _ hb hp hat, hempty, hsyntax] at hv
    exact absurd hv (by simp)
  · rintro ⟨hat, hempty⟩
    have hlegal : PortLegal p b.port := by
      have hdigits := hb.port
      cases hport : b.port with
      | none => simp [PortLegal, hp]
      | some digits =>
        rw [hport] at hdigits
        refine ⟨hdigits.1, fun hnil => absurd (by rw [hport, hnil]) hempty, ?_⟩
        intro c hc
        rw [hp] at hc
        exact .inl (Option.some.inj hc).symm
    rw [parseAuthority_append _ hb hp hat, parsePort_text hlegal]
    exact ⟨_, rfl, huser.symm, hpassword.symm, hhost.symm, hport.symm⟩

theorem parse_authority_host :
    (∃ v, parse (lit "http" ++ lit "://" ++ lit "u@host:80" ++ lit "/x:@#") = some v ∧
        v.SameAuthority ⟨lit "http", lit "u", [], lit "host", lit "80", lit "/", []⟩) ↔
      (64 ∈ lit "/x:@#" → 64 ∈ lit "u@host:80") ∧ (lit "u@host:80").getLast? ≠ some 58 :=
  parse_authority_iff (by decide) (by decide) (by decide) (by decide)

/-- A path with an at sign leads to another host. -/
theorem path_redirects :
    ¬∀ (s a p : Bytes) (u : Url), IsScheme s → IsAuthority a → p.head? = some 47 →
      parse (s ++ lit "://" ++ a) = some u →
      ∃ v, parse (s ++ lit "://" ++ a ++ p) = some v ∧ v.SameAuthority u := by
  intro h
  obtain ⟨v, hv, hsame⟩ := h (lit "http") (lit "good") (lit "/@evil")
    ⟨lit "http", [], [], lit "good", [], lit "/", []⟩ (by decide) (by decide) (by decide) (by decide)
  have hevil : v = ⟨lit "http", lit "good/", [], lit "evil", [], lit "/", []⟩ := by
    have hparse : parse (lit "http" ++ lit "://" ++ lit "good" ++ lit "/@evil") =
        some ⟨lit "http", lit "good/", [], lit "evil", [], lit "/", []⟩ := by decide
    exact Option.some.inj (hv.symm.trans hparse)
  rw [hevil] at hsame
  exact absurd hsame.2.2.1 (by decide)

end Afl.Net
