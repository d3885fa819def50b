import Afl.Net.Url.Address

/-!
# Printing and parsing

`toString` leaves out user, password and port when there is no host, and decides about brackets by whether the host
holds a colon. `Address.Lost` says which addresses do not survive that; all others do.
-/

namespace Afl.Net

open Charset UrlEncoding Url

/-- Without `%` and `+`, nothing is encoded. -/
def Plain (s : Bytes) : Prop := ∀ c ∈ s, c ≠ 37 ∧ c ≠ 43

instance : DecidablePred Plain := fun s => List.decidableBAll _ s

theorem Plain.nil : Plain [] := List.forall_mem_nil _

theorem Plain.append {s t : Bytes} (hs : Plain s) (ht : Plain t) : Plain (s ++ t) :=
  List.forall_mem_append.mpr ⟨hs, ht⟩

theorem Plain.of_subset {s t : Bytes} (hs : Plain s) (h : ∀ c ∈ t, c ∈ s) : Plain t := fun c hc => hs c (h c hc)

theorem Plain.ite {p : Prop} [Decidable p] {s t : Bytes} (hs : Plain s) (ht : Plain t) :
    Plain (if p then s else t) := by
  split
  · exact hs
  · exact ht

/-- Nothing in the URL is encoded. -/
structure PlainUrl (u : Url) : Prop where
  scheme : Plain u.scheme
  user : Plain u.user
  password : Plain u.password
  host : Plain u.host
  port : Plain u.port
  path : Plain u.path
  fragment : Plain u.fragment

theorem PlainUrl.toString {u : Url} (h : PlainUrl u) : Plain u.toString := by
  have hauthority : Plain u.authorityText :=
    (Plain.ite (((h.user.append (by decide)).append h.password).append (by decide)) .nil).append
      (.ite ((Plain.append (by decide) h.host).append (by decide)) h.host) |>.append
      (.ite (Plain.append (by decide) h.port) .nil)
  exact ((Plain.ite (h.scheme.append (by decide)) .nil).append
    (.ite ((Plain.append (by decide) hauthority).append (.ite .nil (by decide))) .nil) |>.append h.path).append
      h.fragment

/-! ### The address that is printed -/

namespace Login

/-- `toString` always writes a password. -/
def printed : Login → Login
  | absent => absent
  | user name => full name []
  | full name password => full name password

theorem printed_name (l : Login) : l.printed.name = l.name := by cases l <;> rfl

theorem printed_password (l : Login) : l.printed.password = l.password := by cases l <;> rfl

theorem mem_text {l : Login} {c : UInt8} (hc : c ∈ l.name ∨ c ∈ l.password) : c ∈ l.text := by
  cases l with
  | absent => simp [name, password] at hc
  | user n =>
    have hc : c ∈ n := by simpa [name, password] using hc
    simp [text, hc]
  | full n p =>
    have hc : c ∈ n ∨ c ∈ p := hc
    rcases hc with hc | hc <;> simp [text, hc]

theorem text_printed {l : Login} {rest : Bytes} (h : l.Legal rest) :
    l.printed.text = if l.name ≠ [] then l.name ++ [58] ++ l.password ++ [64] else [] := by
  cases l with
  | absent => rfl
  | user name => simp [printed, text, Login.name, Login.password, h.1]
  | full name password => simp [printed, text, Login.name, Login.password, h.1]

theorem Legal.printed {l : Login} {rest rest' : Bytes} (h : l.Legal rest) (hrest : 64 ∈ rest' → 64 ∈ rest) :
    l.printed.Legal rest' := by
  cases l with
  | absent => exact fun hmem => h (hrest hmem)
  | user name => exact ⟨h.1, h.2.1, h.2.2, List.not_mem_nil⟩
  | full name password => exact h

theorem Legal.name_ne_nil {l : Login} {rest : Bytes} (h : l.Legal rest) (hl : l ≠ absent) : l.name ≠ [] := by
  cases l with
  | absent => exact absurd rfl hl
  | user name => exact h.1
  | full name password => exact h.1

end Login

namespace Host

/-- `toString` writes brackets if there is a colon. -/
def printed (h : Host) : Host := if 58 ∈ h.name then bracketed h.name else plain h.name

theorem printed_name (h : Host) : h.printed.name = h.name := by
  rw [printed]
  split <;> rfl

theorem text_printed (h : Host) :
    h.printed.text = if 58 ∈ h.name then [91] ++ h.name ++ [93] else h.name := by
  rw [printed]
  split <;> rfl

theorem mem_text {h : Host} {c : UInt8} (hc : c ∈ h.name) : c ∈ h.text := by
  cases h with
  | plain name => exact hc
  | bracketed name => simp [text, show c ∈ name from hc]

/-- A host that is written without the brackets it needs. -/
def Unbracketed (h : Host) : Prop :=
  ∃ name, h = bracketed name ∧ 58 ∉ name ∧ (name.head? = some 91 ∨ ∃ c ∈ name, endsHost c = true)

theorem Legal.printed {h : Host} {rest rest' : Bytes} (hlegal : h.Legal rest) (hkept : ¬h.Unbracketed)
    (hrest : rest'.head? = some 58 ∨ rest'.head? = some 47) : h.printed.Legal rest' := by
  have hends : ∀ c ∈ rest'.head?, endsHost c = true := by
    rcases hrest with hhead | hhead <;> simp [hhead, endsHost]
  cases h with
  | plain name =>
    obtain ⟨hname, hbracket, -⟩ := hlegal
    have hcolon : 58 ∉ (plain name).name := fun hmem => absurd (hname 58 hmem) (by decide)
    rw [Host.printed, if_neg hcolon]
    exact ⟨hname, hbracket, hends⟩
  | bracketed name =>
    rw [Host.printed]
    split
    · refine ⟨hlegal.1, ?_⟩
      rcases hrest with hhead | hhead <;> simp [hhead]
    · next hcolon =>
      refine ⟨fun c hc => ?_, fun hhead => hkept ⟨name, rfl, hcolon, .inl hhead⟩, hends⟩
      by_contra hend
      exact hkept ⟨name, rfl, hcolon, .inr ⟨c, hc, by simpa using hend⟩⟩

end Host

/-- `toString` writes no port that is empty. -/
def printedPort (port : Option Bytes) : Option Bytes := if port.getD [] = [] then none else port

theorem mem_portText {port : Option Bytes} {c : UInt8} (hc : c ∈ port.getD []) : c ∈ portText port := by
  cases port with
  | none => exact hc
  | some digits => exact List.mem_cons_of_mem _ hc

theorem printedPort_getD (port : Option Bytes) : (printedPort port).getD [] = port.getD [] := by
  rw [printedPort]
  split
  · next h => exact h.symm
  · rfl

theorem text_printedPort (port : Option Bytes) :
    portText (printedPort port) = if port.getD [] ≠ [] then [58] ++ port.getD [] else [] := by
  cases port with
  | none => rfl
  | some digits =>
    rw [printedPort]
    by_cases hdigits : digits = [] <;> simp [hdigits, portText]

theorem PortLegal.printed {port : Option Bytes} {rest rest' : Bytes} (h : PortLegal rest port)
    (hrest : rest'.head? = some 47) : PortLegal rest' (printedPort port) := by
  rw [printedPort]
  split
  · simp [PortLegal, hrest]
  · next hne =>
    cases port with
    | none => exact absurd rfl hne
    | some digits => exact ⟨h.1, fun hnil => absurd hnil hne, by simp [hrest]⟩

theorem head?_rooted (path rest : Bytes) : (rooted path ++ rest).head? = some 47 := by
  rw [rooted]
  split
  · next h => simp [h]
  · rfl

theorem mem_rooted {path : Bytes} {c : UInt8} (h : c ∈ rooted path) : c = 47 ∨ c ∈ path := by
  rw [rooted] at h
  split at h
  · exact .inr h
  · exact List.mem_cons.mp h

theorem rooted_rooted (path : Bytes) : rooted (rooted path) = rooted path := by
  have h := head?_rooted path []
  rw [List.append_nil] at h
  rw [rooted, if_pos h]

theorem length_rooted_le (path : Bytes) : (rooted path).length ≤ path.length + 1 := by
  rw [rooted]
  split <;> simp

theorem notMem_rooted {path : Bytes} (h : 35 ∉ path) : 35 ∉ rooted path := by
  intro hmem
  rcases mem_rooted hmem with heq | hpath
  · exact absurd heq (by decide)
  · exact h hpath

theorem bareLegal_rooted {scheme path : Bytes} (h : ¬[47, 47] <+: path) : BareLegal scheme (rooted path) := by
  constructor
  · rw [rooted]
    split
    · exact h
    · next hhead =>
      rintro ⟨t, ht⟩
      have htail : 47 :: t = path := (List.cons.inj ht).2
      exact hhead (by rw [← htail]; rfl)
  · intro _ a b heq hne
    have hhead := head?_rooted path []
    rw [List.append_nil, heq] at hhead
    cases a with
    | nil => exact absurd rfl hne
    | cons c a => exact ⟨c, List.mem_cons_self, Option.some.inj hhead ▸ rfl⟩

variable {b : Authority}

namespace Authority

def printed (b : Authority) : Authority := ⟨b.login.printed, b.host.printed, printedPort b.port⟩

theorem at_mem {path fragment : Bytes}
    (h : 64 ∈ b.printed.host.text ++ portText b.printed.port ++ (rooted path ++ fragment)) :
    64 ∈ b.host.text ++ portText b.port ++ (path ++ fragment) := by
  simp only [List.mem_append] at h ⊢
  rcases h with (hhost | hport) | hpath | hfragment
  · refine .inl (.inl (Host.mem_text ?_))
    rw [printed, Host.text_printed] at hhost
    split at hhost
    · simpa using hhost
    · exact hhost
  · refine .inl (.inr ?_)
    rw [printed, printedPort] at hport
    split at hport
    · exact absurd hport List.not_mem_nil
    · exact hport
  · rcases mem_rooted hpath with heq | hmem
    · exact absurd heq (by decide)
    · exact .inr (.inl hmem)
  · exact .inr (.inr hfragment)

theorem printed_login (b : Authority) : b.printed.login = b.login.printed := rfl

theorem Legal.printed {path fragment : Bytes} (h : b.Legal (path ++ fragment))
    (hkept : ¬b.host.Unbracketed) : b.printed.Legal (rooted path ++ fragment) := by
  have hslash := head?_rooted path fragment
  refine ⟨h.login.printed at_mem, h.host.printed hkept ?_, h.port.printed hslash⟩
  cases hport : b.printed.port with
  | none => exact .inr hslash
  | some digits => exact .inl rfl

end Authority

namespace Address

/-- An address that `toString` changes: a user, a port or two slashes without a host, or brackets around a name
without a colon that are needed. -/
def Lost (a : Address) : Prop :=
  ∃ b, a.authority = some b ∧
    (b.host.name = [] ∧ (b.login ≠ .absent ∨ b.port.getD [] ≠ [] ∨ [47, 47] <+: a.path) ∨ b.host.Unbracketed)

/-- What an address says if nothing in it is encoded. -/
def raw (a : Address) : Url :=
  match a.authority with
  | none => ⟨a.scheme, [], [], [], [], a.path, a.fragment⟩
  | some b =>
    ⟨a.scheme, b.login.name, b.login.password, b.host.name, b.port.getD [], rooted a.path, a.fragment⟩

variable {a : Address}

theorem raw_plain (h : Plain a.text) : PlainUrl a.raw := by
  obtain ⟨scheme, authority, path, fragment, _, _, _, _, _⟩ := a
  have hscheme : Plain scheme := h.of_subset fun c hc => by
    have hne : scheme ≠ [] := List.ne_nil_of_mem hc
    simp [text, schemeText, hne, hc]
  have hpath : Plain path := h.of_subset fun c hc => by simp [text, hc]
  have hfragment : Plain fragment := h.of_subset fun c hc => by simp [text, hc]
  cases authority with
  | none => exact ⟨hscheme, .nil, .nil, .nil, .nil, hpath, hfragment⟩
  | some b =>
    have htext : Plain b.text := h.of_subset fun c hc => by simp [text, authorityText, hc]
    refine ⟨hscheme, htext.of_subset fun c hc => ?_, htext.of_subset fun c hc => ?_, htext.of_subset fun c hc => ?_,
      htext.of_subset fun c hc => ?_, fun c hc => ?_, hfragment⟩
    · simp [Authority.text, Login.mem_text (.inl hc)]
    · simp [Authority.text, Login.mem_text (.inr hc)]
    · simp [Authority.text, Host.mem_text hc]
    · simp [Authority.text, mem_portText hc]
    · rcases mem_rooted hc with rfl | hc
      · exact ⟨by decide, by decide⟩
      · exact hpath c hc

theorem url_eq_raw (h : Plain a.text) : a.url = a.raw := by
  have hplain := raw_plain h
  cases hauthority : a.authority with
  | none =>
    simp only [raw, hauthority] at hplain
    have hscheme : decode a.scheme = a.scheme := decode_of_plain hplain.scheme
    have hfragment : decode a.fragment = a.fragment := decode_of_plain hplain.fragment
    simp [url, raw, hauthority, hscheme, hfragment]
  | some b =>
    simp only [raw, hauthority] at hplain
    have hscheme : decode a.scheme = a.scheme := decode_of_plain hplain.scheme
    have huser : decode b.login.name = b.login.name := decode_of_plain hplain.user
    have hpassword : decode b.login.password = b.login.password := decode_of_plain hplain.password
    have hhost : decode b.host.name = b.host.name := decode_of_plain hplain.host
    have hport : decode (b.port.getD []) = b.port.getD [] := decode_of_plain hplain.port
    have hfragment : decode a.fragment = a.fragment := decode_of_plain hplain.fragment
    simp [url, raw, hauthority, hscheme, huser, hpassword, hhost, hport, hfragment]

theorem toString_bare (h : a.raw.host = []) :
    a.raw.toString = schemeText a.scheme ++ a.raw.path ++ a.fragment := by
  have hscheme : a.raw.scheme = a.scheme := by rw [raw]; split <;> rfl
  have hfragment : a.raw.fragment = a.fragment := by rw [raw]; split <;> rfl
  simp [Url.toString, h, schemeText, hscheme, hfragment]

theorem toString_host (hb : a.authority = some b) (hhost : b.host.name ≠ []) :
    a.raw.toString = schemeText a.scheme ++ (lit "//" ++ b.printed.text ++ rooted a.path ++ a.fragment) := by
  have hlegal := a.hauthority b hb
  have hslash := head?_rooted a.path []
  rw [List.append_nil] at hslash
  simp [Url.toString, raw, hb, hhost, schemeText, Url.authorityText, Authority.printed, Authority.text,
    Login.text_printed hlegal.login, Host.text_printed, text_printedPort, hslash]

theorem exists_printed (h : ¬a.Lost) : ∃ p : Address, p.text = a.raw.toString ∧ p.raw = a.raw := by
  cases hauthority : a.authority with
  | none =>
    refine ⟨a, ?_, rfl⟩
    rw [toString_bare (by rw [raw, hauthority])]
    simp [text, raw, hauthority, authorityText]
  | some b =>
    have hlegal := a.hauthority b hauthority
    by_cases hhost : b.host.name = []
    · have hkept : b.login = .absent ∧ b.port.getD [] = [] ∧ ¬[47, 47] <+: a.path :=
        ⟨by_contra fun hlogin => h ⟨b, hauthority, .inl ⟨hhost, .inl hlogin⟩⟩,
          by_contra fun hport => h ⟨b, hauthority, .inl ⟨hhost, .inr (.inl hport)⟩⟩,
          fun hslashes => h ⟨b, hauthority, .inl ⟨hhost, .inr (.inr hslashes)⟩⟩⟩
      obtain ⟨hlogin, hport, hslashes⟩ := hkept
      refine ⟨⟨a.scheme, none, rooted a.path, a.fragment, a.hscheme, by simp, fun _ => bareLegal_rooted hslashes,
        notMem_rooted a.hpath, a.hfragment⟩, ?_, ?_⟩
      · rw [toString_bare (by simp [raw, hauthority, hhost])]
        simp [text, raw, hauthority, authorityText]
      · simp [raw, hauthority, hhost, hlogin, hport, Login.name, Login.password]
    · have hprinted := hlegal.printed fun hhost => h ⟨b, hauthority, .inr hhost⟩
      refine ⟨⟨a.scheme, some b.printed, rooted a.path, a.fragment, a.hscheme, by simpa using hprinted, by simp,
        notMem_rooted a.hpath, a.hfragment⟩, ?_, ?_⟩
      · rw [toString_host hauthority hhost]
        simp [text, authorityText]
      · simp [raw, hauthority, Authority.printed, Login.printed_name, Login.printed_password, Host.printed_name,
          printedPort_getD, rooted_rooted]

end Address

/-! ### What is lost -/

theorem head?_of_shifted {name x r : Bytes} (h : 91 :: (name ++ x) = name ++ r) : r.head? = some 91 := by
  induction name with
  | nil => exact congrArg List.head? h.symm
  | cons c name ih =>
    obtain ⟨rfl, htail⟩ := List.cons.inj h
    exact ih htail

namespace Address

theorem raw_scheme (a : Address) : a.raw.scheme = a.scheme := by
  rw [raw]
  split <;> rfl

theorem raw_fragment (a : Address) : a.raw.fragment = a.fragment := by
  rw [raw]
  split <;> rfl

theorem Lost.ne_of_no_host {a p : Address} (hb : a.authority = some b) (hhost : b.host.name = [])
    (hlost : b.login ≠ .absent ∨ b.port.getD [] ≠ [] ∨ [47, 47] <+: a.path) (htext : p.text = a.raw.toString) :
    p.raw ≠ a.raw := by
  intro hraw
  have hscheme : p.scheme = a.scheme := by rw [← raw_scheme, hraw, raw_scheme]
  have hfragment : p.fragment = a.fragment := by rw [← raw_fragment, hraw, raw_fragment]
  have hpath : a.raw.path = rooted a.path := by simp [raw, hb]
  rw [toString_bare (by simp [raw, hb, hhost]), text, hscheme, hfragment, hpath] at htext
  simp only [List.append_assoc] at htext
  have hrest := List.append_cancel_left htext
  cases hp : p.authority with
  | none =>
    rw [hp] at hrest
    have hslash : p.path = rooted a.path := by rw [← hpath, ← hraw]; simp [raw, hp]
    have huser : a.raw.user = [] := by rw [← hraw]; simp [raw, hp]
    have hport : a.raw.port = [] := by rw [← hraw]; simp [raw, hp]
    simp only [raw, hb] at huser hport
    rcases hlost with hlogin | hdigits | hslashes
    · exact (a.hauthority b hb).login.name_ne_nil hlogin huser
    · exact hdigits hport
    · refine (p.hbare hp).1 ?_
      obtain ⟨t, ht⟩ := hslashes
      rw [hslash, ← ht]
      exact ⟨t, rfl⟩
  | some c =>
    -- the path that is found is shorter by the two slashes
    have hrooted : rooted p.path = rooted a.path := by rw [← hpath, ← hraw]; simp [raw, hp]
    have hlength := congrArg List.length hrest
    have hle := length_rooted_le p.path
    rw [hrooted] at hle
    simp [hp, authorityText, lit] at hlength
    omega

theorem Lost.ne_of_unbracketed {a p : Address} (hb : a.authority = some b)
    (hlost : b.host.Unbracketed) (hhost : b.host.name ≠ []) (htext : p.text = a.raw.toString) : p.raw ≠ a.raw := by
  intro hraw
  have hscheme : p.scheme = a.scheme := by rw [← raw_scheme, hraw, raw_scheme]
  rw [toString_host hb hhost, text, hscheme] at htext
  simp only [List.append_assoc] at htext
  have hrest := List.append_cancel_left htext
  have hlegal := a.hauthority b hb
  cases hp : p.authority with
  | none =>
    have hname : a.raw.host = [] := by rw [← hraw]; simp [raw, hp]
    simp only [raw, hb] at hname
    exact hhost hname
  | some c =>
    obtain ⟨name, hbracketed, hcolon, hneeded⟩ := hlost
    have hlegal' := p.hauthority c hp
    have hname : c.host.name = name := by
      have hsame : p.raw.host = a.raw.host := by rw [hraw]
      simpa [raw, hp, hb, hbracketed, Host.name] using hsame
    have htexts : c.login.text ++ (c.host.text ++ portText c.port ++ (p.path ++ p.fragment)) =
        b.printed.login.text ++
          (b.printed.host.text ++ portText b.printed.port ++ (rooted a.path ++ a.fragment)) := by
      simpa [hp, authorityText, Authority.text, lit] using hrest
    -- both begin with the same login, so that the hosts are to be found at the same place
    have hhosts : c.host.text ++ portText c.port ++ (p.path ++ p.fragment) =
        b.printed.host.text ++ portText b.printed.port ++ (rooted a.path ++ a.fragment) := by
      have hfound := parseUser_text (hlegal.login.printed Authority.at_mem)
      rw [← Authority.printed_login, ← htexts, parseUser_text hlegal'.login] at hfound
      exact (Prod.mk.inj (Prod.mk.inj (Option.some.inj hfound)).2).2
    have hunbracketed : b.printed.host.text = name := by
      simp [Authority.printed, hbracketed, Host.text_printed, Host.name, hcolon]
    rw [hunbracketed] at hhosts
    have hhead : (portText b.printed.port ++ (rooted a.path ++ a.fragment)).head? ≠ some 91 := by
      cases b.printed.port with
      | none =>
        rw [portText, List.nil_append, head?_rooted]
        decide
      | some digits => simp [portText]
    cases hhost' : c.host with
    | plain name' =>
      have heq : name' = name := by simpa [hhost', Host.name] using hname
      subst heq
      have hplain := hlegal'.host
      rw [hhost'] at hplain
      rcases hneeded with hbracket | ⟨x, hx, hend⟩
      · exact hplain.2.1 hbracket
      · exact absurd (hplain.1 x hx) (by simp [hend])
    | bracketed name' =>
      have heq : name' = name := by simpa [hhost', Host.name] using hname
      subst heq
      have hshifted : 91 :: (name' ++ 93 :: (portText c.port ++ (p.path ++ p.fragment))) =
          name' ++ (portText b.printed.port ++ (rooted a.path ++ a.fragment)) := by
        simpa [hhost', Host.text] using hhosts
      exact hhead (head?_of_shifted hshifted)

end Address

theorem Address.Lost.ne {a p : Address} (h : a.Lost) (htext : p.text = a.raw.toString) : p.raw ≠ a.raw := by
  obtain ⟨b, hb, hlost⟩ := h
  by_cases hhost : b.host.name = []
  · rcases hlost with ⟨-, hlost⟩ | ⟨name, hname, -, hneeded⟩
    · exact ne_of_no_host hb hhost hlost htext
    · have hnil : name = [] := by simpa [hname, Host.name] using hhost
      simp [hnil] at hneeded
  · rcases hlost with ⟨hnil, -⟩ | hlost
    · exact absurd hnil hhost
    · exact ne_of_unbracketed hb hlost hhost htext

/-- A plain URL survives printing and parsing unless it is the text of an address that is lost. -/
theorem parse_toString_iff {s : Bytes} {u : Url} (hs : Plain s) (h : parse s = some u) :
    parse u.toString = some u ↔ ¬∃ a : Address, a.text = s ∧ a.Lost := by
  have hraw (a : Address) (ha : a.text = s) : u = a.raw := by
    rw [← Address.url_eq_raw (ha ▸ hs)]
    exact Option.some.inj (by rw [← h, ← ha, parse_text])
  constructor
  · rintro hparse ⟨a, ha, hlost⟩
    obtain ⟨p, hp, hurl⟩ := exists_address hparse
    have hu := hraw a ha
    subst hu
    have hplain : Plain p.text := hp ▸ (Address.raw_plain (ha ▸ hs)).toString
    exact hlost.ne hp (by rw [← Address.url_eq_raw hplain, hurl])
  · intro hkept
    obtain ⟨a, ha, -⟩ := exists_address h
    have hu := hraw a ha
    subst hu
    obtain ⟨p, hp, hprinted⟩ := Address.exists_printed fun hlost => hkept ⟨a, ha, hlost⟩
    have hplain : Plain p.text := hp ▸ (Address.raw_plain (ha ▸ hs)).toString
    rw [← hp, parse_text, Address.url_eq_raw hplain, hprinted]

theorem parse_toString_http :
    Plain (lit "http://u@h:80/p#f") ∧
      (parse (lit "http://u@h:80/p#f")).map Url.toString = some (lit "http://u:@h:80/p#f") ∧
      (parse (lit "http://u:@h:80/p#f") = some ⟨lit "http", lit "u", [], lit "h", lit "80", lit "/p", lit "#f"⟩ ↔
        ¬∃ a : Address, a.text = lit "http://u@h:80/p#f" ∧ a.Lost) :=
  ⟨by decide, by decide, parse_toString_iff (u := ⟨lit "http", lit "u", [], lit "h", lit "80", lit "/p", lit "#f"⟩)
    (by decide) (by decide)⟩

/-- A port without a host is accepted, but not printed. -/
theorem toString_loses_port :
    ¬∀ (s : Bytes) (u : Url), Plain s → parse s = some u → parse u.toString = some u := by
  intro h
  have hparse := h (lit "foo://:80/") ⟨lit "foo", [], [], [], lit "80", lit "/", []⟩ (by decide) (by decide)
  exact absurd hparse (by decide)

end Afl.Net
