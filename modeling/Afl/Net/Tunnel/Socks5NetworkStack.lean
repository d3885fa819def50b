import Afl.String.ParseMemory

/-!
# The SOCKS5 client

`afl/net/tunnel/socks5networkstack.cpp`. A domain name is sent with a NUL behind it, and in a reply it is read up to a
NUL; there is no length byte in either direction. The socket is the bytes that are still to be received.
-/

namespace Afl.Net.Tunnel

/-! ### The messages of RFC 1928

A request and its reply have the same form. A domain name is a length byte and as many bytes. `decode` is the grammar,
`encode` writes a message. -/

/-- The addresses of RFC 1928. -/
inductive Address
  | ipv4 (octets : Bytes) (length_eq : octets.length = 4)
  | domain (name : Bytes) (length_lt : name.length < 256)
  | ipv6 (octets : Bytes) (length_eq : octets.length = 16)
deriving DecidableEq

/-- A request with its command, or a reply with its code. -/
structure Message where
  code : UInt8
  address : Address
  port : UInt16
deriving DecidableEq

def Address.encode : Address → Bytes
  | .ipv4 octets _ => 1 :: octets
  | .domain name _ => 3 :: UInt8.ofNat name.length :: name
  | .ipv6 octets _ => 4 :: octets

def encodePort (port : UInt16) : Bytes := [UInt8.ofNat (port.toNat / 256), UInt8.ofNat port.toNat]

def decodePort (high low : UInt8) : UInt16 := UInt16.ofNat (256 * high.toNat + low.toNat)

def Message.encode (m : Message) : Bytes := 5 :: m.code :: 0 :: m.address.encode ++ encodePort m.port

/-- An address, and the bytes behind it. -/
def Address.decode : Bytes → Option (Address × Bytes)
  | 1 :: rest => if h : (rest.take 4).length = 4 then some (.ipv4 (rest.take 4) h, rest.drop 4) else none
  | 3 :: size :: rest =>
    if h : (rest.take size.toNat).length = size.toNat then
      some (.domain (rest.take size.toNat) (h.trans_lt size.toNat_lt), rest.drop size.toNat)
    else none
  | 4 :: rest => if h : (rest.take 16).length = 16 then some (.ipv6 (rest.take 16) h, rest.drop 16) else none
  | _ => none

/-- A message, and the bytes behind it. -/
def Message.decode : Bytes → Option (Message × Bytes)
  | 5 :: code :: 0 :: bytes =>
    match Address.decode bytes with
    | some (address, high :: low :: rest) => some (⟨code, address, decodePort high low⟩, rest)
    | _ => none
  | _ => none

theorem Address.decode_append (a : Address) (rest : Bytes) : Address.decode (a.encode ++ rest) = some (a, rest) := by
  have htake : ∀ {s : Bytes} {n : Nat}, s.length = n → (s ++ rest).take n = s :=
    fun h => List.take_left' h
  have hdrop : ∀ {s : Bytes} {n : Nat}, s.length = n → (s ++ rest).drop n = rest :=
    fun h => List.drop_left' h
  cases a with
  | ipv4 octets h =>
    simp only [encode, List.cons_append, decode, htake h, hdrop h, h, dite_true]
  | domain name h =>
    have hsize : (UInt8.ofNat name.length).toNat = name.length := UInt8.toNat_ofNat_of_lt' h
    simp only [encode, List.cons_append, decode, hsize, htake rfl, hdrop rfl, dite_true]
  | ipv6 octets h =>
    simp only [encode, List.cons_append, decode, htake h, hdrop h, h, dite_true]

theorem Address.of_decode_domain {size : UInt8} {rest name behind : Bytes} {h : name.length < 256}
    (hdecode : Address.decode (3 :: size :: rest) = some (.domain name h, behind)) :
    rest = name ++ behind ∧ name.length = size.toNat := by
  rw [decode] at hdecode
  split_ifs at hdecode with hsize
  simp only [Option.some.injEq, Prod.mk.injEq, domain.injEq] at hdecode
  obtain ⟨rfl, rfl⟩ := hdecode
  exact ⟨(List.take_append_drop _ _).symm, hsize⟩

theorem Message.of_decode {code : UInt8} {bytes rest : Bytes} {m : Message}
    (hdecode : Message.decode (5 :: code :: 0 :: bytes) = some (m, rest)) :
    ∃ high low, Address.decode bytes = some (m.address, high :: low :: rest) := by
  rw [decode] at hdecode
  split at hdecode
  · rename_i address high low rest' haddress
    obtain ⟨rfl, rfl⟩ := Prod.mk.inj (Option.some.inj hdecode)
    exact ⟨high, low, haddress⟩
  · cases hdecode

theorem exists_encodePort (port : UInt16) : ∃ high low, encodePort port = [high, low] := ⟨_, _, rfl⟩

theorem decodePort_encodePort (port : UInt16) :
    decodePort (UInt8.ofNat (port.toNat / 256)) (UInt8.ofNat port.toNat) = port := by
  have hport := port.toNat_lt
  apply UInt16.toNat_inj.mp
  rw [decodePort, UInt16.toNat_ofNat', UInt8.toNat_ofNat', UInt8.toNat_ofNat']
  omega

/-- **Round trip** of the messages. -/
theorem Message.decode_append (m : Message) (rest : Bytes) : Message.decode (m.encode ++ rest) = some (m, rest) := by
  have haddress := m.address.decode_append (encodePort m.port ++ rest)
  have hbytes : m.encode ++ rest = 5 :: m.code :: 0 :: (m.address.encode ++ (encodePort m.port ++ rest)) := by
    simp only [encode, List.cons_append, List.append_assoc]
  rw [hbytes, decode, haddress, encodePort]
  simp only [List.cons_append, List.nil_append, decodePort_encodePort]

/-! ### Names and failures -/

structure Name where
  name : Bytes
  service : Bytes

def Name.toString (n : Name) : Bytes :=
  if n.name ≠ [] ∧ n.service ≠ [] then
    (if 58 ∈ n.name then [91] ++ n.name ++ [93] else n.name) ++ [58] ++ n.service
  else []

/-- `FileProblemException`. -/
structure FileProblem where
  fileName : Bytes
  message : Bytes
deriving DecidableEq

/-! ### The request -/

def parsePortNumber (str : Bytes) : Option Bytes :=
  match parseNumber str with
  | (n, parsed, rest) =>
    if n > 0 ∧ parsed > 0 ∧ parsed < 0x10000 ∧ rest = [] then some [(parsed >>> 8).toUInt8, parsed.toUInt8] else none

def parseOctet (str : Bytes) : Option (UInt8 × Bytes) :=
  match parseNumber str with
  | (n, parsed, rest) => if n ≠ 0 ∧ parsed < 256 then some (parsed.toUInt8, rest) else none

def parseOctetDot (str : Bytes) : Option (UInt8 × Bytes) :=
  match parseOctet str with
  | some (octet, rest) => if (parseChar 46 rest).1 ≠ 0 then some (octet, (parseChar 46 rest).2) else none
  | none => none

def parseIPv4Address (str : Bytes) : Option Bytes :=
  match parseOctetDot str with
  | some (a, str) =>
    match parseOctetDot str with
    | some (b, str) =>
      match parseOctetDot str with
      | some (c, str) =>
        match parseOctet str with
        | some (d, str) => if str = [] then some [a, b, c, d] else none
        | none => none
      | none => none
    | none => none
  | none => none

def SOCKS5_VERSION : UInt8 := 5

def SOCKS5_AUTH_NONE : UInt8 := 0

def SOCKS5_OP_CONNECT : UInt8 := 1

def SOCKS5_ATYP_IPV4 : UInt8 := 1

def SOCKS5_ATYP_DOMAIN : UInt8 := 3

def SOCKS5_ATYP_IPV6 : UInt8 := 4

def frame (code addressType : UInt8) : Bytes := [SOCKS5_VERSION, code, 0, addressType]

def buildRequest5 (op : UInt8) (name : Name) : Option Bytes :=
  match parsePortNumber name.service with
  | none => none
  | some port =>
    match parseIPv4Address name.name with
    | some address => some (frame op SOCKS5_ATYP_IPV4 ++ address ++ port)
    | none => some (frame op SOCKS5_ATYP_DOMAIN ++ name.name ++ [0] ++ port)

/-- `sendConnectRequest5`: the bytes that are sent. -/
def sendConnectRequest5 (name : Name) : Except FileProblem Bytes :=
  match buildRequest5 SOCKS5_OP_CONNECT name with
  | some request => .ok request
  | none => .error ⟨name.toString, lit "bad port"⟩

/-! ### The reply -/

/-- `fullReceive`: the bytes, and what is left to be received. The connection is closed behind the input. -/
def fullReceive (socketName : Bytes) (size : Nat) (input : Bytes) : Except FileProblem (Bytes × Bytes) :=
  if size ≤ input.length then .ok (input.take size, input.drop size)
  else .error ⟨socketName, lit "Network connection lost"⟩

def receiveDomain (socketName : Bytes) : Bytes → Except FileProblem Bytes
  | [] => .error ⟨socketName, lit "Network connection lost"⟩
  | byte :: input => if byte ≠ 0 then receiveDomain socketName input else .ok input

def getSocks5Message (code : UInt8) : Bytes :=
  match code with
  | 1 => lit "General SOCKS server failure"
  | 2 => lit "Connection not allowed by ruleset"
  | 3 => lit "Network unreachable"
  | 4 => lit "Host unreachable"
  | 5 => lit "Connection refused"
  | 6 => lit "TTL expired"
  | 7 => lit "Command not supported"
  | 8 => lit "Address type not supported"
  | _ => lit "?"

/-- The `switch` over the address type: what is left behind the address. -/
def receiveAddress (socketName : Bytes) (addressType : UInt8) (input : Bytes) : Except FileProblem Bytes :=
  if addressType = SOCKS5_ATYP_IPV4 then (fullReceive socketName 4 input).map Prod.snd
  else if addressType = SOCKS5_ATYP_DOMAIN then receiveDomain socketName input
  else if addressType = SOCKS5_ATYP_IPV6 then (fullReceive socketName 16 input).map Prod.snd
  else .ok input

/-- `receiveConnectResponse5`: what is left to be received. -/
def receiveConnectResponse5 (socketName : Bytes) (name : Name) (input : Bytes) : Except FileProblem Bytes := do
  let (frame, input) ← fullReceive socketName 4 input
  let version := frame.getD 0 0
  let code := frame.getD 1 0
  if version ≠ 0 ∧ version ≠ SOCKS5_VERSION then .error ⟨socketName, lit "Syntax error"⟩
  else if code ≠ 0 then
    .error ⟨name.toString, getSocks5Message code ++ lit " (SOCKS5 error code: " ++ decimal code.toNat ++ lit ")"⟩
  else do
    let input ← receiveAddress socketName (frame.getD 3 0) input
    let (_, input) ← fullReceive socketName 2 input
    .ok input

/-! ### A connection -/

def greeting : Bytes := [SOCKS5_VERSION, 1, SOCKS5_AUTH_NONE]

/-- `sendGreeting5`: the method of the proxy, and what is left to be received. -/
def receiveGreeting5 (socketName : Bytes) (input : Bytes) : Except FileProblem (UInt8 × Bytes) := do
  let (reply, input) ← fullReceive socketName 2 input
  if reply.getD 0 0 ≠ SOCKS5_VERSION then .error ⟨socketName, lit "Syntax error"⟩ else .ok (reply.getD 1 0, input)

/-- `connect`: the bytes that have been sent, and what the tunnelled stream starts with. -/
def connect (socketName : Bytes) (name : Name) (input : Bytes) : Bytes × Except FileProblem Bytes :=
  match receiveGreeting5 socketName input with
  | .error e => (greeting, .error e)
  | .ok (authMode, input) =>
    if authMode ≠ SOCKS5_AUTH_NONE then (greeting, .error ⟨name.toString, lit "unsupported authentification"⟩)
    else
      match sendConnectRequest5 name with
      | .error e => (greeting, .error e)
      | .ok request => (greeting ++ request, receiveConnectResponse5 socketName name input)

/-! ### Numbers -/

/-- A number is written with these digits. -/
structure IsNumber (text : Bytes) (n : Nat) : Prop where
  nonempty : text ≠ []
  digits : ∀ c ∈ text, charIsDigit c = true
  value : digitsValue text = n

theorem parseNumber_eq_iff (mem : Bytes) {v : UInt64} {rest : Bytes} (hv : v.toNat < 2 ^ 16) :
    (∃ n, n ≠ 0 ∧ parseNumber mem = (n, v, rest)) ↔
      ∃ t, IsNumber t v.toNat ∧ mem = t ++ rest ∧ ∀ c ∈ rest.head?, charIsDigit c = false := by
  constructor
  · rintro ⟨n, hn, h⟩
    obtain ⟨hvalue, hlength, hrest⟩ := (parseNumber_iff mem hn hv).mp h
    refine ⟨mem.takeWhile charIsDigit, ⟨?_, fun c hc => List.mem_takeWhile_imp hc, hvalue.symm⟩, ?_, ?_⟩
    · intro hnil
      rw [hnil] at hlength
      exact hn hlength
    · rw [hrest, List.takeWhile_append_dropWhile]
    · rw [hrest]
      exact head?_dropWhile_false charIsDigit mem
  · rintro ⟨t, ht, rfl, hstop⟩
    obtain ⟨htake, hdrop⟩ := takeWhile_append_stop ht.digits hstop
    refine ⟨t.length, fun hzero => ht.nonempty (List.length_eq_zero_iff.mp hzero), ?_⟩
    rw [parseNumber_iff _ (fun hzero => ht.nonempty (List.length_eq_zero_iff.mp hzero)) hv, htake, hdrop]
    exact ⟨ht.value.symm, rfl, rfl⟩

theorem toNat_lt_ofNat (v : UInt64) {n : Nat} (hn : n < 2 ^ 64) : v < UInt64.ofNat n ↔ v.toNat < n := by
  rw [UInt64.lt_iff_toNat_lt, UInt64.toNat_ofNat_of_lt' hn]

theorem parseOctet_iff (str : Bytes) (o : UInt8) (rest : Bytes) :
    parseOctet str = some (o, rest) ↔
      ∃ t, IsNumber t o.toNat ∧ str = t ++ rest ∧ ∀ c ∈ rest.head?, charIsDigit c = false := by
  have ho := o.toNat_lt
  have hvalue : o.toUInt64.toNat = o.toNat := UInt8.toNat_toUInt64 o
  rw [← hvalue, ← parseNumber_eq_iff str (by omega), parseOctet]
  constructor
  · intro h
    split at h
    rename_i n parsed rest' hparse
    split_ifs at h with hgood
    obtain ⟨hoctet, rfl⟩ := Prod.mk.inj (Option.some.inj h)
    have hlt : parsed.toNat < 256 := (toNat_lt_ofNat parsed (n := 256) (by decide)).mp hgood.2
    have heq : parsed = o.toUInt64 := by
      apply UInt64.toNat_inj.mp
      rw [hvalue, ← hoctet, UInt64.toNat_toUInt8]
      omega
    exact ⟨n, hgood.1, heq ▸ hparse⟩
  · rintro ⟨n, hn, hparse⟩
    have hlt : o.toUInt64 < 256 := (toNat_lt_ofNat _ (n := 256) (by decide)).mpr (by omega)
    rw [hparse]
    dsimp only
    rw [if_pos ⟨hn, hlt⟩, UInt8.toUInt8_toUInt64]

theorem parseOctetDot_iff (str : Bytes) (o : UInt8) (rest : Bytes) :
    parseOctetDot str = some (o, rest) ↔ ∃ t, IsNumber t o.toNat ∧ str = t ++ 46 :: rest := by
  have hdot : ∀ {mem : Bytes}, (parseChar 46 mem).1 ≠ 0 → mem = 46 :: (parseChar 46 mem).2 := by
    intro mem h
    cases mem with
    | nil => exact absurd rfl h
    | cons c mem =>
      rw [parseChar] at h ⊢
      split_ifs at h ⊢ with hc
      · rw [hc]
      · exact absurd rfl h
  rw [parseOctetDot]
  constructor
  · intro h
    cases hoctet : parseOctet str with
    | none => rw [hoctet] at h; cases h
    | some r =>
      obtain ⟨octet, tail⟩ := r
      rw [hoctet] at h
      dsimp only at h
      split_ifs at h with hchar
      obtain ⟨rfl, rfl⟩ := Prod.mk.inj (Option.some.inj h)
      obtain ⟨t, ht, hstr, -⟩ := (parseOctet_iff str octet tail).mp hoctet
      exact ⟨t, ht, hstr.trans (congrArg _ (hdot hchar))⟩
  · rintro ⟨t, ht, hstr⟩
    have hoctet := (parseOctet_iff str o (46 :: rest)).mpr ⟨t, ht, hstr, fun c hc => by
      rw [List.head?_cons, Option.mem_some_iff] at hc
      rw [← hc]
      rfl⟩
    rw [hoctet]
    rfl

theorem encodePort_toUInt16 {v : UInt64} (hv : v.toNat < 2 ^ 16) :
    encodePort v.toUInt16 = [(v >>> 8).toUInt8, v.toUInt8] := by
  have hport : v.toUInt16.toNat = v.toNat := by
    rw [UInt64.toNat_toUInt16]
    omega
  have hhigh : UInt8.ofNat (v.toNat / 256) = (v >>> 8).toUInt8 := by
    apply UInt8.toNat_inj.mp
    rw [UInt64.toNat_toUInt8, UInt64.toNat_shiftRight, UInt8.toNat_ofNat']
    show _ = v.toNat >>> 8 % 2 ^ 8
    rw [Nat.shiftRight_eq_div_pow]
  have hlow : UInt8.ofNat v.toNat = v.toUInt8 := by
    apply UInt8.toNat_inj.mp
    rw [UInt64.toNat_toUInt8, UInt8.toNat_ofNat']
  rw [encodePort, hport, hhigh, hlow]

theorem parsePortNumber_iff (str out : Bytes) :
    parsePortNumber str = some out ↔
      ∃ port : UInt16, port ≠ 0 ∧ IsNumber str port.toNat ∧ out = encodePort port := by
  rw [parsePortNumber]
  constructor
  · intro h
    split at h
    rename_i n parsed rest hparse
    split_ifs at h with hgood
    obtain ⟨hn, hpositive, hless, rfl⟩ := hgood
    have hlt : parsed.toNat < 2 ^ 16 := (toNat_lt_ofNat parsed (n := 65536) (by decide)).mp hless
    have hpos : 0 < parsed.toNat := UInt64.lt_iff_toNat_lt.mp hpositive
    have hport : parsed.toUInt16.toNat = parsed.toNat := by
      rw [UInt64.toNat_toUInt16]
      omega
    obtain ⟨t, ht, hstr, -⟩ := (parseNumber_eq_iff str hlt).mp ⟨n, Nat.pos_iff_ne_zero.mp hn, hparse⟩
    rw [List.append_nil] at hstr
    refine ⟨parsed.toUInt16, fun hzero => ?_, ?_, ?_⟩
    · rw [hzero] at hport
      exact hpos.ne hport
    · rw [hport, hstr]
      exact ht
    · rw [encodePort_toUInt16 hlt]
      exact (Option.some.inj h).symm
  · rintro ⟨port, hport, hnumber, rfl⟩
    have hlt := port.toNat_lt
    have hvalue : port.toUInt64.toNat = port.toNat := UInt16.toNat_toUInt64 port
    have hsmall : port.toUInt64.toNat < 2 ^ 16 := by omega
    obtain ⟨n, hn, hparse⟩ : ∃ n, n ≠ 0 ∧ parseNumber str = (n, port.toUInt64, []) :=
      (parseNumber_eq_iff str hsmall).mpr ⟨str, hvalue ▸ hnumber, (List.append_nil str).symm, fun c hc => by cases hc⟩
    have hpos : 0 < port.toUInt64 := by
      rw [UInt64.lt_iff_toNat_lt, hvalue]
      exact Nat.pos_of_ne_zero fun hzero => hport (UInt16.toNat_inj.mp hzero)
    have hless : port.toUInt64 < 65536 := (toNat_lt_ofNat _ (n := 65536) (by decide)).mpr (by omega)
    rw [hparse]
    dsimp only
    rw [if_pos ⟨Nat.pos_of_ne_zero hn, hpos, hless, rfl⟩, ← encodePort_toUInt16 (by omega), UInt16.toUInt16_toUInt64]

/-! ### Dotted quads -/

/-- Four numbers below 256 with dots between them. -/
def DottedQuad (host octets : Bytes) : Prop :=
  ∃ ta tb tc td : Bytes, ∃ a b c d : UInt8,
    IsNumber ta a.toNat ∧ IsNumber tb b.toNat ∧ IsNumber tc c.toNat ∧ IsNumber td d.toNat ∧
      host = ta ++ 46 :: (tb ++ 46 :: (tc ++ 46 :: td)) ∧ octets = [a, b, c, d]

theorem parseIPv4Address_iff (str octets : Bytes) : parseIPv4Address str = some octets ↔ DottedQuad str octets := by
  have hlast : ∀ {t : Bytes} {o : UInt8}, parseOctet t = some (o, []) ↔ IsNumber t o.toNat := by
    intro t o
    rw [parseOctet_iff]
    constructor
    · rintro ⟨t', ht', rfl, -⟩
      rw [List.append_nil]
      exact ht'
    · exact fun ht => ⟨t, ht, (List.append_nil t).symm, fun c hc => by cases hc⟩
  rw [parseIPv4Address]
  constructor
  · intro h
    split at h
    · rename_i a rest₁ ha
      split at h
      · rename_i b rest₂ hb
        split at h
        · rename_i c rest₃ hc
          split at h
          · rename_i d rest₄ hd
            split_ifs at h with hend
            subst hend
            obtain ⟨ta, hta, hstr⟩ := (parseOctetDot_iff _ _ _).mp ha
            obtain ⟨tb, htb, rfl⟩ := (parseOctetDot_iff _ _ _).mp hb
            obtain ⟨tc, htc, rfl⟩ := (parseOctetDot_iff _ _ _).mp hc
            exact ⟨ta, tb, tc, rest₃, a, b, c, d, hta, htb, htc, hlast.mp hd, hstr, (Option.some.inj h).symm⟩
          · cases h
        · cases h
      · cases h
    · cases h
  · rintro ⟨ta, tb, tc, td, a, b, c, d, hta, htb, htc, htd, hstr, rfl⟩
    have ha := (parseOctetDot_iff str a _).mpr ⟨ta, hta, hstr⟩
    have hb := (parseOctetDot_iff (tb ++ 46 :: (tc ++ 46 :: td)) b _).mpr ⟨tb, htb, rfl⟩
    have hc := (parseOctetDot_iff (tc ++ 46 :: td) c _).mpr ⟨tc, htc, rfl⟩
    simp only [ha, hb, hc, hlast.mpr htd, if_true]

/-! ### The two directions -/

/-- The address that a request for a host is to contain. -/
def Denotes (host : Bytes) (a : Address) : Prop :=
  (∃ octets h, DottedQuad host octets ∧ a = .ipv4 octets h) ∨
    (¬∃ octets, DottedQuad host octets) ∧ ∃ h, a = .domain host h

/-- The request means the host and the port, with nothing behind it. -/
def RequestFollows (name : Name) (port : UInt16) : Prop :=
  ∃ request a, sendConnectRequest5 name = .ok request ∧ Denotes name.name a ∧
    Message.decode request = some (⟨SOCKS5_OP_CONNECT, a, port⟩, [])

theorem eq_of_cons_eq_concat {α : Type} {x y : α} {t : List α} (h : x :: t = t ++ [y]) : x = y := by
  induction t generalizing x with
  | nil => exact List.head_eq_of_cons_eq h
  | cons z t ih =>
    obtain ⟨rfl, htail⟩ := List.cons.inj h
    exact ih htail

theorem decode_host_ne {host : Bytes} {port : UInt16} {h : host.length < 256} (hpos : host ≠ []) (code : UInt8)
    (port' : UInt16) :
    Message.decode (frame code SOCKS5_ATYP_DOMAIN ++ host ++ [0] ++ encodePort port) ≠
      some (⟨code, .domain host h, port'⟩, []) := by
  obtain ⟨size, tail, rfl⟩ := List.exists_cons_of_ne_nil hpos
  intro hdecode
  have hbytes : frame code SOCKS5_ATYP_DOMAIN ++ size :: tail ++ [0] ++ encodePort port =
      5 :: code :: 0 :: 3 :: size :: (tail ++ [0] ++ encodePort port) := by
    simp only [frame, List.cons_append, List.nil_append, List.append_assoc]
    rfl
  obtain ⟨high, low, haddress⟩ := Message.of_decode (hbytes ▸ hdecode)
  obtain ⟨hrest, hsize⟩ := Address.of_decode_domain haddress
  -- the name would have to be its own tail and the NUL
  obtain ⟨hsame, -⟩ := List.append_inj' hrest rfl
  have hzero := eq_of_cons_eq_concat hsame.symm
  rw [hzero, List.length_cons] at hsize
  cases hsize

theorem request_iff {name : Name} {port : UInt16} (hpos : name.name ≠ []) (hport : port ≠ 0)
    (hservice : IsNumber name.service port.toNat) :
    RequestFollows name port ↔ ∃ octets, DottedQuad name.name octets := by
  have hparse : parsePortNumber name.service = some (encodePort port) :=
    (parsePortNumber_iff _ _).mpr ⟨port, hport, hservice, rfl⟩
  constructor
  · rintro ⟨request, a, hsend, hdenotes, hdecode⟩
    rcases hdenotes with ⟨octets, -, hquad, -⟩ | ⟨hnone, h, rfl⟩
    · exact ⟨octets, hquad⟩
    · have haddress : parseIPv4Address name.name = none := by
        cases hip : parseIPv4Address name.name with
        | none => rfl
        | some octets => exact absurd ⟨octets, (parseIPv4Address_iff _ _).mp hip⟩ hnone
      rw [sendConnectRequest5, buildRequest5, hparse] at hsend
      simp only [haddress, Except.ok.injEq] at hsend
      exact absurd (hsend ▸ hdecode) (decode_host_ne hpos _ _)
  · rintro ⟨octets, hquad⟩
    have hlength : octets.length = 4 := by
      obtain ⟨-, -, -, -, a, b, c, d, -, -, -, -, -, rfl⟩ := hquad
      rfl
    have haddress := (parseIPv4Address_iff _ _).mpr hquad
    have hencode := Message.decode_append ⟨SOCKS5_OP_CONNECT, .ipv4 octets hlength, port⟩ []
    refine ⟨_, .ipv4 octets hlength, ?_, .inl ⟨octets, hlength, hquad, rfl⟩, (List.append_nil _).symm ▸ hencode⟩
    rw [sendConnectRequest5, buildRequest5, hparse]
    simp only [haddress]
    rfl

theorem receiveDomain_eq_ok (socketName input rest : Bytes) :
    receiveDomain socketName input = .ok rest ↔ ∃ text, 0 ∉ text ∧ input = text ++ 0 :: rest := by
  induction input with
  | nil =>
    refine iff_of_false (fun h => by cases h) ?_
    rintro ⟨text, -, h⟩
    exact List.append_ne_nil_of_right_ne_nil text (List.cons_ne_nil 0 rest) h.symm
  | cons byte input ih =>
    rw [receiveDomain]
    by_cases hbyte : byte = 0
    · subst hbyte
      rw [if_neg (not_not.mpr rfl), Except.ok.injEq]
      constructor
      · rintro rfl
        exact ⟨[], List.not_mem_nil, rfl⟩
      · rintro ⟨_ | ⟨c, text⟩, hmem, h⟩
        · exact (List.cons.inj h).2
        · exact absurd (List.mem_cons.mpr (.inl (List.cons.inj h).1)) hmem
    · rw [if_pos hbyte, ih]
      constructor
      · rintro ⟨text, hmem, rfl⟩
        exact ⟨byte :: text, fun h => (List.mem_cons.mp h).elim (fun h => hbyte h.symm) hmem, rfl⟩
      · rintro ⟨_ | ⟨c, text⟩, hmem, h⟩
        · exact absurd (List.cons.inj h).1 hbyte
        · exact ⟨text, fun h => hmem (List.mem_cons_of_mem c h), (List.cons.inj h).2⟩

theorem receiveConnectResponse5_frame (socketName : Bytes) (name : Name) (addressType : UInt8) (input data : Bytes) :
    receiveConnectResponse5 socketName name (5 :: 0 :: 0 :: addressType :: input) = .ok data ↔
      ∃ high low, receiveAddress socketName addressType input = .ok (high :: low :: data) := by
  have hframe : receiveConnectResponse5 socketName name (5 :: 0 :: 0 :: addressType :: input) =
      receiveAddress socketName addressType input >>= fun input =>
        fullReceive socketName 2 input >>= fun r => .ok r.2 := by
    have hlength : 4 ≤ (5 :: 0 :: 0 :: addressType :: input).length := by
      simp only [List.length_cons]
      omega
    rw [receiveConnectResponse5, fullReceive, if_pos hlength]
    rfl
  rw [hframe]
  cases receiveAddress socketName addressType input with
  | error e => exact iff_of_false (fun h => by cases h) fun ⟨_, _, h⟩ => by cases h
  | ok rest =>
    show (fullReceive socketName 2 rest >>= fun r => .ok r.2) = .ok data ↔ _
    rw [fullReceive]
    match rest with
    | [] => exact iff_of_false (fun h => by cases h) fun ⟨_, _, h⟩ => by cases h
    | [_] => exact iff_of_false (fun h => by cases h) fun ⟨_, _, h⟩ => by cases h
    | high :: low :: rest =>
      rw [if_pos (by simp only [List.length_cons]; omega)]
      show Except.ok rest = .ok data ↔ _
      rw [Except.ok.injEq]
      exact ⟨fun h => ⟨high, low, by rw [h]⟩, fun ⟨_, _, h⟩ => by cases h; rfl⟩

theorem receiveAddress_octets (socketName octets rest : Bytes) :
    (fullReceive socketName octets.length (octets ++ rest)).map Prod.snd = .ok rest := by
  rw [fullReceive, if_pos (by rw [List.length_append]; omega), List.drop_left]
  rfl

/-- The replies that the client gets to the end of. -/
def Framed : Address → Prop
  | .ipv4 _ _ | .ipv6 _ _ => True
  | .domain name _ => name = [] ∨ ∃ text, 0 ∉ text ∧ name = text ++ [0]

theorem reply_iff (socketName : Bytes) (name : Name) (a : Address) (port : UInt16) (data : Bytes) :
    receiveConnectResponse5 socketName name ((Message.mk 0 a port).encode ++ data) = .ok data ↔ Framed a := by
  obtain ⟨high, low, hport⟩ := exists_encodePort port
  cases a with
  | ipv4 octets h =>
    have hbytes : (Message.mk 0 (.ipv4 octets h) port).encode ++ data =
        5 :: 0 :: 0 :: 1 :: (octets ++ high :: low :: data) := by
      simp only [Message.encode, Address.encode, hport, List.cons_append, List.append_assoc, List.nil_append]
    have hreceive := receiveAddress_octets socketName octets (high :: low :: data)
    rw [h] at hreceive
    rw [hbytes, receiveConnectResponse5_frame]
    exact iff_of_true ⟨high, low, hreceive⟩ trivial
  | ipv6 octets h =>
    have hbytes : (Message.mk 0 (.ipv6 octets h) port).encode ++ data =
        5 :: 0 :: 0 :: 4 :: (octets ++ high :: low :: data) := by
      simp only [Message.encode, Address.encode, hport, List.cons_append, List.append_assoc, List.nil_append]
    have hreceive := receiveAddress_octets socketName octets (high :: low :: data)
    rw [h] at hreceive
    rw [hbytes, receiveConnectResponse5_frame]
    exact iff_of_true ⟨high, low, hreceive⟩ trivial
  | domain text h =>
    have hbytes : (Message.mk 0 (.domain text h) port).encode ++ data =
        5 :: 0 :: 0 :: 3 :: (UInt8.ofNat text.length :: text ++ high :: low :: data) := by
      simp only [Message.encode, Address.encode, hport, List.cons_append, List.append_assoc, List.nil_append]
    have hdomain : ∀ input, receiveAddress socketName 3 input = receiveDomain socketName input := fun _ => rfl
    have hsize : (UInt8.ofNat text.length).toNat = text.length := UInt8.toNat_ofNat_of_lt' h
    rw [hbytes, receiveConnectResponse5_frame]
    simp only [hdomain, receiveDomain_eq_ok]
    constructor
    · rintro ⟨high', low', upto, hmem, heq⟩
      have heq' : UInt8.ofNat text.length :: text ++ high :: low :: data = (upto ++ [0]) ++ high' :: low' :: data := by
        rw [heq, List.append_assoc]
        rfl
      obtain ⟨hsame, -⟩ := List.append_inj' heq' rfl
      cases upto with
      | nil => exact .inl (List.cons.inj hsame).2
      | cons c upto => exact .inr ⟨upto, fun hzero => hmem (List.mem_cons_of_mem c hzero), (List.cons.inj hsame).2⟩
    · rintro (rfl | ⟨upto, hmem, rfl⟩)
      · exact ⟨high, low, [], List.not_mem_nil, rfl⟩
      · refine ⟨high, low, UInt8.ofNat (upto ++ [0]).length :: upto, fun hzero => ?_, ?_⟩
        · rcases List.mem_cons.mp hzero with hzero | hzero
          · rw [← hzero, List.length_append] at hsize
            cases hsize
          · exact hmem hzero
        · simp only [List.cons_append, List.append_assoc, List.nil_append]

/-- **The messages of RFC 1928**, in both directions: a request means its host and its port exactly for dotted quads,
and a reply is read to its end exactly if it has an IP address, no name, or a name whose only NUL is its last byte. -/
theorem followsRfc1928_iff (name : Name) (port : UInt16) :
    (name.name ≠ [] → name.name.length < 256 → port ≠ 0 → IsNumber name.service port.toNat →
      (RequestFollows name port ↔ ∃ octets, DottedQuad name.name octets)) ∧
    ∀ (socketName : Bytes) (a : Address) (data : Bytes),
      receiveConnectResponse5 socketName name ((Message.mk 0 a port).encode ++ data) = .ok data ↔ Framed a :=
  ⟨fun hpos _ hport hservice => request_iff hpos hport hservice, fun socketName a data => reply_iff socketName name a port data⟩

theorem isNumber_text (text : Bytes) (hnonempty : text ≠ []) (hdigits : text.all charIsDigit = true) :
    IsNumber text (digitsValue text) :=
  ⟨hnonempty, fun c hc => List.all_eq_true.mp hdigits c hc, rfl⟩

theorem followsRfc1928_iff_localhost : RequestFollows ⟨lit "127.0.0.1", lit "80"⟩ 80 :=
  ((followsRfc1928_iff ⟨lit "127.0.0.1", lit "80"⟩ 80).1 (by decide) (by decide) (by decide)
    (isNumber_text (lit "80") (by decide) (by decide))).mpr
    ⟨[127, 0, 0, 1], lit "127", lit "0", lit "0", lit "1", 127, 0, 0, 1,
      isNumber_text (lit "127") (by decide) (by decide),
      isNumber_text (lit "0") (by decide) (by decide),
      isNumber_text (lit "0") (by decide) (by decide),
      isNumber_text (lit "1") (by decide) (by decide), rfl, rfl⟩

/-- The request for `a` has no length byte, and a reply with the name `a` is read up to the NUL in its port: it takes
the first byte of the application data with it. -/
theorem not_followsRfc1928_domain :
    sendConnectRequest5 ⟨lit "a", lit "80"⟩ = .ok [5, 1, 0, 3, 97, 0, 0, 80] ∧
      ¬RequestFollows ⟨lit "a", lit "80"⟩ 80 ∧
      receiveConnectResponse5 [] ⟨lit "a", lit "80"⟩
        ((Message.mk 0 (.domain (lit "a") (by decide)) 80).encode ++ [1, 2]) = .ok [2] := by
  refine ⟨by rfl, fun hfollows => ?_, by rfl⟩
  obtain ⟨octets, hquad⟩ := (request_iff (by decide) (by decide)
    (isNumber_text (lit "80") (by decide) (by decide))).mp hfollows
  have hnone : parseIPv4Address (lit "a") = none := by decide
  cases hnone.symm.trans ((parseIPv4Address_iff _ _).mpr hquad)

end Afl.Net.Tunnel
