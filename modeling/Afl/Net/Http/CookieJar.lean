import Afl.Io.Text.TextFile
import Afl.Lib.Ages
import Afl.Net.Http.Cookie
import Mathlib.Data.List.Induction
import Mathlib.Data.List.Nodup

/-!
# The cookie jar

`afl/net/http/cookiejar.cpp`. Each method locks the mutex for its whole run. The methods that need the current time have
it as a parameter.
-/

namespace Afl.Net.Http

open Ages Io Sys

structure CookieJar where
  cookies : List Cookie
  counter : UInt32

def Cookie.key (c : Cookie) : Bytes × Bytes × Bytes := (c.host, c.path, c.name)

theorem Cookie.matchCookie_iff {c other : Cookie} : c.matchCookie other = true ↔ c.key = other.key := by
  simp only [matchCookie, key, Bool.and_eq_true, decide_eq_true_eq, Prod.mk.injEq, and_assoc]

def Cookie.setSequenceNumber (c : Cookie) (sequenceNumber : UInt32) : Cookie :=
  { c with sequenceNumber := sequenceNumber }

@[simp] theorem Cookie.setSequenceNumber_key (c : Cookie) (n : UInt32) : (c.setSequenceNumber n).key = c.key := rfl

namespace CookieJar

def new : CookieJar := ⟨[], 0⟩

/-- The loop of `addCookie`: the first cookie that matches is updated. -/
def update (cookie : Cookie) : List Cookie → Option (List Cookie)
  | [] => none
  | c :: cookies =>
    if c.matchCookie cookie then some (cookie.setSequenceNumber c.sequenceNumber :: cookies)
    else (update cookie cookies).map (c :: ·)

def addCookie (jar : CookieJar) (cookie : Cookie) : CookieJar :=
  match update cookie jar.cookies with
  | some cookies => { jar with cookies := cookies }
  | none => ⟨jar.cookies ++ [cookie.setSequenceNumber (jar.counter + 1)], jar.counter + 1⟩

def removeCookie (jar : CookieJar) (cookie : Cookie) : CookieJar :=
  { jar with cookies := jar.cookies.eraseP fun c => c.matchCookie cookie }

def handleHeader (url : Url) (now : Time) (jar : CookieJar) (field : HeaderField) : CookieJar :=
  let cookie := Cookie.new url now field
  if cookie.matchUrl url then
    if cookie.isExpired now then jar.removeCookie cookie else jar.addCookie cookie
  else jar

def addCookies (jar : CookieJar) (requestUrl : Url) (now : Time) (cookies : HeaderTable) : CookieJar :=
  cookies.foldl (handleHeader requestUrl now) jar

/-- What `loadCookies` does with a line. -/
def handleLine (now : Time) (jar : CookieJar) (line : Bytes) : CookieJar :=
  match Cookie.parseFromString line with
  | some c => if c.isExpired now then jar else jar.addCookie c
  | none => jar

def loadCookies (jar : CookieJar) (now : Time) (content : Bytes) : CookieJar :=
  (TextFile.lines content).foldl (handleLine now) jar

def saveCookies (jar : CookieJar) : Bytes :=
  (jar.cookies.filter Cookie.persistent).flatMap fun c => TextFile.writeLine c.toString

def cookieCompare (a b : Cookie) : Bool :=
  if a.path.length = b.path.length then a.sequenceNumber < b.sequenceNumber else a.path.length > b.path.length

/-- The cookies that `enumerateCookies` reports. -/
def enumerated (jar : CookieJar) (requestUrl : Url) (now : Time) : List Cookie :=
  (jar.cookies.filter fun c => c.matchUrl requestUrl && !c.isExpired now).mergeSort fun a b => !cookieCompare b a

def enumerateCookies (jar : CookieJar) (requestUrl : Url) (now : Time) : HeaderTable :=
  (jar.enumerated requestUrl now).map fun c => ⟨c.name, c.value⟩

/-! ### Histories -/

def handle (jar : CookieJar) : Event Cookie → CookieJar
  | .add c => jar.addCookie c
  | .remove c => jar.removeCookie c

def run (jar : CookieJar) (es : List (Event Cookie)) : CookieJar := es.foldl handle jar

@[simp] theorem run_snoc (jar : CookieJar) (es : List (Event Cookie)) (e : Event Cookie) :
    jar.run (es ++ [e]) = (jar.run es).handle e := List.foldl_append

theorem run_append (jar : CookieJar) (es es' : List (Event Cookie)) : jar.run (es ++ es') = (jar.run es).run es' :=
  List.foldl_append

/-- Calls of the methods that change a jar. -/
inductive Call
  | addCookie (cookie : Cookie)
  | removeCookie (cookie : Cookie)
  | addCookies (requestUrl : Url) (now : Time) (cookies : HeaderTable)
  | loadCookies (now : Time) (content : Bytes)

def call (jar : CookieJar) : Call → CookieJar
  | .addCookie c => jar.addCookie c
  | .removeCookie c => jar.removeCookie c
  | .addCookies url now cookies => jar.addCookies url now cookies
  | .loadCookies now content => jar.loadCookies now content

/-- A call of `addCookies`. -/
structure Response where
  requestUrl : Url
  now : Time
  cookies : HeaderTable

def Response.call (r : Response) : Call := .addCookies r.requestUrl r.now r.cookies

def fieldEvents (url : Url) (now : Time) (field : HeaderField) : List (Event Cookie) :=
  if (Cookie.new url now field).matchUrl url then
    if (Cookie.new url now field).isExpired now then [.remove (Cookie.new url now field)]
    else [.add (Cookie.new url now field)]
  else []

def lineEvents (now : Time) (line : Bytes) : List (Event Cookie) :=
  match Cookie.parseFromString line with
  | some c => if c.isExpired now then [] else [.add c]
  | none => []

def Call.events : Call → List (Event Cookie)
  | .addCookie c => [.add c]
  | .removeCookie c => [.remove c]
  | .addCookies url now cookies => cookies.flatMap (fieldEvents url now)
  | .loadCookies now content => (TextFile.lines content).flatMap (lineEvents now)

theorem handleHeader_eq_run (url : Url) (now : Time) (jar : CookieJar) (field : HeaderField) :
    handleHeader url now jar field = jar.run (fieldEvents url now field) := by
  rw [handleHeader, fieldEvents]
  split_ifs <;> rfl

theorem handleLine_eq_run (now : Time) (jar : CookieJar) (line : Bytes) :
    handleLine now jar line = jar.run (lineEvents now line) := by
  rw [handleLine, lineEvents]
  cases Cookie.parseFromString line with
  | none => rfl
  | some c =>
    dsimp only
    split_ifs <;> rfl

theorem foldl_eq_run {α : Type} {f : CookieJar → α → CookieJar} {events : α → List (Event Cookie)}
    (h : ∀ jar x, f jar x = jar.run (events x)) (jar : CookieJar) (xs : List α) :
    xs.foldl f jar = jar.run (xs.flatMap events) := by
  induction xs generalizing jar with
  | nil => rfl
  | cons x xs ih => rw [List.foldl_cons, ih, h, List.flatMap_cons, run_append]

theorem call_eq_run (jar : CookieJar) (c : Call) : jar.call c = jar.run c.events := by
  cases c with
  | addCookie cookie => rfl
  | removeCookie cookie => rfl
  | addCookies url now cookies => exact foldl_eq_run (handleHeader_eq_run url now) jar cookies
  | loadCookies now content => exact foldl_eq_run (handleLine_eq_run now) jar _

theorem calls_eq_run (jar : CookieJar) (calls : List Call) : calls.foldl call jar = jar.run (calls.flatMap Call.events) :=
  foldl_eq_run call_eq_run jar calls

/-! ### Adding and removing -/

theorem update_eq_none {cookie : Cookie} {cookies : List Cookie} :
    update cookie cookies = none ↔ ∀ c ∈ cookies, c.key ≠ cookie.key := by
  induction cookies with
  | nil => exact ⟨fun _ => nofun, fun _ => rfl⟩
  | cons c cookies ih =>
    rw [update, List.forall_mem_cons, ← ih, ne_eq, ← Cookie.matchCookie_iff]
    by_cases hmatch : c.matchCookie cookie = true
    · rw [if_pos hmatch]
      exact ⟨nofun, fun h => absurd hmatch h.1⟩
    · rw [if_neg hmatch, Option.map_eq_none_iff]
      exact ⟨fun h => ⟨hmatch, h⟩, fun h => h.2⟩

theorem update_eq_some {cookie : Cookie} {cookies cookies' : List Cookie} (h : update cookie cookies = some cookies') :
    ∃ before c after, cookies = before ++ c :: after ∧ c.key = cookie.key ∧
      cookies' = before ++ cookie.setSequenceNumber c.sequenceNumber :: after := by
  induction cookies generalizing cookies' with
  | nil => cases h
  | cons c cookies ih =>
    rw [update] at h
    split_ifs at h with hmatch
    · cases h
      exact ⟨[], c, cookies, rfl, Cookie.matchCookie_iff.1 hmatch, rfl⟩
    · rw [Option.map_eq_some_iff] at h
      obtain ⟨rest, hrest, rfl⟩ := h
      obtain ⟨before, d, after, rfl, hkey, rfl⟩ := ih hrest
      exact ⟨c :: before, d, after, rfl, hkey, rfl⟩

theorem addCookie_cases (jar : CookieJar) (cookie : Cookie) :
    (∃ before c after, jar.cookies = before ++ c :: after ∧ c.key = cookie.key ∧
      jar.addCookie cookie =
        { jar with cookies := before ++ cookie.setSequenceNumber c.sequenceNumber :: after }) ∨
    (∀ c ∈ jar.cookies, c.key ≠ cookie.key) ∧
      jar.addCookie cookie =
        ⟨jar.cookies ++ [cookie.setSequenceNumber (jar.counter + 1)], jar.counter + 1⟩ := by
  rw [addCookie]
  cases hupdate : update cookie jar.cookies with
  | none => exact .inr ⟨update_eq_none.1 hupdate, rfl⟩
  | some cookies =>
    obtain ⟨before, c, after, hcookies, hkey, rfl⟩ := update_eq_some hupdate
    exact .inl ⟨before, c, after, hcookies, hkey, rfl⟩

theorem removeCookie_cases (jar : CookieJar) (cookie : Cookie) :
    (∃ before c after, jar.cookies = before ++ c :: after ∧ c.key = cookie.key ∧
      jar.removeCookie cookie = { jar with cookies := before ++ after }) ∨
    (∀ c ∈ jar.cookies, c.key ≠ cookie.key) ∧ jar.removeCookie cookie = jar := by
  rw [removeCookie]
  by_cases hfound : ∃ c ∈ jar.cookies, c.matchCookie cookie = true
  · obtain ⟨c, hmem, hmatch⟩ := hfound
    obtain ⟨d, before, after, -, hd, hcookies, herase⟩ := List.exists_of_eraseP (p := fun c => c.matchCookie cookie) hmem hmatch
    rw [herase]
    exact .inl ⟨before, d, after, hcookies, Cookie.matchCookie_iff.1 hd, rfl⟩
  · have hnone : ∀ c ∈ jar.cookies, ¬c.matchCookie cookie = true := fun c hmem hmatch => hfound ⟨c, hmem, hmatch⟩
    rw [List.eraseP_of_forall_not hnone]
    exact .inr ⟨fun c hmem hkey => hnone c hmem (Cookie.matchCookie_iff.2 hkey), rfl⟩

theorem mem_removeCookie {jar : CookieJar} (hnodup : (jar.cookies.map Cookie.key).Nodup) (cookie c : Cookie) :
    c ∈ (jar.removeCookie cookie).cookies ↔ c ∈ jar.cookies ∧ c.key ≠ cookie.key := by
  rcases removeCookie_cases jar cookie with ⟨before, d, after, hcookies, hkey, hremove⟩ | ⟨hnone, hremove⟩
  · rw [hcookies, List.map_append, List.map_cons, List.nodup_middle, List.nodup_cons, ← List.map_append, hkey] at hnodup
    rw [hremove, hcookies]
    constructor
    · intro hmem
      exact ⟨(List.Sublist.append_left (List.sublist_cons_self d after) before).mem hmem,
        fun heq => hnodup.1 (heq ▸ List.mem_map_of_mem hmem)⟩
    · rintro ⟨hmem, hne⟩
      rw [List.mem_append, List.mem_cons] at hmem
      rcases hmem with hmem | rfl | hmem
      · exact List.mem_append_left _ hmem
      · exact absurd hkey hne
      · exact List.mem_append_right _ hmem
  · rw [hremove]
    exact ⟨fun hmem => ⟨hmem, hnone c hmem⟩, And.left⟩

/-! ### The invariant -/

/-- How many cookies are added anew, and do not update another one. -/
def additions (jar : CookieJar) : List (Event Cookie) → Nat
  | [] => 0
  | .add c :: es =>
    (if ∀ d ∈ jar.cookies, d.key ≠ c.key then 1 else 0) + additions (jar.addCookie c) es
  | .remove c :: es => additions (jar.removeCookie c) es

/-- The keys of a history. -/
def keys (es : List (Event Cookie)) : List (Event (Bytes × Bytes × Bytes)) :=
  es.map fun
    | .add c => .add c.key
    | .remove c => .remove c.key

/-- The cookie has the number that it got when it was created at the event number `n`. -/
structure NumberedAt (es : List (Event Cookie)) (c : Cookie) (n : Nat) : Prop where
  created : CreatedAt (keys es) c.key n
  number : c.sequenceNumber = (new.run (es.take n)).counter + 1
  counter : (new.run (es.take (n + 1))).counter = (new.run (es.take n)).counter + 1

/-- What holds of a jar with a history. -/
structure Ordered (es : List (Event Cookie)) : Prop where
  nodup : ((new.run es).cookies.map Cookie.key).Nodup
  numbered : ∀ c ∈ (new.run es).cookies, ∃ n, NumberedAt es c n
  absent : ∀ k, (∀ c ∈ (new.run es).cookies, c.key ≠ k) → Absent (keys es) k

theorem keys_snoc (es : List (Event Cookie)) (e : Event Cookie) : keys (es ++ [e]) = keys es ++ keys [e] :=
  List.map_append

theorem length_keys (es : List (Event Cookie)) : (keys es).length = es.length := List.length_map _

variable {es : List (Event Cookie)}

theorem NumberedAt.lt {c : Cookie} {n : Nat} (h : NumberedAt es c n) : n < es.length := by
  have hlt := h.created.lt
  rwa [length_keys] at hlt

theorem NumberedAt.snoc {c c' : Cookie} {n : Nat} (h : NumberedAt es c n)
    (hkey : c'.key = c.key) (hnumber : c'.sequenceNumber = c.sequenceNumber) {e : Event Cookie}
    (he : keys [e] ≠ [.remove c.key]) : NumberedAt (es ++ [e]) c' n where
  created := by
    rw [hkey, keys_snoc]
    cases e with
    | add d => exact h.created.snoc nofun
    | remove d => exact h.created.snoc fun heq => he (congrArg (fun e => [e]) heq)
  number := by
    rw [List.take_append_of_le_length h.lt.le, hnumber]
    exact h.number
  counter := by
    rw [List.take_append_of_le_length h.lt.le, List.take_append_of_le_length h.lt]
    exact h.counter

theorem Ordered.nil : Ordered [] := ⟨List.nodup_nil, nofun, fun k _ => Absent.nil k⟩

theorem run_add (es : List (Event Cookie)) (cookie : Cookie) :
    new.run (es ++ [.add cookie]) = (new.run es).addCookie cookie := run_snoc new es (.add cookie)

theorem Ordered.kept (h : Ordered es) (cookie : Cookie) :
    ∀ d ∈ (new.run es).cookies, ∃ n, NumberedAt (es ++ [.add cookie]) d n := by
  intro d hd
  obtain ⟨n, hn⟩ := h.numbered d hd
  exact ⟨n, hn.snoc rfl rfl nofun⟩

theorem Ordered.absent_snoc (h : Ordered es) {cookie : Cookie} {k : Bytes × Bytes × Bytes}
    (hk : ∀ c ∈ (new.run es).cookies, c.key ≠ k) (hne : cookie.key ≠ k) :
    Absent (keys (es ++ [.add cookie])) k := by
  rw [keys_snoc]
  exact (h.absent k hk).snoc fun heq => hne (Event.add.inj heq)

theorem Ordered.update (h : Ordered es) {cookie c : Cookie} {before after : List Cookie}
    (hcookies : (new.run es).cookies = before ++ c :: after) (hkey : c.key = cookie.key)
    (hrun : (new.run (es ++ [.add cookie])).cookies = before ++ cookie.setSequenceNumber c.sequenceNumber :: after) :
    Ordered (es ++ [.add cookie]) := by
  have hkeys : (new.run (es ++ [.add cookie])).cookies.map Cookie.key = (new.run es).cookies.map Cookie.key := by
    rw [hrun, hcookies, List.map_append, List.map_append, List.map_cons, List.map_cons, hkey]
    rfl
  constructor
  · rw [hkeys]
    exact h.nodup
  · intro d hd
    rw [hrun, List.mem_append, List.mem_cons] at hd
    rcases hd with hd | rfl | hd
    · exact h.kept cookie d (by rw [hcookies]; exact List.mem_append_left _ hd)
    · obtain ⟨n, hn⟩ := h.numbered c (by rw [hcookies]; exact List.mem_append_right _ List.mem_cons_self)
      have hkept : keys [.add cookie] ≠ [.remove c.key] := nofun
      have hsame : (cookie.setSequenceNumber c.sequenceNumber).key = c.key := hkey.symm
      exact ⟨n, hn.snoc hsame rfl hkept⟩
    · exact h.kept cookie d (by rw [hcookies]; exact List.mem_append_right _ (List.mem_cons_of_mem _ hd))
  · intro k hk
    have hold : ∀ d ∈ (new.run es).cookies, d.key ≠ k := by
      rintro d hd rfl
      obtain ⟨d', hd', heq⟩ := List.mem_map.1 (hkeys ▸ List.mem_map_of_mem hd)
      exact hk d' hd' heq
    refine h.absent_snoc hold (hkey ▸ hold c ?_)
    rw [hcookies]
    exact List.mem_append_right _ List.mem_cons_self

theorem Ordered.create (h : Ordered es) {cookie : Cookie} (hnew : ∀ c ∈ (new.run es).cookies, c.key ≠ cookie.key)
    (hrun : new.run (es ++ [.add cookie]) =
      ⟨(new.run es).cookies ++ [cookie.setSequenceNumber ((new.run es).counter + 1)], (new.run es).counter + 1⟩) :
    Ordered (es ++ [.add cookie]) := by
  constructor
  · rw [hrun, List.map_append, List.nodup_append]
    refine ⟨h.nodup, List.nodup_singleton _, ?_⟩
    intro k hk k' hk'
    obtain ⟨c, hc, rfl⟩ := List.mem_map.1 hk
    rw [List.map_singleton, List.mem_singleton] at hk'
    rw [hk']
    exact hnew c hc
  · intro d hd
    rw [hrun, List.mem_append, List.mem_singleton] at hd
    rcases hd with hd | rfl
    · exact h.kept cookie d hd
    · refine ⟨es.length, ?_, ?_, ?_⟩
      · rw [keys_snoc, ← length_keys]
        exact (h.absent cookie.key hnew).created
      · rw [List.take_left]
        rfl
      · rw [List.take_left, List.take_of_length_le (by rw [List.length_append, List.length_singleton]), hrun]
  · intro k hk
    rw [hrun] at hk
    refine h.absent_snoc (fun c hc => hk c (List.mem_append_left _ hc)) ?_
    exact hk (cookie.setSequenceNumber ((new.run es).counter + 1))
      (List.mem_append_right _ (List.mem_singleton_self _))

theorem Ordered.add (h : Ordered es) (cookie : Cookie) : Ordered (es ++ [.add cookie]) := by
  rcases addCookie_cases (new.run es) cookie with ⟨before, c, after, hcookies, hkey, hadd⟩ | ⟨hnew, hadd⟩
  · exact h.update hcookies hkey (by rw [run_add, hadd])
  · exact h.create hnew (by rw [run_add, hadd])

theorem Ordered.remove (h : Ordered es) (cookie : Cookie) :
    Ordered (es ++ [.remove cookie]) := by
  have hrun : new.run (es ++ [.remove cookie]) = (new.run es).removeCookie cookie := run_snoc new es (.remove cookie)
  have hmem := mem_removeCookie h.nodup cookie
  constructor
  · have hsublist : ((new.run es).removeCookie cookie).cookies.Sublist (new.run es).cookies := List.eraseP_sublist
    rw [hrun]
    exact h.nodup.sublist (hsublist.map Cookie.key)
  · intro c hc
    rw [hrun, hmem] at hc
    obtain ⟨n, hn⟩ := h.numbered c hc.1
    refine ⟨n, hn.snoc rfl rfl fun heq => hc.2 ?_⟩
    exact (Event.remove.inj (List.cons.inj heq).1).symm
  · intro k hk
    rw [keys_snoc]
    by_cases hkey : k = cookie.key
    · rw [hkey]
      exact Absent.removed (keys es) cookie.key
    · refine (h.absent k fun c hc heq => hk c ?_ heq).snoc nofun
      rw [hrun, hmem, heq]
      exact ⟨hc, hkey⟩

theorem ordered (es : List (Event Cookie)) : Ordered es := by
  induction es using List.reverseRecOn with
  | nil => exact Ordered.nil
  | append_singleton es e ih =>
    cases e with
    | add c => exact ih.add c
    | remove c => exact ih.remove c

/-! ### The counter -/

theorem counter_run (jar : CookieJar) (es : List (Event Cookie)) :
    (jar.run es).counter = jar.counter + UInt32.ofNat (additions jar es) := by
  induction es generalizing jar with
  | nil => exact (UInt32.add_zero _).symm
  | cons e es ih =>
    have hrun : jar.run (e :: es) = (jar.handle e).run es := rfl
    rw [hrun, ih]
    cases e with
    | add c =>
      rw [additions, handle]
      rcases addCookie_cases jar c with ⟨before, d, after, hcookies, hkey, hadd⟩ | ⟨hnew, hadd⟩
      · have hold : ¬∀ d ∈ jar.cookies, d.key ≠ c.key := by
          intro h
          refine h d ?_ hkey
          rw [hcookies]
          exact List.mem_append_right _ List.mem_cons_self
        rw [if_neg hold, hadd, Nat.zero_add]
      · rw [if_pos hnew, hadd, UInt32.ofNat_add, UInt32.add_assoc]
        rfl
    | remove c =>
      rw [additions, handle]
      rfl

theorem additions_append (jar : CookieJar) (es es' : List (Event Cookie)) :
    additions jar (es ++ es') = additions jar es + additions (jar.run es) es' := by
  induction es generalizing jar with
  | nil => exact (Nat.zero_add _).symm
  | cons e es ih =>
    have hrun : jar.run (e :: es) = (jar.handle e).run es := rfl
    rw [hrun, List.cons_append]
    cases e with
    | add c =>
      rw [additions, additions, ih, Nat.add_assoc]
      rfl
    | remove c =>
      rw [additions, additions, ih]
      rfl

theorem toNat_counter (h : additions new es < 2 ^ 32) (n : Nat) :
    (new.run (es.take n)).counter.toNat = additions new (es.take n) := by
  have hsplit := additions_append new (es.take n) (es.drop n)
  rw [List.take_append_drop] at hsplit
  rw [counter_run, show new.counter = 0 from rfl, UInt32.zero_add, UInt32.toNat_ofNat']
  exact Nat.mod_eq_of_lt (by omega)

theorem additions_take_mono (es : List (Event Cookie)) {n m : Nat} (h : n ≤ m) :
    additions new (es.take n) ≤ additions new (es.take m) := by
  have hsplit := additions_append new (es.take n) ((es.take m).drop n)
  have htake : es.take n ++ (es.take m).drop n = es.take m := by
    have hmin : (es.take m).take n = es.take n := by rw [List.take_take, Nat.min_eq_left h]
    rw [← hmin, List.take_append_drop]
  rw [htake] at hsplit
  omega

theorem NumberedAt.lt_iff (hmany : additions new es < 2 ^ 32) {a b : Cookie} {n m : Nat}
    (ha : NumberedAt es a n) (hb : NumberedAt es b m) : n < m ↔ a.sequenceNumber < b.sequenceNumber := by
  have hnumber : ∀ {c : Cookie} {n : Nat}, NumberedAt es c n →
      c.sequenceNumber.toNat = additions new (es.take n) + 1 ∧
        c.sequenceNumber.toNat = additions new (es.take (n + 1)) := by
    intro c n hc
    have hcounter := congrArg UInt32.toNat hc.counter
    rw [toNat_counter hmany] at hcounter
    have hbefore : (new.run (es.take n)).counter.toNat = additions new (es.take n) := toNat_counter hmany n
    have hless := additions_take_mono es (Nat.le_add_right n 1)
    rw [hc.number]
    rw [UInt32.toNat_add, hbefore] at hcounter ⊢
    have hone : (1 : UInt32).toNat = 1 := rfl
    omega
  have ha' := hnumber ha
  have hb' := hnumber hb
  rw [UInt32.lt_iff_toNat_lt]
  constructor
  · intro hlt
    have hmono := additions_take_mono es (show n + 1 ≤ m from hlt)
    omega
  · intro hlt
    by_contra hge
    have hmono := additions_take_mono es (show m + 1 ≤ n + 1 by omega)
    omega

theorem keys_take (es : List (Event Cookie)) (n : Nat) : keys (es.take n) = (keys es).take n := List.map_take

theorem present_iff (es : List (Event Cookie)) (k : Bytes × Bytes × Bytes) :
    (∃ c ∈ (new.run es).cookies, c.key = k) ↔ ∃ n, CreatedAt (keys es) k n := by
  constructor
  · rintro ⟨c, hc, rfl⟩
    obtain ⟨n, hn⟩ := (ordered es).numbered c hc
    exact ⟨n, hn.created⟩
  · rintro ⟨n, hn⟩
    by_contra hnone
    exact hn.not_absent ((ordered es).absent k fun c hc hkey => hnone ⟨c, hc, hkey⟩)

theorem NumberedAt.kept {c : Cookie} {n : Nat} (h : NumberedAt es c n) :
    ∃ c₀ ∈ (new.run (es.take (n + 1))).cookies, c₀.key = c.key ∧ c₀.sequenceNumber = c.sequenceNumber := by
  have hcreated : CreatedAt (keys (es.take (n + 1))) c.key n := by
    rw [keys_take]
    exact h.created.take (Nat.lt_succ_self n)
  obtain ⟨c₀, hc₀, hkey⟩ := (present_iff _ _).2 ⟨n, hcreated⟩
  obtain ⟨m, hm⟩ := (ordered _).numbered c₀ hc₀
  have hmn : m = n := by
    have hcreated' := hm.created
    rw [hkey] at hcreated'
    exact hcreated'.unique hcreated
  have hnumber := hm.number
  rw [hmn, List.take_take, Nat.min_eq_left (Nat.le_succ n), ← h.number] at hnumber
  exact ⟨c₀, hc₀, hkey, hnumber⟩

/-! ### The order of a report -/

theorem not_cookieCompare {a b : Cookie} :
    (!cookieCompare b a) = true ↔
      b.path.length < a.path.length ∨
        a.path.length = b.path.length ∧ a.sequenceNumber.toNat ≤ b.sequenceNumber.toNat := by
  rw [cookieCompare, Bool.not_eq_true']
  split_ifs with hlength
  · rw [decide_eq_false_iff_not, UInt32.lt_iff_toNat_lt]
    omega
  · rw [decide_eq_false_iff_not]
    omega

theorem cookieCompare_trans (a b c : Cookie) (hab : !cookieCompare b a) (hbc : !cookieCompare c b) :
    !cookieCompare c a := by
  rw [not_cookieCompare] at *
  omega

theorem cookieCompare_total (a b : Cookie) : !cookieCompare b a || !cookieCompare a b := by
  rw [Bool.or_eq_true, not_cookieCompare, not_cookieCompare]
  omega

/-- Cookies with longer paths come first, and older ones among those with equal paths. -/
def Before (es : List (Event Cookie)) (a b : Cookie) : Prop :=
  b.path.length < a.path.length ∨
    a.path.length = b.path.length ∧
      ∃ n m, CreatedAt (keys es) a.key n ∧ CreatedAt (keys es) b.key m ∧ n < m

/-- What a jar with a history holds and reports. -/
structure Kept (es : List (Event Cookie)) (jar : CookieJar) : Prop where
  keys : (jar.cookies.map Cookie.key).Nodup
  numbers : (jar.cookies.map Cookie.sequenceNumber).Nodup
  present : ∀ k, (∃ c ∈ jar.cookies, c.key = k) ↔ ∃ n, CreatedAt (CookieJar.keys es) k n
  number : ∀ c ∈ jar.cookies, ∃ n, CreatedAt (CookieJar.keys es) c.key n ∧
    ∃ c₀ ∈ (new.run (es.take (n + 1))).cookies, c₀.key = c.key ∧ c₀.sequenceNumber = c.sequenceNumber
  reported : ∀ url now, ∃ reported : List Cookie,
    jar.enumerateCookies url now = reported.map (fun c => ⟨c.name, c.value⟩) ∧
      (∀ c, c ∈ reported ↔ c ∈ jar.cookies ∧ c.matchUrl url = true ∧ c.isExpired now = false) ∧
      reported.Nodup ∧ reported.Pairwise (Before es)

theorem numbers_nodup (hmany : additions new es < 2 ^ 32) :
    ((new.run es).cookies.map Cookie.sequenceNumber).Nodup := by
  have hnodup := (ordered es).nodup
  rw [List.Nodup, List.pairwise_map] at hnodup ⊢
  refine hnodup.imp_of_mem fun {a b} ha hb hne heq => ?_
  obtain ⟨n, hn⟩ := (ordered es).numbered a ha
  obtain ⟨m, hm⟩ := (ordered es).numbered b hb
  have hnm := hn.lt_iff hmany hm
  have hmn := hm.lt_iff hmany hn
  rw [heq] at hnm hmn
  have hsame : n = m := by
    have hirrefl := UInt32.lt_irrefl b.sequenceNumber
    have h1 : ¬n < m := fun h => hirrefl (hnm.1 h)
    have h2 : ¬m < n := fun h => hirrefl (hmn.1 h)
    omega
  have hkey : CreatedAt (keys es) b.key n := hsame ▸ hm.created
  have hadd := hn.created.added.symm.trans hkey.added
  exact hne (Event.add.inj (Option.some.inj hadd))

theorem enumerated_spec (hmany : additions new es < 2 ^ 32) (url : Url) (now : Time) :
    (∀ c, c ∈ (new.run es).enumerated url now ↔
      c ∈ (new.run es).cookies ∧ c.matchUrl url = true ∧ c.isExpired now = false) ∧
    ((new.run es).enumerated url now).Nodup ∧ ((new.run es).enumerated url now).Pairwise (Before es) := by
  have hmem : ∀ c, c ∈ (new.run es).enumerated url now ↔
      c ∈ (new.run es).cookies ∧ c.matchUrl url = true ∧ c.isExpired now = false := by
    intro c
    rw [enumerated, List.mem_mergeSort, List.mem_filter, Bool.and_eq_true, Bool.not_eq_true']
  have hnodup : (((new.run es).enumerated url now).map Cookie.sequenceNumber).Nodup := by
    have hfilter := (List.filter_sublist (l := (new.run es).cookies)
      (p := fun c => c.matchUrl url && !c.isExpired now)).map Cookie.sequenceNumber
    have hperm := (List.mergeSort_perm ((new.run es).cookies.filter fun c => c.matchUrl url && !c.isExpired now)
      fun a b => !cookieCompare b a).map Cookie.sequenceNumber
    exact hperm.nodup_iff.2 ((numbers_nodup hmany).sublist hfilter)
  refine ⟨hmem, List.Nodup.of_map _ hnodup, ?_⟩
  have hsorted : ((new.run es).enumerated url now).Pairwise fun a b => !cookieCompare b a :=
    List.pairwise_mergeSort cookieCompare_trans cookieCompare_total _
  have hdistinct : ((new.run es).enumerated url now).Pairwise fun a b => a.sequenceNumber ≠ b.sequenceNumber := by
    rwa [List.Nodup, List.pairwise_map] at hnodup
  refine (hsorted.and hdistinct).imp_of_mem fun {a b} ha hb hab => ?_
  rcases not_cookieCompare.1 hab.1 with hlonger | ⟨hsame, hle⟩
  · exact .inl hlonger
  · obtain ⟨n, hn⟩ := (ordered es).numbered a ((hmem a).1 ha).1
    obtain ⟨m, hm⟩ := (ordered es).numbered b ((hmem b).1 hb).1
    have hlt : a.sequenceNumber < b.sequenceNumber :=
      UInt32.lt_of_le_of_ne (UInt32.le_iff_toNat_le.2 hle) hab.2
    exact .inr ⟨hsame, n, m, hn.created, hm.created, (hn.lt_iff hmany hm).2 hlt⟩

/-- After any calls, there is at most one cookie for a key, which has the number it got when it was created, and reports
are complete and in order. -/
theorem cookieJar_kept (calls : List Call) (hmany : additions new (calls.flatMap Call.events) < 2 ^ 32) :
    Kept (calls.flatMap Call.events) (calls.foldl call new) := by
  rw [calls_eq_run]
  refine ⟨(ordered _).nodup, numbers_nodup hmany, present_iff _, fun c hc => ?_, fun url now => ?_⟩
  · obtain ⟨n, hn⟩ := (ordered _).numbered c hc
    exact ⟨n, hn.created, hn.kept⟩
  · exact ⟨_, rfl, enumerated_spec hmany url now⟩

def sample (path value : Bytes) : Cookie := ⟨0, lit "a.org", false, path, false, 0, lit "id", value, false⟩

theorem cookieJar_kept_update :
    Kept [.add (sample (lit "/") (lit "1")), .add (sample (lit "/x") (lit "2")), .add (sample (lit "/") (lit "3"))]
      ⟨[⟨1, lit "a.org", false, lit "/", false, 0, lit "id", lit "3", false⟩,
        ⟨2, lit "a.org", false, lit "/x", false, 0, lit "id", lit "2", false⟩], 2⟩ :=
  cookieJar_kept [.addCookie (sample (lit "/") (lit "1")), .addCookie (sample (lit "/x") (lit "2")),
    .addCookie (sample (lit "/") (lit "3"))] (by decide)

end CookieJar

end Afl.Net.Http
