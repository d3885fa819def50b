import Afl.Base.Bytes
import Mathlib.Data.List.Induction

/-!
# Name maps

`afl/data/namequery.cpp` and `afl/data/namemap.cpp`: names and their indexes, found through hash buckets that are chained
by indexes. A `size_t` has 64 bits. An operation gives no state where the source reads outside a vector, or where a loop
does not end.
-/

namespace Afl.Data

/-! ### Queries -/

def hashMax : UInt64 := 64

def hash (name : Bytes) : UInt16 :=
  let size := name.length
  let limit := if size > 5 then 5 else size
  let h := (List.range limit).foldl (fun h i => h + (name.getD i 0).toUInt64 + (name.getD (size - i - 1) 0).toUInt64)
    (UInt64.ofNat size)
  (h % hashMax).toUInt16

theorem hash_lt (name : Bytes) : (hash name).toNat < 64 := by
  have hlt : ∀ h : UInt64, (h % hashMax).toUInt16.toNat < 64 := by
    intro h
    have hmod : (h % hashMax).toNat < 64 := by
      rw [UInt64.toNat_mod]
      exact Nat.mod_lt _ (by decide)
    rw [UInt64.toNat_toUInt16]
    omega
  exact hlt _

/-- `NameQuery`: a name and its hash code. -/
structure NameQuery where
  m_text : Bytes
  m_hashCode : Nat
  cached : m_hashCode = (hash m_text).toNat

namespace NameQuery

/-- `NameQuery(const String_t&)`. -/
def ofString (str : Bytes) : NameQuery := ⟨str, (hash str).toNat, rfl⟩

/-- `NameQuery(const char*)`: the string ends at the first null character. -/
def ofCString (str : Bytes) : NameQuery := ofString (str.takeWhile (· ≠ 0))

/-- `NameQuery(const NameQuery&, size_t)`. -/
def ofTail (other : NameQuery) (skip : Nat) : NameQuery := ofString (other.m_text.drop skip)

/-- `match(const String_t&)`. -/
def matchString (q : NameQuery) (str : Bytes) : Bool := q.m_text = str

/-- The ways to make a query for a name. -/
inductive Asks : NameQuery → Bytes → Prop
  | string (str : Bytes) : Asks (ofString str) str
  | cString (str : Bytes) : Asks (ofCString str) (str.takeWhile (· ≠ 0))
  | tail {other : NameQuery} {name : Bytes} (h : Asks other name) (skip : Nat) : Asks (ofTail other skip) (name.drop skip)

theorem Asks.text {q : NameQuery} {name : Bytes} (h : Asks q name) : q.m_text = name := by
  induction h with
  | string str => rfl
  | cString str => rfl
  | tail h skip ih => rw [ofTail, ofString, ih]

theorem hashCode_lt (q : NameQuery) : q.m_hashCode < 64 := by
  rw [q.cached]
  exact hash_lt q.m_text

end NameQuery

/-! ### Maps -/

abbrev Index := UInt64

def nil : Index := -1

structure NameMap where
  m_names : List Bytes
  m_hashFirst : List Index
  m_hashNext : List Index

namespace NameMap

def new : NameMap := ⟨[], List.replicate 64 nil, []⟩

/-- `while (i != nil && !name.match(m_names[i]))`. -/
def findLoop (m : NameMap) (name : NameQuery) : Nat → Index → Option Index
  | 0, _ => none
  | fuel + 1, i =>
    if i = nil then some i
    else do
      let str ← m.m_names[i.toNat]?
      if name.matchString str then pure i
      else
        let next ← m.m_hashNext[i.toNat]?
        findLoop m name fuel next

def getIndexByName (m : NameMap) (name : NameQuery) : Option Index := do
  let i ← m.m_hashFirst[name.m_hashCode]?
  findLoop m name (m.m_names.length + 1) i

def add (m : NameMap) (name : Bytes) : Option (Index × NameMap) := do
  let h := (NameQuery.ofString name).m_hashCode
  let slot := UInt64.ofNat m.m_names.length
  let first ← m.m_hashFirst[h]?
  pure (slot, ⟨m.m_names ++ [name], m.m_hashFirst.set h slot, m.m_hashNext ++ [first]⟩)

def addMaybe (m : NameMap) (name : Bytes) : Option (Index × NameMap) := do
  let i ← m.getIndexByName (.ofString name)
  if i = nil then m.add name else pure (i, m)

/-! ### Lookup -/

/-- `i` is the index of the last occurrence of a name, or `nil` if there is none. -/
inductive Finds (names : List Bytes) (name : Bytes) : Index → Prop
  | missing (h : name ∉ names) : Finds names name nil
  | found {i : Index} (hne : i ≠ nil) (h : names[i.toNat]? = some name)
      (hlast : ∀ j, i.toNat < j → names[j]? ≠ some name) : Finds names name i

/-- The invariant: the last occurrence of every name is found. -/
structure Ok (m : NameMap) : Prop where
  buckets : m.m_hashFirst.length = 64
  next : m.m_hashNext.length = m.m_names.length
  finds : ∀ q, ∃ i, m.getIndexByName q = some i ∧ Finds m.m_names q.m_text i

variable {m m' : NameMap}

theorem findLoop_mono {names : List Bytes} {next : List Index} (hnames : m'.m_names = m.m_names ++ names)
    (hnext : m'.m_hashNext = m.m_hashNext ++ next) {q : NameQuery} {fuel fuel' : Nat} (hfuel : fuel ≤ fuel')
    {i r : Index} (h : m.findLoop q fuel i = some r) : m'.findLoop q fuel' i = some r := by
  have hgrown : ∀ {β : Type} {l rest : List β} {k : Nat} {x : β}, l[k]? = some x → (l ++ rest)[k]? = some x := by
    intro β l rest k x hx
    rw [List.getElem?_append_left (List.getElem?_eq_some_iff.1 hx).1, hx]
  induction fuel generalizing fuel' i with
  | zero => cases h
  | succ fuel ih =>
    obtain ⟨fuel', rfl⟩ := Nat.exists_eq_succ_of_ne_zero (Nat.ne_zero_of_lt hfuel)
    rw [findLoop] at h ⊢
    by_cases hnil : i = nil
    · rw [if_pos hnil] at h ⊢
      exact h
    · rw [if_neg hnil] at h ⊢
      obtain ⟨str, hstr, h⟩ := Option.bind_eq_some_iff.1 h
      rw [hnames, hgrown hstr, Option.bind_eq_bind, Option.bind_some]
      by_cases hmatch : q.matchString str = true
      · rw [if_pos hmatch] at h ⊢
        exact h
      · rw [if_neg hmatch] at h ⊢
        obtain ⟨k, hk, h⟩ := Option.bind_eq_some_iff.1 h
        rw [hnext, hgrown hk, Option.bind_eq_bind, Option.bind_some]
        exact ih (Nat.le_of_succ_le_succ hfuel) h

theorem slot_of_lt {n : Nat} (h : n + 1 < 2 ^ 64) : (UInt64.ofNat n).toNat = n ∧ UInt64.ofNat n ≠ nil := by
  have htoNat : (UInt64.ofNat n).toNat = n := by
    rw [UInt64.toNat_ofNat']
    omega
  refine ⟨htoNat, fun hnil => ?_⟩
  have hvalue : nil.toNat = 2 ^ 64 - 1 := by decide
  rw [hnil, hvalue] at htoNat
  omega

theorem Finds.append {names : List Bytes} {name other : Bytes} {i : Index} (h : Finds names name i) (hne : name ≠ other) :
    Finds (names ++ [other]) name i := by
  rcases h with hmissing | ⟨hnil, hfound, hlast⟩
  · refine .missing fun hmem => ?_
    rw [List.mem_append, List.mem_singleton] at hmem
    exact hmem.elim hmissing hne
  · have hlt := (List.getElem?_eq_some_iff.1 hfound).1
    refine .found hnil (by rw [List.getElem?_append_left hlt, hfound]) fun j hj hname => ?_
    by_cases hjlt : j < names.length
    · rw [List.getElem?_append_left hjlt] at hname
      exact hlast j hj hname
    · rw [List.getElem?_append_right (by omega)] at hname
      have hmem := List.mem_of_getElem? hname
      rw [List.mem_singleton] at hmem
      exact hne hmem

theorem finds_append_self {names : List Bytes} (name : Bytes) (hlt : names.length + 1 < 2 ^ 64) :
    Finds (names ++ [name]) name (UInt64.ofNat names.length) := by
  obtain ⟨htoNat, hne⟩ := slot_of_lt hlt
  refine .found hne (by rw [htoNat, List.getElem?_append_right le_rfl, Nat.sub_self]; rfl) fun j hj hname => ?_
  have hjlt := (List.getElem?_eq_some_iff.1 hname).1
  rw [List.length_append, List.length_singleton] at hjlt
  omega

theorem Ok.add (h : Ok m) (name : Bytes) (hlt : m.m_names.length + 1 < 2 ^ 64) :
    ∃ m', m.add name = some (UInt64.ofNat m.m_names.length, m') ∧ m'.m_names = m.m_names ++ [name] ∧ Ok m' := by
  obtain ⟨htoNat, hne⟩ := slot_of_lt hlt
  have hbucket : (NameQuery.ofString name).m_hashCode < m.m_hashFirst.length := by
    rw [h.buckets]
    exact (NameQuery.ofString name).hashCode_lt
  have hfirst := List.getElem?_eq_getElem hbucket
  generalize m.m_hashFirst[(NameQuery.ofString name).m_hashCode] = first at hfirst
  refine ⟨⟨m.m_names ++ [name], m.m_hashFirst.set (NameQuery.ofString name).m_hashCode (UInt64.ofNat m.m_names.length),
    m.m_hashNext ++ [first]⟩, ?_, rfl, ?_, ?_, fun q => ?_⟩
  · rw [NameMap.add, hfirst]
    rfl
  · rw [List.length_set, h.buckets]
  · rw [List.length_append, List.length_append, h.next]
    rfl
  · obtain ⟨r, hr, hfinds⟩ := h.finds q
    obtain ⟨i, hi, hloop⟩ := Option.bind_eq_some_iff.1 hr
    rw [getIndexByName]
    dsimp only
    rw [List.length_append, List.length_singleton]
    by_cases hcode : (NameQuery.ofString name).m_hashCode = q.m_hashCode
    · -- the new name is the first one of the chain
      rw [hcode] at hfirst hbucket ⊢
      rw [List.getElem?_set_self hbucket, Option.bind_eq_bind, Option.bind_some, findLoop, if_neg hne, htoNat,
        List.getElem?_append_right le_rfl, Nat.sub_self, List.getElem?_cons_zero, Option.bind_eq_bind, Option.bind_some]
      by_cases hmatch : q.m_text = name
      · refine ⟨_, if_pos (decide_eq_true hmatch), ?_⟩
        rw [hmatch]
        exact finds_append_self name hlt
      · refine ⟨r, ?_, hfinds.append hmatch⟩
        have hnext : (m.m_hashNext ++ [first])[m.m_names.length]? = some first := by
          rw [← h.next, List.getElem?_append_right le_rfl, Nat.sub_self]
          rfl
        have hmatch' : ¬q.matchString name = true := by
          rw [NameQuery.matchString, decide_eq_true_iff]
          exact hmatch
        cases hi.symm.trans hfirst
        rw [if_neg hmatch', hnext, Option.bind_eq_bind, Option.bind_some]
        exact findLoop_mono rfl rfl le_rfl hloop
    · have hmatch : q.m_text ≠ name := by
        intro heq
        rw [q.cached, heq] at hcode
        exact hcode rfl
      refine ⟨r, ?_, hfinds.append hmatch⟩
      rw [List.getElem?_set_ne hcode, hi, Option.bind_eq_bind, Option.bind_some]
      exact findLoop_mono rfl rfl (Nat.le_succ _) hloop

theorem ok_new : Ok new := by
  refine ⟨rfl, rfl, fun q => ⟨nil, ?_, .missing List.not_mem_nil⟩⟩
  have hfirst : new.m_hashFirst[q.m_hashCode]? = some nil := by
    rw [new, List.getElem?_replicate, if_pos q.hashCode_lt]
  rw [getIndexByName, hfirst]
  rfl

theorem Ok.addMaybe (h : Ok m) (name : Bytes)
    (hlt : (if name ∈ m.m_names then m.m_names else m.m_names ++ [name]).length < 2 ^ 64) :
    ∃ i m', m.addMaybe name = some (i, m') ∧ Ok m' ∧ Finds m'.m_names name i ∧
      m'.m_names = if name ∈ m.m_names then m.m_names else m.m_names ++ [name] := by
  obtain ⟨i, hi, hfinds⟩ := h.finds (.ofString name)
  rw [NameMap.addMaybe, hi, Option.bind_eq_bind, Option.bind_some]
  rcases hfinds with hmissing | ⟨hne, hfound, hlast⟩
  · rw [NameQuery.ofString] at hmissing
    rw [if_neg hmissing, List.length_append, List.length_singleton] at hlt
    obtain ⟨m', hm', hnames, hok⟩ := h.add name hlt
    refine ⟨UInt64.ofNat m.m_names.length, m', ?_, hok, ?_, ?_⟩
    · rw [if_pos rfl]
      exact hm'
    · rw [hnames]
      exact finds_append_self name hlt
    · rw [if_neg hmissing, hnames]
  · exact ⟨i, m, if_neg hne, h, .found hne hfound hlast, (if_pos (List.mem_of_getElem? hfound)).symm⟩

/-! ### Runs over several maps -/

/-- The operations on numbered maps. -/
inductive Op
  | add (i : Nat) (name : Bytes)
  | addMaybe (i : Nat) (name : Bytes)
  | swap (i j : Nat)

def exec (maps : Nat → NameMap) : Op → Option (Nat → NameMap)
  | .add i name => do
    let (_, m) ← (maps i).add name
    pure (Function.update maps i m)
  | .addMaybe i name => do
    let (_, m) ← (maps i).addMaybe name
    pure (Function.update maps i m)
  | .swap i j => some (maps ∘ Equiv.swap i j)

/-- The names that the operations add to each map. -/
def record (names : Nat → List Bytes) : Op → Nat → List Bytes
  | .add i name => Function.update names i (names i ++ [name])
  | .addMaybe i name => if name ∈ names i then names else Function.update names i (names i ++ [name])
  | .swap i j => names ∘ Equiv.swap i j

def Holds (maps : Nat → NameMap) (names : Nat → List Bytes) : Prop := ∀ i, Ok (maps i) ∧ (maps i).m_names = names i

/-- Fewer names than indexes. -/
def Fits (names : Nat → List Bytes) : Prop := ∀ i, (names i).length < 2 ^ 64

theorem fits_of_record {names : Nat → List Bytes} {op : Op} (h : Fits (record names op)) : Fits names := by
  have hupdate : ∀ {i : Nat} {name : Bytes}, Fits (Function.update names i (names i ++ [name])) → Fits names := by
    intro i name hfits j
    by_cases hj : j = i
    · have hlt := hfits i
      rw [Function.update_self, List.length_append] at hlt
      rw [hj]
      omega
    · have hlt := hfits j
      rwa [Function.update_of_ne hj] at hlt
  rcases op with ⟨i, name⟩ | ⟨i, name⟩ | ⟨i, j⟩
  · exact hupdate h
  · rw [record] at h
    split_ifs at h with hmem
    · exact h
    · exact hupdate h
  · intro k
    have hlt := h (Equiv.swap i j k)
    rwa [record, Function.comp_apply, Equiv.swap_apply_self] at hlt

theorem Holds.update {maps : Nat → NameMap} {names : Nat → List Bytes} (h : Holds maps names) (i : Nat) {m : NameMap}
    (hm : Ok m) : Holds (Function.update maps i m) (Function.update names i m.m_names) := by
  intro j
  by_cases hj : j = i
  · rw [hj, Function.update_self, Function.update_self]
    exact ⟨hm, rfl⟩
  · rw [Function.update_of_ne hj, Function.update_of_ne hj]
    exact h j

theorem Holds.exec {maps : Nat → NameMap} {names : Nat → List Bytes} (h : Holds maps names) {op : Op}
    (hfits : Fits (record names op)) : ∃ maps', exec maps op = some maps' ∧ Holds maps' (record names op) := by
  rcases op with ⟨i, name⟩ | ⟨i, name⟩ | ⟨i, j⟩
  · have hlt := hfits i
    rw [record, Function.update_self, List.length_append, List.length_singleton, ← (h i).2] at hlt
    obtain ⟨m, hm, hnames, hok⟩ := (h i).1.add name hlt
    refine ⟨_, by rw [NameMap.exec, hm]; rfl, ?_⟩
    have hupdate := h.update i hok
    rw [hnames, (h i).2] at hupdate
    exact hupdate
  · have hrecord : record names (.addMaybe i name) =
        Function.update names i (if name ∈ names i then names i else names i ++ [name]) := by
      rw [record]
      split_ifs
      · rw [Function.update_eq_self]
      · rfl
    have hlt := hfits i
    rw [hrecord, Function.update_self, ← (h i).2] at hlt
    obtain ⟨_, m, hm, hok, -, hnames⟩ := (h i).1.addMaybe name hlt
    refine ⟨_, by rw [NameMap.exec, hm]; rfl, ?_⟩
    have hupdate := h.update i hok
    rw [hnames, (h i).2] at hupdate
    rw [hrecord]
    exact hupdate
  · exact ⟨_, rfl, fun k => h (Equiv.swap i j k)⟩

theorem holds_run (ops : List Op) (hfits : Fits (ops.foldl record fun _ => [])) :
    ∃ maps, ops.foldlM exec (fun _ => new) = some maps ∧ Holds maps (ops.foldl record fun _ => []) := by
  induction ops using List.reverseRecOn with
  | nil => exact ⟨_, rfl, fun _ => ⟨ok_new, rfl⟩⟩
  | append_singleton ops op ih =>
    rw [List.foldl_append, List.foldl_cons, List.foldl_nil] at hfits ⊢
    obtain ⟨maps, hmaps, hholds⟩ := ih (fits_of_record hfits)
    obtain ⟨maps', hmaps', hholds'⟩ := hholds.exec hfits
    refine ⟨maps', ?_, hholds'⟩
    rw [List.foldlM_append, hmaps, Option.bind_eq_bind, Option.bind_some, List.foldlM_cons, hmaps']
    rfl

end NameMap

end Afl.Data
