import Afl.Net.Redis.Rewrites

/-!
# Commands that move something

`RPOPLPUSH` moves an element from one list to another, `SMOVE` from one set to another, `RENAME` and `RENAMENX` move a
value from one name to another. Source and destination may be the same, and a source that becomes empty disappears.
The database contains what it contained before; only a value that was overwritten is gone, and an element that two sets
had is left once.
-/

namespace Afl.Net.Redis

open Exec

/-! ### Contents -/

def Key.elements : Key → Multiset Bytes
  | .string s => {s}
  | .hash m_hash => m_hash.entries.map Sigma.snd
  | .list l => l
  | .set m_set => m_set.val

def held (d : Data) (name : Bytes) : Multiset Bytes := d.part (fun _ => Key.elements) name

def contents (d : Data) : Multiset Bytes := d.total fun _ => Key.elements

/-- The list under a name, empty if there is none. -/
def listAt (d : Data) (name : Bytes) : List Bytes :=
  match d.lookup name with
  | some (.list l) => l
  | _ => []

/-- The set under a name, empty if there is none. -/
def setAt (d : Data) (name : Bytes) : Finset Bytes :=
  match d.lookup name with
  | some (.set m_set) => m_set
  | _ => ∅

/-- Only two names are concerned. -/
def Frame (key dest : Bytes) (d d' : Data) : Prop := ∀ name, name ≠ key → name ≠ dest → d'.lookup name = d.lookup name

variable {d : Data} {name : Bytes}

theorem held_of_lookup {k : Key} (h : d.lookup name = some k) : held d name = k.elements := by
  rw [held, Finmap.part, h]

theorem held_of_missing (h : d.lookup name = none) : held d name = 0 := by
  rw [held, Finmap.part, h]

/-! ### Moves -/

/-- A command that moves something, with its arguments. -/
inductive Move
  | rpoplpush (key other : Bytes)
  | smove (key dest value : Bytes)
  | rename (key newKey : Bytes)
  | renamenx (key newKey : Bytes)

/-- A value has another name. -/
structure Renamed (key newKey : Bytes) (k : Key) (d d' : Data) : Prop where
  frame : Frame key newKey d d'
  moved : d'.lookup newKey = some k
  gone : key ≠ newKey → d'.lookup key = none
  conserved : contents d' + (if key = newKey then 0 else held d newKey) = contents d

namespace Move

def verb : Move → Verb
  | rpoplpush _ _ => .rpoplpush
  | smove _ _ _ => .smove
  | rename _ _ => .rename
  | renamenx _ _ => .renamenx

def Reads : Move → Segment → Prop
  | rpoplpush key dest, v | rename key dest, v | renamenx key dest, v =>
    ∃ x y, v = [x, y] ∧ x.eatString [] = .ok key ∧ y.eatString [] = .ok dest
  | smove key dest value, v =>
    ∃ x y z, v = [x, y, z] ∧ x.eatString [] = .ok key ∧ y.eatString [] = .ok dest ∧ z.eatString [] = .ok value

/-- What a successful command answers and leaves. -/
def Moves : Move → Data → Value → Data → Prop
  | rpoplpush key other, d, a, d' =>
    (listAt d key = [] ∧ a = .null ∧ d' = d) ∨
      ∃ l x, listAt d key = l ++ [x] ∧ a = .string x ∧ Frame key other d d' ∧
        (key = other → d'.lookup key = some (.list (x :: l))) ∧
        (key ≠ other → d'.lookup other = some (.list (x :: listAt d other)) ∧
          d'.lookup key = if l = [] then none else some (.list l)) ∧
        contents d' = contents d
  | smove key dest value, d, a, d' =>
    (value ∉ setAt d key ∧ a = .integer 0 ∧ d' = d) ∨
      (value ∈ setAt d key ∧ a = .integer 1 ∧ Frame key dest d d' ∧
        (key = dest → d' = d) ∧
        (key ≠ dest → d'.lookup dest = some (.set (insert value (setAt d dest))) ∧
          d'.lookup key =
            if (setAt d key).erase value = ∅ then none else some (.set ((setAt d key).erase value))) ∧
        contents d' + (if key ≠ dest ∧ value ∈ setAt d dest then {value} else 0) = contents d)
  | rename key newKey, d, a, d' =>
    ∃ k, d.lookup key = some k ∧ a = .string (lit "OK") ∧ Renamed key newKey k d d'
  | renamenx key newKey, d, a, d' =>
    (d.lookup newKey ≠ none ∧ a = .integer 0 ∧ d' = d) ∨
      ∃ k, d.lookup key = some k ∧ d.lookup newKey = none ∧ a = .integer 1 ∧ Renamed key newKey k d d'

end Move

/-- A command succeeds with `P`, or it fails; its behaviour is defined. -/
def Succeeds (P : Value → Data → Prop) : Except Failure Value → Data → Prop
  | .ok a, d => P a d
  | .error (.thrown _), _ => True
  | .error .undefined, _ => False

/-! ### `RENAME` -/

theorem renamed {key newKey : Bytes} {k : Key} (h : d.lookup key = some k) :
    Renamed key newKey k d ((d.erase key).insert newKey k) := by
  by_cases hsame : key = newKey
  · subst hsame
    rw [Finmap.insert_erase_self, Finmap.insert_of_lookup h]
    exact ⟨fun _ _ _ => rfl, h, fun hne => absurd rfl hne, by rw [if_pos rfl, add_zero]⟩
  · have hnew : ((d.erase key).insert newKey k).lookup newKey = some k := Finmap.lookup_insert _
    have hold : ((d.erase key).insert newKey k).lookup key = none := by
      rw [Finmap.lookup_insert_of_ne _ hsame, Finmap.lookup_erase]
    have hframe : Frame key newKey d ((d.erase key).insert newKey k) := by
      intro name hkey hnewKey
      rw [Finmap.lookup_insert_of_ne _ hnewKey, Finmap.lookup_erase_ne hkey]
    refine ⟨hframe, hnew, fun _ => hold, ?_⟩
    rw [if_neg hsame, ← add_zero (contents d)]
    apply Finmap.total_of_agree_two _ hsame hframe
    change held _ key + held _ newKey + held d newKey = held d key + held d newKey + 0
    rw [held_of_missing hold, held_of_lookup hnew, held_of_lookup h, zero_add, add_zero]

theorem wp_execRename {x y : Value} {key newKey : Bytes} (hkey : x.eatString [] = .ok key)
    (hnewKey : y.eatString [] = .ok newKey) (d : Data) :
    wp (execRename [x, y]) d (Succeeds ((Move.rename key newKey).Moves d)) := by
  unfold wp
  cases h : d.lookup key with
  | none =>
    have hexec : exec (execRename [x, y]) d = (.error (.thrown (remoteError KEY_NOT_FOUND)), d) := by
      simp only [execRename, exec_checkArgumentCount_bind (show [x, y].length = 2 from rfl), exec_eatString_bind hkey,
        exec_eatString_bind hnewKey]
      rw [exec_bind_ok (exec_get d), h]
      rfl
    rw [hexec]
    trivial
  | some k =>
    have hexec : exec (execRename [x, y]) d = (.ok (.string (lit "OK")), (d.erase key).insert newKey k) := by
      simp only [execRename, exec_checkArgumentCount_bind (show [x, y].length = 2 from rfl), exec_eatString_bind hkey,
        exec_eatString_bind hnewKey]
      rw [exec_bind_ok (exec_get d), h]
      rfl
    rw [hexec]
    exact ⟨k, h, rfl, renamed h⟩

theorem wp_execRenamenx {x y : Value} {key newKey : Bytes} (hkey : x.eatString [] = .ok key)
    (hnewKey : y.eatString [] = .ok newKey) (d : Data) :
    wp (execRenamenx [x, y]) d (Succeeds ((Move.renamenx key newKey).Moves d)) := by
  have hexec : exec (execRenamenx [x, y]) d =
      match d.lookup key, d.lookup newKey with
      | none, _ => (.error (.thrown (remoteError KEY_NOT_FOUND)), d)
      | some k, none => (.ok (.integer 1), (d.erase key).insert newKey k)
      | some _, some _ => (.ok (.integer 0), d) := by
    simp only [execRenamenx, exec_checkArgumentCount_bind (show [x, y].length = 2 from rfl), exec_eatString_bind hkey,
      exec_eatString_bind hnewKey]
    rw [exec_bind_ok (exec_get d)]
    cases d.lookup key <;> cases d.lookup newKey <;> rfl
  unfold wp
  rw [hexec]
  cases h : d.lookup key with
  | none => trivial
  | some k =>
    cases hnew : d.lookup newKey with
    | none => exact .inr ⟨k, h, hnew, rfl, renamed h⟩
    | some k' => exact .inl ⟨by rw [hnew]; simp, rfl, rfl⟩

/-! ### Writing back -/

section

variable {d : Data} {name other : Bytes} {k : Key}

theorem elements_of_not_inhabited (h : ¬k.Inhabited) : k.elements = 0 := by
  cases k with
  | string s => exact absurd trivial h
  | hash m_hash =>
    rw [show m_hash = ∅ from not_not.mp h]
    rfl
  | list l =>
    rw [show l = [] from not_not.mp h]
    rfl
  | set m_set =>
    rw [show m_set = ∅ from not_not.mp h]
    rfl

theorem lookup_writeBack_self : (writeBack d name k).lookup name = if k.Inhabited then some k else none := by
  rw [writeBack]
  split_ifs
  · rw [Finmap.lookup_insert]
  · rw [Finmap.lookup_erase]

theorem lookup_writeBack_of_ne (hne : other ≠ name) : (writeBack d name k).lookup other = d.lookup other := by
  rw [writeBack]
  split_ifs
  · rw [Finmap.lookup_insert_of_ne _ hne]
  · rw [Finmap.lookup_erase_ne hne]

theorem held_writeBack_self : held (writeBack d name k) name = k.elements := by
  by_cases h : k.Inhabited
  · exact held_of_lookup (by rw [lookup_writeBack_self, if_pos h])
  · rw [elements_of_not_inhabited h]
    exact held_of_missing (by rw [lookup_writeBack_self, if_neg h])

end

theorem transferred {key dest : Bytes} (hne : key ≠ dest) (k k' : Key) :
    Frame key dest d (writeBack (d.insert dest k') key k) ∧
      (writeBack (d.insert dest k') key k).lookup dest = some k' ∧
      (writeBack (d.insert dest k') key k).lookup key = (if k.Inhabited then some k else none) ∧
      ∀ u, k.elements + k'.elements + u = held d key + held d dest →
        contents (writeBack (d.insert dest k') key k) + u = contents d := by
  have hto : (writeBack (d.insert dest k') key k).lookup dest = some k' := by
    rw [lookup_writeBack_of_ne hne.symm, Finmap.lookup_insert]
  have hframe : Frame key dest d (writeBack (d.insert dest k') key k) := by
    intro name hkey hdest
    rw [lookup_writeBack_of_ne hkey, Finmap.lookup_insert_of_ne _ hdest]
  refine ⟨hframe, hto, lookup_writeBack_self, fun u hu => ?_⟩
  rw [← add_zero (contents d)]
  apply Finmap.total_of_agree_two _ hne hframe
  change held _ key + held _ dest + u = held d key + held d dest + 0
  rw [held_writeBack_self, held_of_lookup hto, hu, add_zero]

/-! ### `RPOPLPUSH` -/

theorem listAt_of_lookup {l : List Bytes} (h : d.lookup name = some (.list l)) :
    listAt d name = l := by
  rw [listAt, h]

theorem held_listAt (h : d.lookup name = some (.list (listAt d name)) ∨ d.lookup name = none) :
    held d name = listAt d name := by
  obtain h | h := h
  · exact held_of_lookup h
  · rw [held_of_missing h, listAt, h]
    rfl

theorem moves_rpoplpush {key other : Bytes} {l : List Bytes} {x : Bytes} (hl : d.lookup key = some (.list (l ++ [x])))
    (hother : d.lookup other = some (.list (listAt d other)) ∨ d.lookup other = none) (hne : key ≠ other) :
    (Move.rpoplpush key other).Moves d (.string x)
      (writeBack (d.insert other (.list (x :: listAt d other))) key (.list l)) := by
  obtain ⟨hframe, hto, hfrom, hcontents⟩ := transferred (d := d) hne (.list l) (.list (x :: listAt d other))
  have helements : Key.elements (.list l) + Key.elements (.list (x :: listAt d other)) + 0 =
      held d key + held d other := by
    rw [held_of_lookup hl, held_listAt hother, add_zero]
    exact Multiset.coe_eq_coe.mpr (by grind)
  refine .inr ⟨l, x, listAt_of_lookup hl, rfl, hframe, fun h => absurd h hne, fun _ => ⟨hto, ?_⟩, ?_⟩
  · exact hfrom.trans (by by_cases hempty : l = [] <;> simp [hempty, Key.Inhabited])
  · rw [← hcontents 0 helements, add_zero]

theorem moves_rpoplpush_self {key : Bytes} {l : List Bytes} {x : Bytes} (hl : d.lookup key = some (.list (l ++ [x]))) :
    (Move.rpoplpush key key).Moves d (.string x) (writeBack d key (.list (x :: l))) := by
  have hto : (writeBack d key (.list (x :: l))).lookup key = some (.list (x :: l)) := by
    rw [lookup_writeBack_self, if_pos (show Key.Inhabited (.list (x :: l)) from List.cons_ne_nil _ _)]
  have hframe : Frame key key d (writeBack d key (.list (x :: l))) := fun name hkey _ => lookup_writeBack_of_ne hkey
  refine .inr ⟨l, x, listAt_of_lookup hl, rfl, hframe, fun _ => hto, fun hne => absurd rfl hne, ?_⟩
  have helements : (x :: l : Multiset Bytes) = ((l ++ [x] : List Bytes) : Multiset Bytes) :=
    Multiset.coe_eq_coe.mpr (List.perm_append_singleton x l).symm
  have hcontents : contents (writeBack d key (.list (x :: l))) + 0 = contents d + 0 := by
    apply Finmap.total_of_agree _ fun name hkey => lookup_writeBack_of_ne hkey
    change held _ key + 0 = held d key + 0
    rw [held_of_lookup hto, held_of_lookup hl]
    exact congrArg (· + 0) helements
  simpa using hcontents

section

variable {x y : Value} {key other : Bytes} {d : Data} {l : List Bytes} {result : Bytes}

theorem exec_execRpoplpush (hkey : x.eatString [] = .ok key) (hother : y.eatString [] = .ok other) {t : List Bytes}
    (hlookup : d.lookup key = some (.list (l ++ [result])))
    (ht : d.lookup other = some (.list t) ∨ d.lookup other = none ∧ t = []) :
    ∃ lk, (key = other → lk = result :: t) ∧ (key ≠ other → lk = l ++ [result]) ∧
      exec (execRpoplpush [x, y]) d =
        (.ok (.string result), writeBack (d.insert other (.list (result :: t))) key (.list lk.dropLast)) := by
  have hcreate : exec (getCreate .list other) d = (.ok t, d.insert other (.list t)) := exec_getCreate ht
  obtain ⟨lk, hlk, hself, hne⟩ := exists_lookup_insert (T := .list) other (result :: t) hlookup
  refine ⟨lk, hself, hne, ?_⟩
  simp only [execRpoplpush, exec_checkArgumentCount_bind (show [x, y].length = 2 from rfl), exec_eatString_bind hkey,
    exec_eatString_bind hother, exec_get_bind .list hlookup, List.getLast?_concat, exec_bind_ok hcreate,
    exec_bind_ok (exec_store _ _ _ _), Finmap.insert_insert, list_toKey]
  rw [exec_get_bind .list (by simpa only [list_toKey] using hlk)]
  exact exec_bind_ok (exec_storeListOrErase _ _ _)

theorem exec_execRpoplpush_error (hkey : x.eatString [] = .ok key) (hother : y.eatString [] = .ok other) {k : Key}
    (hlookup : d.lookup key = some (.list (l ++ [result]))) (hk : d.lookup other = some k)
    (hcast : KeyClass.list.dynamicCast k = none) :
    exec (execRpoplpush [x, y]) d = (.error (.thrown (remoteError INVALID_TYPE)), d) := by
  simp only [execRpoplpush, exec_checkArgumentCount_bind (show [x, y].length = 2 from rfl), exec_eatString_bind hkey,
    exec_eatString_bind hother, exec_get_bind .list hlookup, List.getLast?_concat,
    exec_bind_error (exec_getCreate_error hk hcast)]

theorem wp_execRpoplpush (hkey : x.eatString [] = .ok key) (hother : y.eatString [] = .ok other) (d : Data) :
    wp (execRpoplpush [x, y]) d (Succeeds ((Move.rpoplpush key other).Moves d)) := by
  have hnothing : (listAt d key = [] ∧ exec (execRpoplpush [x, y]) d = (.ok .null, d)) →
      wp (execRpoplpush [x, y]) d (Succeeds ((Move.rpoplpush key other).Moves d)) := by
    rintro ⟨hempty, hexec⟩
    unfold wp
    rw [hexec]
    exact .inl ⟨hempty, rfl, rfl⟩
  have hmoved : ∀ {l result t}, d.lookup key = some (.list (l ++ [result])) →
      (d.lookup other = some (.list t) ∨ d.lookup other = none ∧ t = []) →
      wp (execRpoplpush [x, y]) d (Succeeds ((Move.rpoplpush key other).Moves d)) := by
    intro l result t hlookup ht
    have hat : listAt d other = t := by
      obtain h | ⟨h, rfl⟩ := ht
      · exact listAt_of_lookup h
      · rw [listAt, h]
    obtain ⟨lk, hself, hne, hexec⟩ := exec_execRpoplpush hkey hother hlookup ht
    unfold wp
    rw [hexec]
    by_cases hsame : key = other
    · subst hsame
      rw [listAt_of_lookup hlookup] at hat
      rw [hself rfl, writeBack_insert, ← hat, ← List.cons_append, List.dropLast_concat]
      exact moves_rpoplpush_self hlookup
    · rw [hne hsame, List.dropLast_concat, ← hat]
      refine moves_rpoplpush hlookup ?_ hsame
      rw [hat]
      exact ht.imp_right And.left
  cases hlookup : d.lookup key with
  | none =>
    refine hnothing ⟨by rw [listAt, hlookup], ?_⟩
    simp only [execRpoplpush, exec_checkArgumentCount_bind (show [x, y].length = 2 from rfl), exec_eatString_bind hkey,
      exec_eatString_bind hother, exec_get_bind_missing hlookup]
    rfl
  | some k =>
    cases k with
    | string _ | hash _ | set _ =>
      unfold wp
      simp only [execRpoplpush, exec_checkArgumentCount_bind (show [x, y].length = 2 from rfl),
        exec_eatString_bind hkey, exec_eatString_bind hother, exec_get_bind_other (T := .list) hlookup rfl]
      trivial
    | list m_list =>
      obtain rfl | ⟨l, result, rfl⟩ := m_list.eq_nil_or_concat
      · refine hnothing ⟨listAt_of_lookup hlookup, ?_⟩
        simp only [execRpoplpush, exec_checkArgumentCount_bind (show [x, y].length = 2 from rfl),
          exec_eatString_bind hkey, exec_eatString_bind hother, exec_get_bind .list hlookup]
        rfl
      · rw [List.concat_eq_append] at hlookup
        cases hto : d.lookup other with
        | none => exact hmoved hlookup (.inr ⟨hto, rfl⟩)
        | some k =>
          cases k with
          | list t => exact hmoved hlookup (.inl hto)
          | string _ | hash _ | set _ =>
            unfold wp
            rw [exec_execRpoplpush_error hkey hother hlookup hto rfl]
            trivial

end

/-! ### `SMOVE` -/

theorem setAt_of_lookup {m_set : Finset Bytes} (h : d.lookup name = some (.set m_set)) :
    setAt d name = m_set := by
  rw [setAt, h]

theorem elements_erase_insert {value : Bytes} {m_set t : Finset Bytes} (h : value ∈ m_set) :
    Key.elements (.set (m_set.erase value)) + Key.elements (.set (insert value t)) +
      (if value ∈ t then {value} else 0) = Key.elements (.set m_set) + t.val := by
  have herase : (m_set.erase value).val + {value} = m_set.val := by
    rw [Finset.erase_val, add_comm, Multiset.singleton_add, Multiset.cons_erase h]
  change (m_set.erase value).val + (insert value t).val + _ = m_set.val + t.val
  rw [← herase]
  split_ifs with ht
  · rw [Finset.insert_eq_of_mem ht, add_right_comm]
  · rw [Finset.insert_val_of_notMem ht, ← Multiset.singleton_add, add_zero, add_assoc]

section

variable {x y z : Value} {key dest value : Bytes} {d : Data} {m_set t : Finset Bytes}

theorem exec_moveElement (value : Bytes)
    (ht : (d.insert key (.set (m_set.erase value))).lookup dest = some (.set t) ∨
      (d.insert key (.set (m_set.erase value))).lookup dest = none ∧ t = ∅) :
    ∃ sk, (key = dest → sk = insert value t) ∧ (key ≠ dest → sk = m_set.erase value) ∧
      exec (moveElement key dest value m_set) d =
        (.ok (.integer 1),
          writeBack ((d.insert key (.set (m_set.erase value))).insert dest (.set (insert value t))) key (.set sk)) := by
  have hcreate : exec (getCreate .set dest) (d.insert key (.set (m_set.erase value))) =
      (.ok t, (d.insert key (.set (m_set.erase value))).insert dest (.set t)) := exec_getCreate ht
  obtain ⟨sk, hsk, hself, hne⟩ := exists_lookup_insert (T := .set) dest (insert value t)
    (Finmap.lookup_insert (a := key) (b := KeyClass.set.toKey (m_set.erase value)) d)
  refine ⟨sk, hself, hne, ?_⟩
  have htail := exec_eraseIf (p := sk = ∅) key (k := KeyClass.set.toKey sk)
    (d := (d.insert key (KeyClass.set.toKey (m_set.erase value))).insert dest (KeyClass.set.toKey (insert value t)))
    (by simp [Key.Inhabited])
  rw [Finmap.insert_of_lookup hsk] at htail
  simp only [set_toKey] at hsk htail
  rw [moveElement, exec_bind_ok (exec_store _ _ _ _), set_toKey, exec_bind_ok hcreate,
    exec_bind_ok (exec_store _ _ _ _), set_toKey, Finmap.insert_insert, exec_get_bind .set hsk]
  exact exec_bind_ok htail

theorem wp_moveElement (hlookup : d.lookup key = some (.set m_set)) (hmem : value ∈ m_set) :
    wp (moveElement key dest value m_set) d (Succeeds ((Move.smove key dest value).Moves d)) := by
  have hmem' : value ∈ setAt d key := by rwa [setAt_of_lookup hlookup]
  by_cases hsame : key = dest
  · subst hsame
    obtain ⟨sk, hself, -, hexec⟩ := exec_moveElement value
      (show (d.insert key (.set (m_set.erase value))).lookup key = some (.set (m_set.erase value)) ∨ _ from
        .inl (Finmap.lookup_insert d))
    have hunchanged : exec (moveElement key key value m_set) d = (.ok (.integer 1), d) := by
      rw [hexec, hself rfl, Finset.insert_erase hmem, Finmap.insert_insert, writeBack_insert, writeBack_set,
        if_neg (Finset.ne_empty_of_mem hmem), Finmap.insert_of_lookup hlookup]
    unfold wp
    rw [hunchanged]
    exact .inr ⟨hmem', rfl, fun _ _ _ => rfl, fun _ => rfl, fun hne => absurd rfl hne,
      by rw [if_neg (fun h => h.1 rfl), add_zero]⟩
  · have hdest : (d.insert key (.set (m_set.erase value))).lookup dest = d.lookup dest :=
      Finmap.lookup_insert_of_ne _ (Ne.symm hsame)
    have hmoved : ∀ {t}, d.lookup dest = some (.set t) ∨ d.lookup dest = none ∧ t = ∅ →
        wp (moveElement key dest value m_set) d (Succeeds ((Move.smove key dest value).Moves d)) := by
      intro t ht
      have hat : setAt d dest = t ∧ held d dest = t.val := by
        obtain h | ⟨h, rfl⟩ := ht
        · exact ⟨setAt_of_lookup h, held_of_lookup h⟩
        · exact ⟨by rw [setAt, h], held_of_missing h⟩
      obtain ⟨sk, -, hne, hexec⟩ := exec_moveElement value
        (show (d.insert key (.set (m_set.erase value))).lookup dest = some (.set t) ∨ _ by rwa [hdest])
      obtain ⟨hframe, hto, hfrom, hcontents⟩ := transferred (d := d) hsame (.set (m_set.erase value))
        (.set (insert value t))
      unfold wp
      rw [hexec, hne hsame, Finmap.insert_insert_of_ne _ hsame, writeBack_insert]
      refine .inr ⟨hmem', rfl, hframe, fun h => absurd h hsame, fun _ => ⟨?_, ?_⟩, ?_⟩
      · rw [hat.1, hto]
      · rw [setAt_of_lookup hlookup, hfrom]
        by_cases hempty : m_set.erase value = ∅ <;> simp [hempty, Key.Inhabited]
      · refine hcontents _ ?_
        have helements := elements_erase_insert (t := t) hmem
        rw [held_of_lookup hlookup, hat.1, hat.2]
        simpa [hsame] using helements
    cases hto : d.lookup dest with
    | none => exact hmoved (.inr ⟨hto, rfl⟩)
    | some k =>
      cases k with
      | set t => exact hmoved (.inl hto)
      | string _ | hash _ | list _ =>
        unfold wp
        rw [exec_moveElement_error value hlookup hto rfl]
        trivial

theorem wp_execSmove (hkey : x.eatString [] = .ok key) (hdest : y.eatString [] = .ok dest)
    (hvalue : z.eatString [] = .ok value) (d : Data) :
    wp (execSmove [x, y, z]) d (Succeeds ((Move.smove key dest value).Moves d)) := by
  have hnothing : value ∉ setAt d key ∧ exec (execSmove [x, y, z]) d = (.ok (.integer 0), d) →
      wp (execSmove [x, y, z]) d (Succeeds ((Move.smove key dest value).Moves d)) := by
    rintro ⟨hmem, hexec⟩
    unfold wp
    rw [hexec]
    exact .inl ⟨hmem, rfl, rfl⟩
  cases hlookup : d.lookup key with
  | none =>
    refine hnothing ⟨by simp only [setAt, hlookup]; exact Finset.notMem_empty _, ?_⟩
    simp only [execSmove, exec_checkArgumentCount_bind (show [x, y, z].length = 3 from rfl), exec_eatString_bind hkey,
      exec_eatString_bind hdest, exec_eatString_bind hvalue, exec_get_bind_missing hlookup]
    rfl
  | some k =>
    cases k with
    | string _ | hash _ | list _ =>
      unfold wp
      simp only [execSmove, exec_checkArgumentCount_bind (show [x, y, z].length = 3 from rfl),
        exec_eatString_bind hkey, exec_eatString_bind hdest, exec_eatString_bind hvalue,
        exec_get_bind_other (T := .set) hlookup rfl]
      trivial
    | set m_set =>
      have hexec : exec (execSmove [x, y, z]) d =
          exec (if value ∈ m_set then moveElement key dest value m_set else pure (.integer 0)) d := by
        simp only [execSmove, exec_checkArgumentCount_bind (show [x, y, z].length = 3 from rfl),
          exec_eatString_bind hkey, exec_eatString_bind hdest, exec_eatString_bind hvalue, exec_get_bind .set hlookup]
      by_cases hmem : value ∈ m_set
      · rw [if_pos hmem] at hexec
        have hmove : wp (moveElement key dest value m_set) d _ := wp_moveElement hlookup hmem
        unfold wp at hmove ⊢
        rwa [hexec]
      · rw [if_neg hmem] at hexec
        exact hnothing ⟨by rwa [setAt_of_lookup hlookup], hexec⟩

end

/-! ### All moves -/

/-- **Moving commands transfer exactly what they move.** Their behaviour is defined, also where source and destination
are the same. A successful one changes these two names only; what was moved is at the destination, a source that became
empty is gone, and a list or set that is moved to itself is rotated or unchanged. The database contains what it
contained before, except for a value that `RENAME` overwrites and a member that both sets of an `SMOVE` had. -/
theorem moves_transfer (S : StdSort) (rand : Nat) {m : Move} {v : Segment} (hv : m.Reads v) (d : Data) :
    (exec (call S rand (.string m.verb.text :: v)) d).1 ≠ .error .undefined ∧
      ∀ a d', exec (call S rand (.string m.verb.text :: v)) d = (.ok a, d') → m.Moves d a d' := by
  have hwp : wp (executeVerb S rand m.verb v) d (Succeeds (m.Moves d)) := by
    cases m with
    | rpoplpush key other =>
      obtain ⟨x, y, rfl, hkey, hother⟩ := hv
      exact wp_execRpoplpush hkey hother d
    | smove key dest value =>
      obtain ⟨x, y, z, rfl, hkey, hdest, hvalue⟩ := hv
      exact wp_execSmove hkey hdest hvalue d
    | rename key newKey =>
      obtain ⟨x, y, rfl, hkey, hnewKey⟩ := hv
      exact wp_execRename hkey hnewKey d
    | renamenx key newKey =>
      obtain ⟨x, y, rfl, hkey, hnewKey⟩ := hv
      exact wp_execRenamenx hkey hnewKey d
  unfold wp at hwp
  refine ⟨fun hundefined => ?_, fun a d' hcall => ?_⟩
  · rw [exec_call] at hundefined
    match hexec : exec (executeVerb S rand m.verb v) d with
    | (.error .undefined, d') =>
      rw [hexec] at hwp
      exact hwp
    | (.error (.thrown e), d') =>
      rw [hexec] at hundefined
      cases hundefined
    | (.ok a, d') =>
      rw [hexec] at hundefined
      cases hundefined
  · rw [exec_call_eq_ok_iff.mp hcall] at hwp
    exact hwp

theorem moves_transfer_rotate :
    (Move.rpoplpush (lit "k") (lit "k")).Moves ((∅ : Data).insert (lit "k") (.list [lit "a", lit "b"]))
      (.string (lit "b")) ((∅ : Data).insert (lit "k") (.list [lit "b", lit "a"])) :=
  (moves_transfer .insertion 0 (m := .rpoplpush (lit "k") (lit "k"))
    (v := [.string (lit "k"), .string (lit "k")]) ⟨_, _, rfl, rfl, rfl⟩ _).2 _ _ rfl

/-- The text that another value is renamed over is gone. -/
theorem rename_overwrites :
    ∃ d', exec (call .insertion 0 [.string (lit "RENAME"), .string (lit "a"), .string (lit "b")])
        (((∅ : Data).insert (lit "a") (.string (lit "x"))).insert (lit "b") (.string (lit "y"))) =
          (.ok (.string (lit "OK")), d') ∧
      lit "y" ∈ contents (((∅ : Data).insert (lit "a") (.string (lit "x"))).insert (lit "b") (.string (lit "y"))) ∧
      lit "y" ∉ contents d' :=
  ⟨_, rfl, by decide, by decide⟩

end Afl.Net.Redis
