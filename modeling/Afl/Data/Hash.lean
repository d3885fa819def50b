import Afl.Data.NameMap
import Mathlib.Data.List.Nodup

/-!
# Hashes

`afl/data/hash.cpp`: keys in a name map, and the values in a segment beside it. A value is a pointer; `clone` is the
virtual function of its class.
-/

namespace Afl.Data

/-! ### Segments -/

namespace Segment

variable {V : Type}

def get (content : List (Option V)) (index : Index) : Option V :=
  if h : index.toNat < content.length then content[index.toNat] else none

def makeIndexAccessible (content : List (Option V)) (index : Index) : List (Option V) :=
  content ++ List.replicate (index.toNat + 1 - content.length) none

def setNew (content : List (Option V)) (index : Index) (value : Option V) : List (Option V) :=
  (makeIndexAccessible content index).set index.toNat value

end Segment

/-! ### Hashes -/

structure Hash (V : Type) where
  m_keys : NameMap
  m_values : List (Option V)

namespace Hash

variable {V : Type} (clone : V → V)

def create : Hash V := ⟨.new, []⟩

def setNew (h : Hash V) (key : Bytes) (value : Option V) : Option (Hash V) := do
  let (index, keys) ← h.m_keys.addMaybe key
  pure ⟨keys, Segment.setNew h.m_values index value⟩

/-- `set`, with `Value::cloneOf`. -/
def set (h : Hash V) (key : Bytes) (value : Option V) : Option (Hash V) := h.setNew key (value.map clone)

def get (h : Hash V) (key : Bytes) : Option (Option V) := do
  let index ← h.m_keys.getIndexByName (.ofString key)
  pure (Segment.get h.m_values index)

/-- The calls that change a hash. -/
inductive Call (V : Type)
  | set (key : Bytes) (value : Option V)
  | setNew (key : Bytes) (value : Option V)

def exec (h : Hash V) : Call V → Option (Hash V)
  | .set key value => h.set clone key value
  | .setNew key value => h.setNew key value

def Call.key : Call V → Bytes
  | .set key _ => key
  | .setNew key _ => key

def Call.value : Call V → Option V
  | .set _ value => value.map clone
  | .setNew _ value => value

def lastValue (calls : List (Call V)) (key : Bytes) : Option V :=
  ((calls.filter fun c => c.key = key).getLast?).bind (Call.value clone)

/-! ### Keys -/

theorem eraseDups_concat (keys : List Bytes) (key : Bytes) :
    (keys ++ [key]).eraseDups = if key ∈ keys then keys.eraseDups else keys.eraseDups ++ [key] := by
  rw [List.eraseDups_append, List.removeAll, List.filter_singleton]
  by_cases hmem : key ∈ keys
  · rw [if_pos hmem, List.elem_eq_true_of_mem hmem]
    exact List.append_nil _
  · rw [if_neg hmem, Bool.eq_false_iff.2 (mt List.mem_of_elem_eq_true hmem)]
    rfl

theorem nodup_eraseDups (keys : List Bytes) : keys.eraseDups.Nodup := by
  induction keys using List.reverseRecOn with
  | nil => exact List.nodup_nil
  | append_singleton keys key ih =>
    rw [eraseDups_concat]
    split_ifs with hmem
    · exact ih
    · rw [← List.concat_eq_append]
      exact ih.concat fun h => hmem (List.mem_eraseDups.1 h)

/-! ### Values -/

section
variable {clone}

theorem lastValue_self (calls : List (Call V)) (c : Call V) : lastValue clone (calls ++ [c]) c.key = c.value clone := by
  rw [lastValue, List.filter_append, List.filter_singleton, decide_eq_true rfl]
  simp

theorem lastValue_ne (calls : List (Call V)) {c : Call V} {key : Bytes} (h : key ≠ c.key) :
    lastValue clone (calls ++ [c]) key = lastValue clone calls key := by
  rw [lastValue, List.filter_append, List.filter_singleton, decide_eq_false h.symm]
  simp [lastValue]

theorem lastValue_missing {calls : List (Call V)} {key : Bytes} (h : key ∉ calls.map Call.key) :
    lastValue clone calls key = none := by
  have hnil : calls.filter (fun c => c.key = key) = [] := by
    rw [List.filter_eq_nil_iff]
    intro c hc heq
    exact h (List.mem_map.2 ⟨c, hc, of_decide_eq_true heq⟩)
  rw [lastValue, hnil]
  rfl

end

/-- The invariant: the values are beside their keys. -/
structure Ok (calls : List (Call V)) (h : Hash V) : Prop where
  keys : h.m_keys.Ok
  names : h.m_keys.m_names = (calls.map Call.key).eraseDups
  length : h.m_values.length = h.m_keys.m_names.length
  values : ∀ {j : Nat} {key : Bytes}, h.m_keys.m_names[j]? = some key → h.m_values[j]? = some (lastValue clone calls key)

variable {clone} {h : Hash V} {calls : List (Call V)}

theorem exec_eq (h : Hash V) (c : Call V) : exec clone h c = h.setNew c.key (c.value clone) := by
  rcases c with ⟨key, value⟩ | ⟨key, value⟩
  · rfl
  · rfl

/-- The names before and after `addMaybe`. -/
def Recorded (names : List Bytes) (key : Bytes) (names' : List Bytes) : Prop :=
  key ∈ names ∧ names' = names ∨ key ∉ names ∧ names' = names ++ [key]

theorem Recorded.getElem?_old {names names' : List Bytes} {key other : Bytes} {i j : Nat} (h : Recorded names key names')
    (hnodup : names'.Nodup) (hi : names'[i]? = some key) (hj : names'[j]? = some other) (hne : j ≠ i) :
    names[j]? = some other ∧ other ≠ key := by
  have hother : other ≠ key := by
    rintro rfl
    exact hne ((List.getElem?_inj (List.getElem?_eq_some_iff.1 hj).1 hnodup).1 (hj.trans hi.symm))
  refine ⟨?_, hother⟩
  rcases h with ⟨-, rfl⟩ | ⟨-, rfl⟩
  · exact hj
  · by_cases hjlt : j < names.length
    · rwa [List.getElem?_append_left hjlt] at hj
    · rw [List.getElem?_append_right (by omega)] at hj
      exact absurd (List.mem_singleton.1 (List.mem_of_getElem? hj)) hother

theorem Recorded.length {names names' : List Bytes} {key : Bytes} {i : Nat} (h : Recorded names key names')
    (hi : names'[i]? = some key) : names.length + (i + 1 - names.length) = names'.length := by
  have hilt := (List.getElem?_eq_some_iff.1 hi).1
  rcases h with ⟨-, rfl⟩ | ⟨hnotin, rfl⟩
  · omega
  · have hnew : ¬i < names.length := by
      intro hlt
      rw [List.getElem?_append_left hlt] at hi
      exact hnotin (List.mem_of_getElem? hi)
    rw [List.length_append, List.length_singleton] at hilt ⊢
    omega

theorem Ok.exec (hok : Ok clone calls h) (c : Call V)
    (hfits : ((calls ++ [c]).map Call.key).eraseDups.length < 2 ^ 64) :
    ∃ h', exec clone h c = some h' ∧ Ok clone (calls ++ [c]) h' := by
  have hnodup := nodup_eraseDups ((calls ++ [c]).map Call.key)
  have hrecord : ((calls ++ [c]).map Call.key).eraseDups =
      if c.key ∈ h.m_keys.m_names then h.m_keys.m_names else h.m_keys.m_names ++ [c.key] := by
    rw [List.map_append, List.map_singleton, eraseDups_concat, hok.names]
    simp only [List.mem_eraseDups]
  rw [hrecord] at hfits hnodup
  obtain ⟨i, keys, hkeys, hok', hfinds, hnames⟩ := hok.keys.addMaybe c.key hfits
  rw [← hnames] at hnodup hrecord
  have hrecorded : Recorded h.m_keys.m_names c.key keys.m_names := by
    rw [hnames]
    split_ifs with hin
    · exact .inl ⟨hin, rfl⟩
    · exact .inr ⟨hin, rfl⟩
  have hi : keys.m_names[i.toNat]? = some c.key := by
    rcases hfinds with hmissing | ⟨-, hfound, -⟩
    · rw [← hrecord, List.mem_eraseDups, List.map_append] at hmissing
      exact absurd (List.mem_append_right _ List.mem_cons_self) hmissing
    · exact hfound
  have hilt := (List.getElem?_eq_some_iff.1 hi).1
  have hgrown : h.m_values.length + (i.toNat + 1 - h.m_values.length) = keys.m_names.length := by
    rw [hok.length]
    exact hrecorded.length hi
  refine ⟨⟨keys, Segment.setNew h.m_values i (c.value clone)⟩, ?_, hok', hrecord.symm, ?_, fun {j key} hj => ?_⟩
  · rw [exec_eq, setNew, hkeys]
    rfl
  · rw [Segment.setNew, List.length_set, Segment.makeIndexAccessible, List.length_append, List.length_replicate]
    exact hgrown
  · rw [Segment.setNew, Segment.makeIndexAccessible]
    by_cases hji : j = i.toNat
    · rw [hji, hi] at hj
      have hlt : i.toNat < (h.m_values ++ List.replicate (i.toNat + 1 - h.m_values.length) none).length := by
        rw [List.length_append, List.length_replicate, hgrown]
        exact hilt
      rw [hji, List.getElem?_set_self hlt, ← Option.some.inj hj, lastValue_self]
    · obtain ⟨hj', hkey⟩ := hrecorded.getElem?_old hnodup hi hj hji
      have hvalue := hok.values hj'
      rw [List.getElem?_set_ne (Ne.symm hji), List.getElem?_append_left (List.getElem?_eq_some_iff.1 hvalue).1, hvalue,
        lastValue_ne calls hkey]

theorem ok_run (calls : List (Call V)) (hfits : (calls.map Call.key).eraseDups.length < 2 ^ 64) :
    ∃ h, calls.foldlM (Hash.exec clone) create = some h ∧ Ok clone calls h := by
  induction calls using List.reverseRecOn with
  | nil => exact ⟨create, rfl, NameMap.ok_new, rfl, rfl, fun hj => absurd hj nofun⟩
  | append_singleton calls c ih =>
    have hfits' : (calls.map Call.key).eraseDups.length < 2 ^ 64 := by
      rw [List.map_append, List.map_singleton, eraseDups_concat] at hfits
      split_ifs at hfits
      · exact hfits
      · rw [List.length_append] at hfits
        omega
    obtain ⟨h, hh, hok⟩ := ih hfits'
    obtain ⟨h', hh', hok'⟩ := hok.exec c hfits
    refine ⟨h', ?_, hok'⟩
    rw [List.foldlM_append, hh, Option.bind_eq_bind, Option.bind_some, List.foldlM_cons, hh']
    rfl

theorem Ok.get (hok : Ok clone calls h) (hfits : (calls.map Call.key).eraseDups.length < 2 ^ 64) (key : Bytes) :
    h.get key = some (lastValue clone calls key) := by
  obtain ⟨i, hi, hfinds⟩ := hok.keys.finds (.ofString key)
  rw [Hash.get, hi, Option.bind_eq_bind, Option.bind_some, Segment.get]
  rcases hfinds with hmissing | ⟨-, hfound, -⟩
  · have hnil : nil.toNat = 2 ^ 64 - 1 := by decide
    have hlt : ¬nil.toNat < h.m_values.length := by
      rw [hok.length, hok.names, hnil]
      omega
    rw [hok.names, List.mem_eraseDups] at hmissing
    have hkey : key ∉ calls.map Call.key := hmissing
    rw [dif_neg hlt, lastValue_missing hkey]
    rfl
  · obtain ⟨hlt, hvalue⟩ := List.getElem?_eq_some_iff.1 (hok.values hfound)
    rw [dif_pos hlt, hvalue]
    rfl

/-- **Name maps and hashes as finite maps**: every run of operations on name maps with fewer than 2^64 names ends, and
then every query finds the last index of its name, or none; every run of calls on a hash with fewer than 2^64 keys ends,
every key has the value that was set last for it, and the keys are those that were set, in the order they were first. -/
theorem maps_refine (clone : V → V) :
    (∀ ops : List NameMap.Op, NameMap.Fits (ops.foldl NameMap.record fun _ => []) →
      ∃ maps, ops.foldlM NameMap.exec (fun _ => NameMap.new) = some maps ∧
        ∀ (i : Nat) (q : NameQuery) (name : Bytes), q.Asks name → ∃ index, (maps i).getIndexByName q = some index ∧
          NameMap.Finds (ops.foldl NameMap.record (fun _ => []) i) name index) ∧
    ∀ calls : List (Call V), (calls.map Call.key).eraseDups.length < 2 ^ 64 →
      ∃ h, calls.foldlM (exec clone) create = some h ∧ (∀ key, h.get key = some (lastValue clone calls key)) ∧
        h.m_keys.m_names = (calls.map Call.key).eraseDups ∧ h.m_keys.m_names.Nodup := by
  constructor
  · intro ops hfits
    obtain ⟨maps, hmaps, hholds⟩ := NameMap.holds_run ops hfits
    refine ⟨maps, hmaps, fun i q name hq => ?_⟩
    rw [← (hholds i).2, ← hq.text]
    exact (hholds i).1.finds q
  · intro calls hfits
    obtain ⟨h, hh, hok⟩ := ok_run calls hfits
    refine ⟨h, hh, hok.get hfits, hok.names, ?_⟩
    rw [hok.names]
    exact nodup_eraseDups _

theorem maps_refine_add :
    (∃ maps, [NameMap.Op.add 0 [97], .addMaybe 0 [97], .swap 0 1].foldlM NameMap.exec (fun _ => NameMap.new) = some maps ∧
      ∀ (i : Nat) (q : NameQuery) (name : Bytes), q.Asks name → ∃ index, (maps i).getIndexByName q = some index ∧
        NameMap.Finds ([NameMap.Op.add 0 [97], .addMaybe 0 [97], .swap 0 1].foldl NameMap.record (fun _ => []) i)
          name index) ∧
    ∃ h : Hash Nat, [Call.set [97] (some 1), .setNew [98] none].foldlM (exec id) create = some h ∧
      (∀ key, h.get key = some (lastValue id [.set [97] (some 1), .setNew [98] none] key)) ∧
      h.m_keys.m_names = [[97], [98]] ∧ h.m_keys.m_names.Nodup := by
  refine ⟨(maps_refine (id : Nat → Nat)).1 _ fun i => ?_, (maps_refine (id : Nat → Nat)).2 _ (by decide)⟩
  have hlength : ∀ k : Nat, (Function.update (fun _ : Nat => ([] : List Bytes)) 0 [[97]] k).length ≤ 1 := by
    intro k
    by_cases hk : k = 0
    · rw [hk, Function.update_self]
      exact le_rfl
    · rw [Function.update_of_ne hk]
      exact Nat.zero_le 1
  have hone : 1 < 2 ^ 64 := by decide
  exact Nat.lt_of_le_of_lt (hlength (Equiv.swap 0 1 i)) hone

end Hash

end Afl.Data
