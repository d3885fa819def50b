import Afl.Net.Redis.Commands

/-!
# Exactly which commands tear the database or leave an empty container

A command is *torn* if it throws after it has changed the database, and *leaves an empty container* if one is
stored when it ends. `Torn` and `LeavesEmpty` say when this happens, as conditions on the database before
the command and on its arguments, and `verdict_executeVerb` proves them exact for every verb.
-/

namespace Afl.Net.Redis

open Exec

/-! ### Verdicts -/

/-- `torn` says when `m`, run from `d`, throws with a changed database; `leavesEmpty` says when it breaks
`NoEmptyContainer`. -/
structure Verdict (m : Db Value) (d : Data) (torn leavesEmpty : Prop) : Prop where
  torn_iff : (∃ e, (exec m d).1 = .error (.thrown e) ∧ (exec m d).2 ≠ d) ↔ torn
  empty_iff : (exec m d).1 ≠ .error .undefined → NoEmptyContainer d →
    (NoEmptyContainer (exec m d).2 ↔ ¬leavesEmpty)

variable {d : Data}

theorem Verdict.congr {m : Db Value} {torn torn' leavesEmpty leavesEmpty' : Prop}
    (h : Verdict m d torn leavesEmpty) (htorn : torn ↔ torn')
    (hempty : NoEmptyContainer d → (leavesEmpty ↔ leavesEmpty')) : Verdict m d torn' leavesEmpty' where
  torn_iff := h.torn_iff.trans htorn
  empty_iff hdef hd := (h.empty_iff hdef hd).trans (not_congr (hempty hd))

theorem verdict_of_safe {m : Db Value} (h : wp m d (Safe d)) : Verdict m d False False := by
  unfold wp at h
  refine ⟨⟨fun ⟨e, he, hne⟩ => ?_, False.elim⟩, fun hdef hd => ⟨fun _ => id, fun _ => ?_⟩⟩
  · rw [he] at h
    exact hne h
  · rcases hr : exec m d with ⟨r, d'⟩
    rw [hr] at h hdef
    match r with
    | .ok a => exact h hd
    | .error (.thrown e) =>
      have hd' : d' = d := h
      exact hd' ▸ hd
    | .error .undefined => exact absurd rfl hdef

variable {torn leavesEmpty : Prop}

theorem verdict_bind {α : Type} {m : Db α} {f : α → Db Value}
    (hm : ReadOnly m) (hok : ∀ a, exec m d = (.ok a, d) → Verdict (f a) d torn leavesEmpty)
    (herror : ∀ e, exec m d = (.error e, d) → ¬torn ∧ ¬leavesEmpty) :
    Verdict (m >>= f) d torn leavesEmpty := by
  have hstate := hm d
  rcases hr : exec m d with ⟨r, d'⟩
  rw [hr] at hstate
  cases hstate
  cases r with
  | ok a =>
    have h := hok a hr
    refine ⟨?_, ?_⟩
    · rw [exec_bind_ok hr]
      exact h.torn_iff
    · rw [exec_bind_ok hr]
      exact h.empty_iff
  | error e =>
    have h := herror e hr
    refine ⟨?_, fun _ hd => ?_⟩
    · rw [exec_bind_error hr]
      exact ⟨fun ⟨_, _, hne⟩ => absurd rfl hne, fun ht => absurd ht h.1⟩
    · rw [exec_bind_error hr]
      exact ⟨fun _ => h.2, fun _ => hd⟩

theorem verdict_insert {m : Db Value} (key : Bytes) {k : Key} {e : Option Exception} {a : Value}
    (h : exec m d = (loopOutcome e a, d.insert key k)) :
    Verdict m d (e ≠ none ∧ d.lookup key ≠ some k) (¬k.Inhabited) := by
  refine ⟨?_, fun _ hd => ?_⟩
  · rw [h]
    cases e with
    | none => simp
    | some e => simp [Finmap.insert_eq_self_iff]
  · rw [h, not_not]
    exact noEmptyContainer_insert_iff hd key k

theorem verdict_writeBack {m : Db Value} (key : Bytes) {k : Key} {e : Option Exception} {a : Value}
    (h : exec m d = (loopOutcome e a, if e = none then writeBack d key k else d.insert key k)) :
    Verdict m d (e ≠ none ∧ d.lookup key ≠ some k) (e ≠ none ∧ ¬k.Inhabited) := by
  cases e with
  | none =>
    refine ⟨by rw [h]; simp, fun _ hd => ?_⟩
    rw [h]
    simpa using hd.writeBack key k
  | some e =>
    exact (verdict_insert key h).congr Iff.rfl fun _ => by simp

/-! ### The conditions -/

/-- The first argument converted to a string, and the remaining arguments. -/
def firstArg : Segment → Option (Bytes × Segment)
  | [] => none
  | x :: v =>
    match x.eatString [] with
    | .error _ => none
    | .ok key => some (key, v)

/-- The hash after the given fields were assigned in order. -/
def assignFields (m_hash : Finmap fun _ : Bytes => Bytes) (pairs : List (Bytes × Bytes)) :
    Finmap fun _ : Bytes => Bytes :=
  pairs.foldl (fun h p => h.insert p.1 p.2) m_hash

/-- The database after the given keys were set to strings in order. -/
def assignKeys (d : Data) (pairs : List (Bytes × Bytes)) : Data :=
  pairs.foldl (fun d p => d.insert p.1 (.string p.2)) d

/-- The command reads an argument that cannot be converted after it has changed something, or it is an
`SMOVE` of a member to a key that is not a set. -/
def Torn (d : Data) : Verb → Segment → Prop
  | .del, v => (eaten v []).2 ≠ none ∧ ∃ key ∈ (eaten v []).1, d.lookup key ≠ none
  | .hdel, v => ∃ key rest m_hash, firstArg v = some (key, rest) ∧ d.lookup key = some (.hash m_hash) ∧
      (eaten rest []).2 ≠ none ∧ ∃ field ∈ (eaten rest []).1, m_hash.lookup field ≠ none
  | .hmset, v => ∃ key rest, v.length % 2 = 1 ∧ firstArg v = some (key, rest) ∧
      (eatenPairs rest [] []).2 ≠ none ∧ (d.lookup key = none ∨
        ∃ m_hash, d.lookup key = some (.hash m_hash) ∧ assignFields m_hash (eatenPairs rest [] []).1 ≠ m_hash)
  | .lpush, v | .rpush, v => ∃ key rest, 2 ≤ v.length ∧ firstArg v = some (key, rest) ∧
      (eaten rest []).2 ≠ none ∧ (d.lookup key = none ∨
        (∃ m_list, d.lookup key = some (.list m_list)) ∧ (eaten rest []).1 ≠ [])
  | .mset, v => v.length % 2 = 0 ∧ (eatenPairs v [] []).2 ≠ none ∧ assignKeys d (eatenPairs v [] []).1 ≠ d
  | .sadd, v => ∃ key rest, 2 ≤ v.length ∧ firstArg v = some (key, rest) ∧
      (eaten rest []).2 ≠ none ∧ (d.lookup key = none ∨
        ∃ m_set, d.lookup key = some (.set m_set) ∧ ∃ s ∈ (eaten rest []).1, s ∉ m_set)
  | .srem, v => ∃ key rest m_set, 2 ≤ v.length ∧ firstArg v = some (key, rest) ∧
      d.lookup key = some (.set m_set) ∧ (eaten rest []).2 ≠ none ∧ ∃ s ∈ (eaten rest []).1, s ∈ m_set
  | .smove, v => ∃ x y z key dest s m_set k, v = [x, y, z] ∧ x.eatString [] = .ok key ∧
      y.eatString [] = .ok dest ∧ z.eatString [] = .ok s ∧ d.lookup key = some (.set m_set) ∧ s ∈ m_set ∧
      d.lookup dest = some k ∧ KeyClass.set.dynamicCast k = none
  | _, _ => False

/-- The command ends with an empty container in the database: `LREM` of all elements of a list; `HMSET`,
`LPUSH`, `RPUSH` or `SADD` that creates its key and then finds nothing to put in; `HDEL` or `SREM` that
throws after it has removed everything; `SMOVE` of the last member to a key that is not a set; and
`SORT ... STORE` with a window that selects nothing from a non-empty source. -/
def LeavesEmpty (S : StdSort) (d : Data) : Verb → Segment → Prop
  | .hdel, v => ∃ key rest m_hash, firstArg v = some (key, rest) ∧ d.lookup key = some (.hash m_hash) ∧
      (eaten rest []).2 ≠ none ∧ ∀ field, m_hash.lookup field ≠ none → field ∈ (eaten rest []).1
  | .hmset, v => ∃ key rest, v.length % 2 = 1 ∧ firstArg v = some (key, rest) ∧ d.lookup key = none ∧
      (eatenPairs rest [] []).1 = []
  | .lpush, v | .rpush, v | .sadd, v => ∃ key rest, 2 ≤ v.length ∧ firstArg v = some (key, rest) ∧
      d.lookup key = none ∧ (eaten rest []).1 = []
  | .lrem, v => ∃ x y z key count s m_list, v = [x, y, z] ∧ x.eatString [] = .ok key ∧
      y.eatInteger 0 = .ok count ∧ z.eatString [] = .ok s ∧ d.lookup key = some (.list m_list) ∧
      (∀ t ∈ m_list, t = s) ∧ (count = 0 ∨ m_list.length ≤ count.toInt.natAbs)
  | .srem, v => ∃ key rest m_set, 2 ≤ v.length ∧ firstArg v = some (key, rest) ∧
      d.lookup key = some (.set m_set) ∧ (eaten rest []).2 ≠ none ∧ ∀ s ∈ m_set, s ∈ (eaten rest []).1
  | .smove, v => ∃ x y z key dest s k, v = [x, y, z] ∧ x.eatString [] = .ok key ∧
      y.eatString [] = .ok dest ∧ z.eatString [] = .ok s ∧ d.lookup key = some (.set {s}) ∧
      d.lookup dest = some k ∧ KeyClass.set.dynamicCast k = none
  | .sort, v => ∃ key rest k values o sorted, firstArg v = some (key, rest) ∧ d.lookup key = some k ∧
      sortableValues k = some values ∧ values ≠ [] ∧ parseSortOptions rest {} = .ok o ∧ o.store = true ∧
      S.sort (sorter d o.pattern o.descending o.alpha) values = .ok sorted ∧
      (o.rounds values.length = 0 ∨ (int32OfSize values.length).toInt ≤ o.first)
  | _, _ => False

/-! ### Reading the first arguments -/

theorem exec_eatString_cons (x : Value) (v : Segment) (value : Bytes) (d : Data) :
    exec (eatString (x :: v) value) d =
      match x.eatString value with
      | .ok s => (.ok (s, v), d)
      | .error e => (.error (.thrown e), d) := by
  show exec (liftE (x.eatString value) >>= fun s => pure (s, v)) d = _
  cases x.eatString value with
  | error e => rw [exec_bind_error (exec_liftE_error _ _)]
  | ok s => rw [exec_bind_ok (exec_liftE_ok _ _), exec_pure]

variable {v : Segment}

theorem firstArg_of_eatString {p : Bytes × Segment} (hv : v ≠ [])
    (h : exec (eatString v []) d = (.ok p, d)) : firstArg v = some p := by
  cases v with
  | nil => exact absurd rfl hv
  | cons x v =>
    rw [exec_eatString_cons] at h
    cases hx : x.eatString [] with
    | error e => simp [hx] at h
    | ok key =>
      simp only [hx, Prod.mk.injEq, Except.ok.injEq, and_true] at h
      simp [firstArg, hx, h]

theorem firstArg_of_eatString_error {e : Failure}
    (h : exec (eatString v []) d = (.error e, d)) : firstArg v = none := by
  cases v with
  | nil => rfl
  | cons x v =>
    rw [exec_eatString_cons] at h
    cases hx : x.eatString [] with
    | error e => simp [firstArg, hx]
    | ok key => simp [hx] at h

variable {need : Nat}

theorem length_of_checkArgumentCountAtLeast
    (h : exec (checkArgumentCountAtLeast v need) d = (.ok (), d)) : need ≤ v.length := by
  unfold checkArgumentCountAtLeast at h
  split at h
  · cases h
  · omega

theorem length_of_checkArgumentCountAtLeast_error {e : Failure}
    (h : exec (checkArgumentCountAtLeast v need) d = (.error e, d)) : v.length < need := by
  unfold checkArgumentCountAtLeast at h
  split at h
  · assumption
  · cases h

theorem length_of_checkArgumentCount (h : exec (checkArgumentCount v need) d = (.ok (), d)) : v.length = need := by
  unfold checkArgumentCount at h
  split at h
  · cases h
  · omega

theorem length_of_checkArgumentCount_error {e : Failure}
    (h : exec (checkArgumentCount v need) d = (.error e, d)) : v.length ≠ need := by
  unfold checkArgumentCount at h
  split at h
  · assumption
  · cases h

theorem readOnly_checkParity (v : Segment) (parity : Nat) : ReadOnly (checkParity v parity) :=
  .ite (readOnly_fail _) (.pure _)

theorem parity_of_checkParity {parity : Nat}
    (h : exec (checkParity v parity) d = (.ok (), d)) : v.length % 2 = parity := by
  unfold checkParity at h
  split at h
  · cases h
  · omega

theorem parity_of_checkParity_error {parity : Nat} {e : Failure}
    (h : exec (checkParity v parity) d = (.error e, d)) : v.length % 2 ≠ parity := by
  unfold checkParity at h
  split at h
  · assumption
  · cases h

/-! ### Verdicts over the arguments and the stored key -/

theorem verdict_atLeast {body : Bytes × Segment → Db Value} (hneed : 1 ≤ need)
    (hok : ∀ key rest, need ≤ v.length → firstArg v = some (key, rest) →
      Verdict (body (key, rest)) d torn leavesEmpty)
    (herror : v.length < need ∨ firstArg v = none → ¬torn ∧ ¬leavesEmpty) :
    Verdict (checkArgumentCountAtLeast v need >>= fun _ => eatString v [] >>= body) d torn leavesEmpty := by
  refine verdict_bind (readOnly_checkArgumentCountAtLeast _ _) (fun _ hcount => ?_) fun e he =>
    herror (.inl (length_of_checkArgumentCountAtLeast_error he))
  have hlen := length_of_checkArgumentCountAtLeast hcount
  have hv : v ≠ [] := by
    rintro rfl
    simp at hlen
    omega
  refine verdict_bind (readOnly_eatString _ _) (fun ⟨key, rest⟩ hkey => ?_) fun e he =>
    herror (.inr (firstArg_of_eatString_error he))
  exact hok key rest hlen (firstArg_of_eatString hv hkey)

theorem verdict_get {τ : Type} {T : KeyClass τ} {key : Bytes} {body : Option τ → Db Value}
    (hnone : d.lookup key = none → Verdict (body none) d torn leavesEmpty)
    (hsome : ∀ t, d.lookup key = some (T.toKey t) → Verdict (body (some t)) d torn leavesEmpty)
    (hother : ∀ k, d.lookup key = some k → T.dynamicCast k = none → ¬torn ∧ ¬leavesEmpty) :
    Verdict (get T.dynamicCast key >>= body) d torn leavesEmpty := by
  refine verdict_bind (readOnly_get _ _) (fun o ho => ?_) fun e he => ?_
  · cases o with
    | none => exact hnone (lookup_of_get_none ho)
    | some t => exact hsome t (lookup_of_get ho)
  · obtain ⟨k, hk, hcast⟩ := lookup_of_get_error he
    exact hother k hk hcast

theorem verdict_getCreate {τ : Type} {T : KeyClass τ} {key : Bytes} {body : τ → Db Value} {e : Option Exception}
    (hok : ∀ t, d.lookup key = some (T.toKey t) ∨ d.lookup key = none ∧ t = T.new →
      ∃ a t', exec (body t) (d.insert key (T.toKey t)) = (loopOutcome e a, d.insert key (T.toKey t')) ∧
        (e ≠ none ∧ d.lookup key ≠ some (T.toKey t') ↔ torn) ∧
        (NoEmptyContainer d → (¬(T.toKey t').Inhabited ↔ leavesEmpty)))
    (hother : ∀ k, d.lookup key = some k → T.dynamicCast k = none → ¬torn ∧ ¬leavesEmpty) :
    Verdict (getCreate T key >>= body) d torn leavesEmpty := by
  have hgood : ∀ t, d.lookup key = some (T.toKey t) ∨ d.lookup key = none ∧ t = T.new →
      Verdict (getCreate T key >>= body) d torn leavesEmpty := by
    intro t ht
    obtain ⟨a, t', hbody, htorn, hempty⟩ := hok t ht
    exact (verdict_insert key ((exec_bind_ok (exec_getCreate ht)).trans hbody)).congr htorn hempty
  cases hk : d.lookup key with
  | none => exact hgood T.new (.inr ⟨hk, rfl⟩)
  | some k =>
    cases hc : T.dynamicCast k with
    | some t => exact hgood t (.inl (hk.trans (congrArg some (T.eq_toKey hc))))
    | none =>
      have h := hother k hk hc
      have hexec : exec (getCreate T key >>= body) d = _ := exec_bind_error (exec_getCreate_error hk hc)
      refine ⟨?_, fun _ hd => ?_⟩
      · rw [hexec]
        exact ⟨fun ⟨_, _, hne⟩ => absurd rfl hne, fun ht => absurd ht h.1⟩
      · rw [hexec]
        exact ⟨fun _ => h.2, fun _ => hd⟩

end Afl.Net.Redis
