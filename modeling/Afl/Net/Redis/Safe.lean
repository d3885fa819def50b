import Afl.Net.Redis.Effects

/-!
# Commands that are safe on every database

`NoEmptyContainer` is the invariant the pop commands rely on. A command is *safe* from a database if an
exception leaves the database alone and a normal return keeps the invariant (`Safe`). Every command is safe
except those that read arguments between two writes, `SMOVE`, `LREM` and `SORT`.
-/

namespace Afl.Net.Redis

open Exec

/-! ### The invariant -/

/-- A string, or a container with at least one element. -/
def Key.Inhabited : Key → Prop
  | string _ => True
  | hash m_hash => m_hash ≠ ∅
  | list m_list => m_list ≠ []
  | set m_set => m_set ≠ ∅

instance (k : Key) : Decidable k.Inhabited := by
  unfold Key.Inhabited
  cases k <;> infer_instance

/-- No key maps to an empty list, an empty set or an empty hash. -/
def NoEmptyContainer (d : Data) : Prop := ∀ name k, d.lookup name = some k → k.Inhabited

theorem noEmptyContainer_empty : NoEmptyContainer ∅ := by
  intro name k h
  simp at h

variable {d : Data}

theorem NoEmptyContainer.erase (h : NoEmptyContainer d) (name : Bytes) :
    NoEmptyContainer (d.erase name) := by
  intro other k hk
  by_cases hne : other = name
  · subst hne
    rw [Finmap.lookup_erase] at hk
    cases hk
  · rw [Finmap.lookup_erase_ne hne] at hk
    exact h other k hk

theorem NoEmptyContainer.insert (h : NoEmptyContainer d) (name : Bytes) {k : Key}
    (hk : k.Inhabited) : NoEmptyContainer (d.insert name k) := by
  intro other k' hk'
  by_cases hne : other = name
  · subst hne
    rw [Finmap.lookup_insert, Option.some.injEq] at hk'
    exact hk' ▸ hk
  · rw [Finmap.lookup_insert_of_ne _ hne] at hk'
    exact h other k' hk'

theorem noEmptyContainer_insert_iff (h : NoEmptyContainer d) (name : Bytes) (k : Key) :
    NoEmptyContainer (d.insert name k) ↔ k.Inhabited :=
  ⟨fun hn => hn name k (Finmap.lookup_insert d), fun hk => h.insert name hk⟩

/-! ### Safe outcomes -/

/-- An exception leaves the database `d` alone; a normal return keeps the invariant. -/
def Safe {α : Type} (d : Data) : Except Failure α → Data → Prop
  | .error (.thrown _), d' => d' = d
  | .error .undefined, _ => True
  | .ok _, d' => NoEmptyContainer d → NoEmptyContainer d'

variable {α : Type}

theorem safe_error (d : Data) (e : Failure) : Safe d (.error e : Except Failure α) d := by
  cases e with
  | thrown e => rfl
  | undefined => trivial

theorem safe_of_readOnly {m : Db α} (hm : ReadOnly m) (d : Data) : wp m d (Safe d) :=
  hm.wp_of (fun _ _ => id) fun e _ => safe_error d e

theorem safe_bind {α β : Type} {m : Db α} {f : α → Db β} (hm : ReadOnly m)
    (hf : ∀ a, exec m d = (.ok a, d) → wp (f a) d (Safe d)) : wp (m >>= f) d (Safe d) := by
  rw [wp_bind]
  exact hm.wp_of hf fun e _ => safe_error d e

theorem safe_key {v : Segment} {need : Nat} {f : Bytes × Segment → Db α}
    (hf : ∀ keyArg v, wp (f (keyArg, v)) d (Safe d)) :
    wp (checkArgumentCount v need >>= fun _ => eatString v [] >>= f) d (Safe d) :=
  safe_bind (readOnly_checkArgumentCount _ _) fun _ _ =>
    safe_bind (readOnly_eatString _ _) fun ⟨keyArg, v⟩ _ => hf keyArg v

/-! ### Safe commands -/

theorem safe_insert (d : Data) (name : Bytes) {k : Key} (hk : k.Inhabited) (a : α) :
    Safe d (.ok a) (d.insert name k) := fun h => h.insert name hk

theorem safe_insert_string (d : Data) (name m_string : Bytes) (a : α) :
    Safe d (.ok a) (d.insert name (KeyClass.string.toKey m_string)) :=
  safe_insert d name (show Key.Inhabited (.string m_string) from trivial) a

theorem safe_getCreate {τ α : Type} {T : KeyClass τ} {name : Bytes} {f : τ → Db α}
    (hf : ∀ t, d.lookup name = some (T.toKey t) ∨ d.lookup name = none ∧ t = T.new →
      wp (f t) (d.insert name (T.toKey t)) (Safe d)) : wp (getCreate T name >>= f) d (Safe d) := by
  rw [wp_bind]
  exact wp_getCreate (fun _ => rfl) hf

theorem readOnly_storedInteger (s : Bytes) : ReadOnly (storedInteger s) := by
  refine .ite (.pure _) ?_
  cases strToInt32 s with
  | none => exact readOnly_fail _
  | some intVal => exact .pure _

theorem ne_nil_of_storedInteger_error {s : Bytes} {d d' : Data} {e : Failure}
    (h : exec (storedInteger s) d = (.error e, d')) : s ≠ [] := by
  rintro rfl
  simp [storedInteger] at h

theorem safe_modifyString (keyArg : Bytes) (delta : Int32) (d : Data) :
    wp (modifyString keyArg delta) d (Safe d) := by
  refine safe_getCreate fun m_string hm => ?_
  rw [wp_bind]
  refine (readOnly_storedInteger _).wp_of (fun intVal _ => ?_) fun e he => ?_
  · rw [seqPost_ok, wp_bind]
    refine (readOnly_checked _).wp_of (fun sum _ => ?_) fun e he => ?_
    · simp only [seqPost_ok, wp_bind, wp_store, wp_pure, Finmap.insert_insert]
      exact safe_insert_string d _ _ _
    · simp only [checked] at he
      split at he <;> cases he
      trivial
  · -- a new key holds the empty string, so the key was there
    have hne := ne_nil_of_storedInteger_error he
    have hlookup : d.lookup keyArg = some (KeyClass.string.toKey m_string) :=
      hm.resolve_right fun h => hne h.2
    rw [seqPost_error, Finmap.insert_of_lookup hlookup]
    exact safe_error d e

theorem safe_execAppend (v : Segment) (d : Data) : wp (execAppend v) d (Safe d) := by
  refine safe_key fun _ _ => safe_bind (readOnly_eatString _ _) fun ⟨_, _⟩ _ => safe_getCreate fun m_string _ => ?_
  simp only [wp_bind, wp_store, seqPost_ok, wp_pure, Finmap.insert_insert]
  exact safe_insert_string d _ _ _

theorem safe_execDecr (v : Segment) (d : Data) : wp (execDecr v) d (Safe d) :=
  safe_key fun _ _ => safe_modifyString _ _ d

theorem safe_execDecrby (v : Segment) (d : Data) : wp (execDecrby v) d (Safe d) :=
  safe_key fun _ _ => safe_bind (readOnly_eatInteger _ _) fun ⟨_, _⟩ _ => safe_bind (readOnly_checked _) fun _ _ =>
      safe_modifyString _ _ d

theorem safe_execIncr (v : Segment) (d : Data) : wp (execIncr v) d (Safe d) :=
  safe_key fun _ _ => safe_modifyString _ _ d

theorem safe_execIncrby (v : Segment) (d : Data) : wp (execIncrby v) d (Safe d) :=
  safe_key fun _ _ => safe_bind (readOnly_eatInteger _ _) fun ⟨_, _⟩ _ => safe_modifyString _ _ d

theorem safe_execGetset (v : Segment) (d : Data) : wp (execGetset v) d (Safe d) := by
  refine safe_key fun _ _ => safe_bind (readOnly_eatString _ _) fun ⟨_, _⟩ _ => safe_bind (readOnly_get _ _) fun _ _ =>
      safe_getCreate fun m_string _ => ?_
  simp only [wp_bind, wp_store, seqPost_ok, wp_pure, Finmap.insert_insert]
  exact safe_insert_string d _ _ _

theorem exec_assign (keyArg stringArg : Bytes) (d : Data) :
    exec (assign keyArg stringArg) d = (.ok (), d.insert keyArg (.string stringArg)) := by
  have hcreate : exec (getCreate .string keyArg) (d.erase keyArg) =
      (.ok [], (d.erase keyArg).insert keyArg (.string [])) :=
    exec_getCreate (.inr ⟨Finmap.lookup_erase _ _, rfl⟩)
  unfold assign
  rw [exec_bind_ok (exec_erase _ _), exec_bind_ok hcreate, exec_store, Finmap.insert_insert, Finmap.insert_erase_self]
  rfl

theorem safe_execSet (v : Segment) (d : Data) : wp (execSet v) d (Safe d) := by
  refine safe_key fun _ _ => safe_bind (readOnly_eatString _ _) fun ⟨_, _⟩ _ => ?_
  unfold wp
  rw [exec_bind_ok (exec_assign _ _ _)]
  exact safe_insert_string d _ _ _

theorem safe_execSetnx (v : Segment) (d : Data) : wp (execSetnx v) d (Safe d) := by
  refine safe_key fun _ _ =>
    safe_bind (readOnly_eatString _ _) fun ⟨_, _⟩ _ => safe_bind (readOnly_get _ _) fun o _ => ?_
  cases o with
  | some m_string => exact safe_of_readOnly (.pure _) d
  | none =>
    simp only [wp_bind, wp_store, seqPost_ok, wp_pure]
    exact safe_insert_string d _ _ _

theorem safe_move {keyArg : Bytes} {k : Key} (hk : d.lookup keyArg = some k)
    (stringArg : Bytes) (a : α) : Safe d (.ok a) ((d.erase keyArg).insert stringArg k) :=
  fun h => (h.erase keyArg).insert stringArg (h keyArg k hk)

theorem safe_execRename (v : Segment) (d : Data) : wp (execRename v) d (Safe d) := by
  refine safe_key fun keyArg _ => safe_bind (readOnly_eatString _ _) fun ⟨_, _⟩ _ => ?_
  rw [wp_bind, wp_get, seqPost_ok]
  cases hk : d.lookup keyArg with
  | none => exact safe_of_readOnly (readOnly_fail _) d
  | some k => exact safe_move hk _ _

theorem safe_execRenamenx (v : Segment) (d : Data) : wp (execRenamenx v) d (Safe d) := by
  refine safe_key fun keyArg _ => safe_bind (readOnly_eatString _ _) fun ⟨stringArg, _⟩ _ => ?_
  rw [wp_bind, wp_get, seqPost_ok]
  cases hk : d.lookup keyArg with
  | none => exact safe_of_readOnly (readOnly_fail _) d
  | some k =>
    dsimp only
    cases d.lookup stringArg with
    | none => exact safe_move hk _ _
    | some _ => exact safe_of_readOnly (.pure _) d

theorem safe_insert_hash (d : Data) (name : Bytes) (m_hash : Finmap fun _ : Bytes => Bytes)
    (field value : Bytes) (a : α) :
    Safe d (.ok a) (d.insert name (KeyClass.hash.toKey (m_hash.insert field value))) :=
  safe_insert d name (show Key.Inhabited (.hash _) from Finmap.insert_ne_empty m_hash field value) a

theorem safe_execHset (v : Segment) (d : Data) : wp (execHset v) d (Safe d) := by
  refine safe_key fun _ _ =>
    safe_bind (readOnly_eatString _ _) fun ⟨_, _⟩ _ => safe_bind (readOnly_eatString _ _) fun ⟨_, _⟩ _ =>
      safe_getCreate fun m_hash _ => ?_
  simp only [wp_bind, wp_store, seqPost_ok, wp_pure, Finmap.insert_insert]
  exact safe_insert_hash d _ _ _ _ _

theorem safe_execHincrby (v : Segment) (d : Data) : wp (execHincrby v) d (Safe d) := by
  refine safe_key fun keyArg _ =>
    safe_bind (readOnly_eatString _ _) fun ⟨fieldArg, _⟩ _ => safe_bind (readOnly_eatInteger _ _) fun ⟨_, _⟩ _ =>
      safe_getCreate fun m_hash hm => ?_
  simp only [wp_bind, wp_store, seqPost_ok, Finmap.insert_insert]
  refine (readOnly_storedInteger _).wp_of (fun intVal _ => ?_) fun e he => ?_
  · rw [seqPost_ok, wp_bind]
    refine (readOnly_checked _).wp_of (fun sum _ => ?_) fun e he => ?_
    · simp only [seqPost_ok, wp_bind, wp_store, wp_pure, Finmap.insert_insert]
      exact safe_insert_hash d _ _ _ _ _
    · simp only [checked] at he
      split at he <;> cases he
      trivial
  · -- only a field that was there has a non-empty value
    have hne := ne_nil_of_storedInteger_error he
    cases hf : m_hash.lookup fieldArg with
    | none => simp [hf] at hne
    | some value =>
      have hlookup : d.lookup keyArg = some (KeyClass.hash.toKey m_hash) := by
        refine hm.resolve_right fun h => ?_
        have hnone : m_hash.lookup fieldArg = none := by rw [h.2]; rfl
        rw [hnone] at hf
        cases hf
      rw [seqPost_error, Option.getD_some, Finmap.insert_of_lookup hf, Finmap.insert_of_lookup hlookup]
      exact safe_error d e

/-- Write a container back under its name, or erase the name if nothing is left in it. -/
def writeBack (d : Data) (name : Bytes) (k : Key) : Data :=
  if k.Inhabited then d.insert name k else d.erase name

theorem noEmptyContainer_writeBack {name : Bytes}
    (h : ∀ other ≠ name, ∀ k, d.lookup other = some k → k.Inhabited) (k : Key) :
    NoEmptyContainer (writeBack d name k) := by
  intro other k' hk'
  unfold writeBack at hk'
  by_cases hne : other = name
  · subst hne
    split at hk'
    · rename_i hk
      rw [Finmap.lookup_insert, Option.some.injEq] at hk'
      exact hk' ▸ hk
    · rw [Finmap.lookup_erase] at hk'
      cases hk'
  · split at hk'
    · rw [Finmap.lookup_insert_of_ne _ hne] at hk'
      exact h other hne k' hk'
    · rw [Finmap.lookup_erase_ne hne] at hk'
      exact h other hne k' hk'

theorem NoEmptyContainer.writeBack (h : NoEmptyContainer d) (name : Bytes) (k : Key) :
    NoEmptyContainer (writeBack d name k) :=
  noEmptyContainer_writeBack (fun other _ k' hk' => h other k' hk') k

theorem writeBack_insert (d : Data) (name : Bytes) (k k' : Key) :
    writeBack (d.insert name k) name k' = writeBack d name k' := by
  unfold writeBack
  rw [Finmap.insert_insert, Finmap.erase_insert_self]

theorem exec_eraseIf {p : Prop} [Decidable p] (name : Bytes) {k : Key} (hp : p ↔ ¬k.Inhabited) :
    exec (eraseIf p name) (d.insert name k) = (.ok (), writeBack d name k) := by
  unfold eraseIf writeBack
  by_cases h : p
  · rw [if_pos h, if_neg (hp.mp h), exec_erase, Finmap.erase_insert_self]
  · rw [if_neg h, if_pos (not_not.mp fun hk => h (hp.mpr hk)), exec_pure]

theorem exec_storeListOrErase (keyArg : Bytes) (m_list : List Bytes) (d : Data) :
    exec (storeListOrErase keyArg m_list) d = (.ok (), writeBack d keyArg (.list m_list)) := by
  unfold storeListOrErase
  rw [exec_bind_ok (exec_store _ _ _ _)]
  exact exec_eraseIf _ (by simp [Key.Inhabited])

theorem exec_storeSetOrErase (keyArg : Bytes) (m_set : Finset Bytes) (d : Data) :
    exec (storeSetOrErase keyArg m_set) d = (.ok (), writeBack d keyArg (.set m_set)) := by
  unfold storeSetOrErase
  rw [exec_bind_ok (exec_store _ _ _ _)]
  exact exec_eraseIf _ (by simp [Key.Inhabited])

theorem safe_of_exec {m : Db α} {d d₁ d' : Data} {a : α} (h : exec m d₁ = (.ok a, d'))
    (hd' : NoEmptyContainer d → NoEmptyContainer d') : wp m d₁ (Safe d) := by
  unfold wp
  rw [h]
  exact hd'

theorem safe_storeListOrErase (keyArg : Bytes) (m_list : List Bytes) (d : Data) (a : α) :
    wp (storeListOrErase keyArg m_list >>= fun _ => pure a) d (Safe d) :=
  safe_of_exec (exec_bind_ok (exec_storeListOrErase _ _ _)) fun h => h.writeBack _ _

theorem safe_execLpop (v : Segment) (d : Data) : wp (execLpop v) d (Safe d) := by
  refine safe_key fun _ _ => safe_bind (readOnly_get _ _) fun o _ => ?_
  match o with
  | none => exact safe_of_readOnly (.pure _) d
  | some [] => exact safe_of_readOnly (.pure _) d
  | some (result :: m_list) => exact safe_storeListOrErase _ _ d _

theorem safe_execRpop (v : Segment) (d : Data) : wp (execRpop v) d (Safe d) := by
  refine safe_key fun _ _ => safe_bind (readOnly_get _ _) fun o _ => ?_
  cases o with
  | none => exact safe_of_readOnly (.pure _) d
  | some m_list =>
    dsimp only
    cases m_list.getLast? with
    | none => exact safe_of_readOnly (.pure _) d
    | some result => exact safe_storeListOrErase _ _ d _

theorem setByIndex_ne_nil {m_list m_list' : List Bytes} {index : Nat} {val : Bytes}
    (h : setByIndex m_list index val = some m_list') : m_list' ≠ [] := by
  unfold setByIndex at h
  split at h
  · rename_i hlt
    cases h
    intro hnil
    have hlen := congrArg List.length hnil
    simp at hlen
    simp [hlen] at hlt
  · cases h

theorem safe_execLset (v : Segment) (d : Data) : wp (execLset v) d (Safe d) := by
  refine safe_key fun _ _ =>
    safe_bind (readOnly_eatInteger _ _) fun ⟨_, _⟩ _ => safe_bind (readOnly_eatString _ _) fun ⟨stringArg, _⟩ _ =>
      safe_bind (readOnly_get _ _) fun o _ => ?_
  cases o with
  | none => exact safe_of_readOnly (readOnly_fail _) d
  | some m_list =>
    refine safe_bind (readOnly_convertIndex _ _) fun index _ => ?_
    cases hset : setByIndex m_list index stringArg with
    | none => exact safe_of_readOnly (readOnly_fail _) d
    | some m_list' =>
      exact safe_insert d _ (show Key.Inhabited (.list m_list') from setByIndex_ne_nil hset) _

theorem safe_execLtrim (v : Segment) (d : Data) : wp (execLtrim v) d (Safe d) := by
  refine safe_key fun _ _ =>
    safe_bind (readOnly_eatInteger _ _) fun ⟨_, _⟩ _ => safe_bind (readOnly_eatInteger _ _) fun ⟨_, _⟩ _ =>
      safe_bind (readOnly_get _ _) fun o _ => ?_
  cases o with
  | none => exact safe_of_readOnly (.pure _) d
  | some m_list =>
    refine safe_bind (readOnly_convertIndex _ _) fun i _ => safe_bind (readOnly_convertIndex _ _) fun j _ => ?_
    exact safe_storeListOrErase _ _ d _

theorem exec_get_of_lookup {τ : Type} {T : KeyClass τ} {name : Bytes} {t : τ}
    (h : d.lookup name = some (T.toKey t)) : exec (get T.dynamicCast name) d = (.ok (some t), d) := by
  rw [exec_get_key, h]
  dsimp only
  rw [T.cast_toKey]

theorem exists_lookup_insert {τ : Type} {T : KeyClass τ} {name : Bytes} (other : Bytes) {t : τ} (u : τ)
    (h : d.lookup name = some (T.toKey t)) :
    ∃ t', (d.insert other (T.toKey u)).lookup name = some (T.toKey t') ∧
      (name = other → t' = u) ∧ (name ≠ other → t' = t) := by
  by_cases hne : name = other
  · subst hne
    exact ⟨u, Finmap.lookup_insert d, fun _ => rfl, fun h => absurd rfl h⟩
  · exact ⟨t, by rw [Finmap.lookup_insert_of_ne _ hne, h], fun h => absurd h hne, fun _ => rfl⟩

theorem safe_execRpoplpush (v : Segment) (d : Data) : wp (execRpoplpush v) d (Safe d) := by
  refine safe_key fun keyArg _ =>
    safe_bind (readOnly_eatString _ _) fun ⟨stringArg, _⟩ _ => safe_bind (readOnly_get _ _) fun o ho => ?_
  cases o with
  | none => exact safe_of_readOnly (.pure _) d
  | some m_list =>
    dsimp only
    cases m_list.getLast? with
    | none => exact safe_of_readOnly (.pure _) d
    | some result =>
      refine safe_getCreate fun other _ => ?_
      rw [wp_bind, wp_store, seqPost_ok, Finmap.insert_insert]
      obtain ⟨lk, hlk, -, -⟩ := exists_lookup_insert stringArg (result :: other) (lookup_of_get ho)
      refine safe_of_exec ((exec_bind_ok (exec_get_of_lookup hlk)).trans
        (exec_bind_ok (exec_storeListOrErase _ _ _))) fun h => ?_
      exact (h.insert _ (show Key.Inhabited (.list _) from List.cons_ne_nil _ _)).writeBack _ _

theorem safe_setStore (op : SetOperation) (v : Segment) (d : Data) : wp (setStore op v) d (Safe d) := by
  refine safe_bind (readOnly_checkArgumentCountAtLeast _ _) fun _ _ =>
    safe_bind (readOnly_eatString _ _) fun ⟨_, _⟩ _ => safe_bind (readOnly_executeSetOperation _ _) fun set _ =>
      safe_getCreate fun _ _ => ?_
  refine safe_of_exec (exec_bind_ok (exec_storeSetOrErase _ _ _)) fun h => ?_
  rw [writeBack_insert]
  exact h.writeBack _ _

theorem safe_randomElement (remove : Bool) (rand : Nat) (v : Segment) (d : Data) :
    wp (randomElement remove rand v) d (Safe d) := by
  refine safe_key fun _ _ => safe_bind (readOnly_get _ _) fun o _ => ?_
  cases o with
  | none => exact safe_of_readOnly (.pure _) d
  | some m_set =>
    dsimp only
    cases getRandomElement rand m_set with
    | none => exact safe_of_readOnly (.pure _) d
    | some result =>
      exact safe_of_exec (exec_bind_ok (exec_storeSetOrErase _ _ _)) fun h => h.writeBack _ _

end Afl.Net.Redis
