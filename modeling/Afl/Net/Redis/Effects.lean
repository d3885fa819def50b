import Afl.Net.Redis.Execute

/-!
# Effects of the building blocks

What argument reading, typed lookups and writes do to the database, and the commands that only query it.
-/

namespace Afl.Net.Redis

open Exec

@[simp] theorem hash_toKey (m_hash : Finmap fun _ : Bytes => Bytes) : KeyClass.hash.toKey m_hash = .hash m_hash := rfl

@[simp] theorem list_toKey (m_list : List Bytes) : KeyClass.list.toKey m_list = .list m_list := rfl

@[simp] theorem set_toKey (m_set : Finset Bytes) : KeyClass.set.toKey m_set = .set m_set := rfl

/-! ### Read-only parts -/

theorem readOnly_fail {α : Type} (msg : Bytes) : ReadOnly (fail msg : Db α) := .throw _

theorem readOnly_liftE {α : Type} (r : Except Exception α) : ReadOnly (liftE r) := by
  cases r with
  | ok a => exact .pure a
  | error e => exact .throw _

theorem readOnly_checkArgumentCount (v : Segment) (need : Nat) : ReadOnly (checkArgumentCount v need) :=
  .ite (readOnly_fail _) (.pure _)

theorem readOnly_checkArgumentCountAtLeast (v : Segment) (need : Nat) :
    ReadOnly (checkArgumentCountAtLeast v need) :=
  .ite (readOnly_fail _) (.pure _)

theorem readOnly_checked (i : Int) : ReadOnly (checked i) := .ite (.pure _) (.throw _)

theorem readOnly_eatString (v : Segment) (value : Bytes) : ReadOnly (eatString v value) := by
  cases v with
  | nil => exact .pure _
  | cons x v => exact .bind (readOnly_liftE _) fun _ => .pure _

theorem readOnly_eatInteger (v : Segment) (value : Int32) : ReadOnly (eatInteger v value) := by
  cases v with
  | nil => exact .pure _
  | cons x v => exact .bind (readOnly_liftE _) fun _ => .pure _

theorem readOnly_eatEach {α : Type} {body : Bytes → α → Db α} (hbody : ∀ s acc, ReadOnly (body s acc))
    (v : Segment) (value : Bytes) (acc : α) : ReadOnly (eatEach body v value acc) := by
  induction v generalizing value acc with
  | nil => exact .pure _
  | cons x v ih => exact .bind (readOnly_liftE _) fun s => .bind (hbody s acc) fun acc => ih s acc

variable {τ : Type}

theorem exec_get_key (cast : Key → Option τ) (name : Bytes) (d : Data) :
    exec (get cast name) d =
      match d.lookup name with
      | none => (.ok none, d)
      | some k =>
        match cast k with
        | none => (.error (.thrown (remoteError INVALID_TYPE)), d)
        | some t => (.ok (some t), d) := by
  unfold get
  rw [exec_bind_ok (exec_get d)]
  cases d.lookup name with
  | none => rfl
  | some k =>
    dsimp only
    cases cast k <;> rfl

theorem readOnly_get (cast : Key → Option τ) (name : Bytes) : ReadOnly (get cast name) := by
  intro d
  rw [exec_get_key]
  cases d.lookup name with
  | none => rfl
  | some k =>
    dsimp only
    cases cast k <;> rfl

variable {name : Bytes}

variable {d : Data}

theorem exists_lookup_of_get {cast : Key → Option τ} {t : τ}
    (h : exec (get cast name) d = (.ok (some t), d)) : ∃ k, d.lookup name = some k ∧ cast k = some t := by
  rw [exec_get_key] at h
  cases hk : d.lookup name with
  | none => simp [hk] at h
  | some k =>
    cases hc : cast k with
    | none => simp [hk, hc] at h
    | some t' =>
      simp only [hk, hc, Prod.mk.injEq, Except.ok.injEq, Option.some.injEq, and_true] at h
      exact ⟨k, rfl, h ▸ hc⟩

variable {T : KeyClass τ}

theorem lookup_of_get {t : τ}
    (h : exec (get T.dynamicCast name) d = (.ok (some t), d)) : d.lookup name = some (T.toKey t) := by
  obtain ⟨k, hk, hcast⟩ := exists_lookup_of_get h
  rw [hk, T.eq_toKey hcast]

theorem lookup_of_get_error {cast : Key → Option τ} {e : Failure}
    (h : exec (get cast name) d = (.error e, d)) : ∃ k, d.lookup name = some k ∧ cast k = none := by
  rw [exec_get_key] at h
  cases hk : d.lookup name with
  | none => simp [hk] at h
  | some k =>
    cases hc : cast k with
    | none => exact ⟨k, rfl, hc⟩
    | some t => simp [hk, hc] at h

theorem lookup_of_get_none {cast : Key → Option τ}
    (h : exec (get cast name) d = (.ok none, d)) : d.lookup name = none := by
  rw [exec_get_key] at h
  cases hk : d.lookup name with
  | none => rfl
  | some k =>
    cases hc : cast k <;> simp [hk, hc] at h

theorem readOnly_convertIndex (m_list : List Bytes) (n : Int32) : ReadOnly (convertIndex m_list n) :=
  .ite (.pure _) (.bind (readOnly_checked _) fun _ => .pure _)

theorem readOnly_getOperand (key : Bytes) : ReadOnly (getOperand key) :=
  .bind (readOnly_get _ _) fun o => by cases o <;> exact .pure _

theorem readOnly_executeSetOperation (op : SetOperation) (v : Segment) :
    ReadOnly (executeSetOperation op v) :=
  .bind (readOnly_eatString _ _) fun _ => .bind (readOnly_getOperand _) fun _ =>
    readOnly_eatEach (fun _ _ => .bind (readOnly_getOperand _) fun _ => .pure _) _ _ _

theorem readOnly_vectorAt (xs : List Bytes) (i : Int) : ReadOnly (vectorAt xs i) := by
  refine .ite (.throw _) ?_
  cases xs[i.toNat]? with
  | none => exact .throw _
  | some x => exact .pure _

theorem readOnly_outputLoop (get originValues : List Bytes) (count : Nat) (i : Int) (out : Segment) :
    ReadOnly (outputLoop get originValues count i out) := by
  induction count generalizing i out with
  | zero => exact .pure _
  | succ count ih =>
    exact .ite (.bind (readOnly_vectorAt _ _) fun _ => .bind .get fun _ => ih _ _) (.pure _)

/-! ### Queries -/

theorem readOnly_key {α : Type} {v : Segment} {need : Nat} {f : Bytes × Segment → Db α}
    (hf : ∀ keyArg v, ReadOnly (f (keyArg, v))) :
    ReadOnly (checkArgumentCount v need >>= fun _ => eatString v [] >>= f) :=
  .bind (readOnly_checkArgumentCount _ _) fun _ => .bind (readOnly_eatString _ _) fun ⟨keyArg, v⟩ => hf keyArg v

theorem readOnly_execGet (v : Segment) : ReadOnly (execGet v) :=
  readOnly_key fun _ _ => .bind (readOnly_get _ _) fun o => by cases o <;> exact .pure _

theorem readOnly_fromEnd (m_string : Bytes) (i : Int32) : ReadOnly (fromEnd m_string i) :=
  .ite (readOnly_checked _) (.pure _)

theorem readOnly_execGetrange (v : Segment) : ReadOnly (execGetrange v) := by
  refine readOnly_key fun _ _ =>
    .bind (readOnly_eatInteger _ _) fun ⟨_, _⟩ => .bind (readOnly_eatInteger _ _) fun ⟨_, _⟩ =>
    .bind (readOnly_get _ _) fun o => ?_
  cases o with
  | none => exact .pure _
  | some m_string =>
    exact .bind (readOnly_fromEnd _ _) fun _ => .bind (readOnly_fromEnd _ _) fun _ =>
      .bind (readOnly_checked _) fun _ => .pure _

theorem readOnly_execStrlen (v : Segment) : ReadOnly (execStrlen v) :=
  readOnly_key fun _ _ => .bind (readOnly_get _ _) fun o => by cases o <;> exact .pure _

theorem readOnly_execExists (v : Segment) : ReadOnly (execExists v) :=
  .bind (readOnly_eatEach (fun _ _ => .bind .get fun _ => .pure _) _ _ _) fun _ => .pure _

theorem readOnly_execKeys (v : Segment) : ReadOnly (execKeys v) :=
  readOnly_key fun _ _ => .bind .get fun _ => .pure _

theorem readOnly_execType (v : Segment) : ReadOnly (execType v) :=
  readOnly_key fun _ _ => .bind (readOnly_get _ _) fun o => by cases o <;> exact .pure _

/-- The queries that go through their arguments. -/
theorem readOnly_hashLoops (v : Segment) : ReadOnly (execHexists v) ∧ ReadOnly (execHmget v) := by
  constructor <;>
    refine .bind (readOnly_checkArgumentCountAtLeast _ _) fun _ => .bind (readOnly_eatString _ _) fun ⟨_, _⟩ =>
      .bind (readOnly_get _ _) fun o => ?_
  all_goals
    cases o with
    | none => exact .pure _
    | some m_hash => exact .bind (readOnly_eatEach (fun _ _ => .pure _) _ _ _) fun _ => .pure _

theorem readOnly_execHget (v : Segment) : ReadOnly (execHget v) := by
  refine readOnly_key fun _ _ => .bind (readOnly_eatString _ _) fun ⟨_, _⟩ => .bind (readOnly_get _ _) fun o => ?_
  cases o with
  | none => exact .pure _
  | some m_hash =>
    dsimp only
    split
    · exact .pure _
    · exact .pure _

theorem readOnly_listHash (entry : Bytes × Bytes → Segment) (v : Segment) : ReadOnly (listHash entry v) :=
  readOnly_key fun _ _ => .bind (readOnly_get _ _) fun o => by cases o <;> exact .pure _

theorem readOnly_execHlen (v : Segment) : ReadOnly (execHlen v) :=
  readOnly_key fun _ _ => .bind (readOnly_get _ _) fun o => by cases o <;> exact .pure _

theorem readOnly_execLindex (v : Segment) : ReadOnly (execLindex v) := by
  refine readOnly_key fun _ _ => .bind (readOnly_eatInteger _ _) fun ⟨_, _⟩ => .bind (readOnly_get _ _) fun o => ?_
  cases o with
  | none => exact .pure _
  | some m_list =>
    refine .bind (readOnly_convertIndex _ _) fun n => ?_
    split
    · exact .pure _
    · exact .pure _

theorem readOnly_execLlen (v : Segment) : ReadOnly (execLlen v) :=
  readOnly_key fun _ _ => .bind (readOnly_get _ _) fun o => by cases o <;> exact .pure _

theorem readOnly_execLrange (v : Segment) : ReadOnly (execLrange v) := by
  refine readOnly_key fun _ _ =>
    .bind (readOnly_eatInteger _ _) fun ⟨_, _⟩ => .bind (readOnly_eatInteger _ _) fun ⟨_, _⟩ =>
    .bind (readOnly_get _ _) fun o => ?_
  cases o with
  | none => exact .pure _
  | some m_list =>
    exact .bind (readOnly_convertIndex _ _) fun _ => .bind (readOnly_convertIndex _ _) fun _ => .pure _

theorem readOnly_execScard (v : Segment) : ReadOnly (execScard v) :=
  readOnly_key fun _ _ => .bind (readOnly_get _ _) fun o => by cases o <;> exact .pure _

theorem readOnly_setQuery (op : SetOperation) (v : Segment) : ReadOnly (setQuery op v) :=
  .bind (readOnly_checkArgumentCountAtLeast _ _) fun _ =>
    .bind (readOnly_executeSetOperation _ _) fun _ => .pure _

theorem readOnly_execSismember (v : Segment) : ReadOnly (execSismember v) :=
  readOnly_key fun _ _ => .bind (readOnly_eatString _ _) fun ⟨_, _⟩ => .bind (readOnly_get _ _) fun o => by
      cases o <;> exact .pure _

theorem readOnly_execSmembers (v : Segment) : ReadOnly (execSmembers v) :=
  readOnly_key fun _ _ => .bind (readOnly_get _ _) fun o => by cases o <;> exact .pure _

/-! ### Creating a key -/

@[simp] theorem exec_store (T : KeyClass τ) (name : Bytes) (t : τ) (d : Data) :
    exec (store T name t) d = (.ok (), d.insert name (T.toKey t)) := rfl

@[simp] theorem exec_erase (name : Bytes) (d : Data) : exec (erase name) d = (.ok (), d.erase name) := rfl

@[simp] theorem wp_store (T : KeyClass τ) (name : Bytes) (t : τ) (d : Data) (Q : Except Failure Unit → Data → Prop) :
    wp (store T name t) d Q ↔ Q (.ok ()) (d.insert name (T.toKey t)) := Iff.rfl

/-- `getCreate` succeeds: the key was there with content `t`, or it is new; both ways the database is now
`d` with `t` written under the name. -/
theorem exec_getCreate {t : τ} (h : d.lookup name = some (T.toKey t) ∨ d.lookup name = none ∧ t = T.new) :
    exec (getCreate T name) d = (.ok t, d.insert name (T.toKey t)) := by
  unfold getCreate
  rcases h with h | ⟨h, rfl⟩
  · have hget : exec (get T.dynamicCast name) d = (.ok (some t), d) := by
      rw [exec_get_key, h]
      dsimp only
      rw [T.cast_toKey]
    rw [exec_bind_ok hget, Finmap.insert_of_lookup h]
    rfl
  · have hget : exec (get T.dynamicCast name) d = (.ok none, d) := by rw [exec_get_key, h]
    rw [exec_bind_ok hget]
    rfl

theorem exec_getCreate_error {k : Key} (h : d.lookup name = some k) (hcast : T.dynamicCast k = none) :
    exec (getCreate T name) d = (.error (.thrown (remoteError INVALID_TYPE)), d) := by
  have hget : exec (get T.dynamicCast name) d = (.error (.thrown (remoteError INVALID_TYPE)), d) := by
    rw [exec_get_key, h]
    dsimp only
    rw [hcast]
  exact exec_bind_error hget

theorem exists_exec_getCreate (h : ∀ k, d.lookup name = some k → T.dynamicCast k ≠ none) :
    ∃ t, exec (getCreate T name) d = (.ok t, d.insert name (T.toKey t)) := by
  cases hl : d.lookup name with
  | none => exact ⟨T.new, exec_getCreate (.inr ⟨hl, rfl⟩)⟩
  | some k =>
    obtain ⟨t, ht⟩ := Option.ne_none_iff_exists'.mp (h k hl)
    exact ⟨t, exec_getCreate (.inl (by rw [hl, T.eq_toKey ht]))⟩

theorem wp_getCreate {Q : Except Failure τ → Data → Prop} (hthrow : ∀ e, Q (.error (.thrown e)) d)
    (hok : ∀ t, d.lookup name = some (T.toKey t) ∨ d.lookup name = none ∧ t = T.new →
      Q (.ok t) (d.insert name (T.toKey t))) : wp (getCreate T name) d Q := by
  unfold wp
  cases hl : d.lookup name with
  | none =>
    rw [exec_getCreate (.inr ⟨hl, rfl⟩)]
    exact hok _ (.inr ⟨hl, rfl⟩)
  | some k =>
    cases hc : T.dynamicCast k with
    | none =>
      rw [exec_getCreate_error hl hc]
      exact hthrow _
    | some t =>
      have hk : d.lookup name = some (T.toKey t) := by rw [hl, T.eq_toKey hc]
      rw [exec_getCreate (.inl hk)]
      exact hok t (.inl hk)

end Afl.Net.Redis
