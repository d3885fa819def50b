import Afl.Net.Redis.Verdict

/-!
# Commands that remove or add members one by one

The verdicts on `DEL`, `HDEL`, `SREM`, `LPUSH`, `RPUSH`, `SADD`, `HMSET` and `MSET`. `verdict_shrink` and
`verdict_extend` treat the loop over the arguments once for all of them.
-/

namespace Afl.Net.Redis

open Exec

/-! ### Commands that remove members -/

variable {d : Data}

theorem delRound_step (seen : List Bytes) (s : Bytes) (n : Nat) (d' : Data) (h : d' = d.eraseAll seen) :
    ∃ n' d'', exec (delRound s n) d' = (.ok n', d'') ∧ d'' = d.eraseAll (seen ++ [s]) := by
  subst h
  unfold delRound
  rw [exec_bind_ok (exec_get _), Finmap.eraseAll_concat]
  cases hs : (d.eraseAll seen).lookup s with
  | none => exact ⟨n, _, rfl, (Finmap.erase_of_lookup_none hs).symm⟩
  | some k => exact ⟨n + 1, _, rfl, rfl⟩

theorem verdict_execDel (v : Segment) (d : Data) : Verdict (execDel v) d (Torn d .del v) False := by
  obtain ⟨n, _, rfl, hexec⟩ := exec_eatEach_bind (I := fun seen _ d' => d' = d.eraseAll seen) delRound_step v []
    (show d = d.eraseAll [] from rfl)
  replace hexec : exec (execDel v) d = _ := hexec _
  have hne : d.eraseAll (eaten v []).1 ≠ d ↔ ∃ key ∈ (eaten v []).1, d.lookup key ≠ none := by
    rw [Ne, Finmap.eraseAll_eq_self_iff]
    push Not
    rfl
  have hempty : NoEmptyContainer d → NoEmptyContainer (d.eraseAll (eaten v []).1) := by
    intro hd name k hk
    rw [Finmap.lookup_eraseAll] at hk
    split at hk
    · cases hk
    · exact hd name k hk
  refine ⟨?_, fun _ hd => ?_⟩
  · rw [hexec, Torn, ← hne]
    cases (eaten v []).2 with
    | none => simp
    | some e => simp
  · rw [hexec]
    cases (eaten v []).2 <;> simpa using hempty hd

variable {keyArg : Bytes}

theorem hdelRound_step {m_hash : Finmap fun _ : Bytes => Bytes}
    (seen : List Bytes) (s : Bytes) (acc : (Finmap fun _ : Bytes => Bytes) × Nat) (d' : Data)
    (h : acc.1 = m_hash.eraseAll seen ∧ d' = d.insert keyArg (.hash acc.1)) :
    ∃ acc' d'', exec (hdelRound keyArg s acc) d' = (.ok acc', d'') ∧
      acc'.1 = m_hash.eraseAll (seen ++ [s]) ∧ d'' = d.insert keyArg (.hash acc'.1) := by
  obtain ⟨hacc, rfl⟩ := h
  unfold hdelRound
  rw [Finmap.eraseAll_concat, ← hacc]
  cases hs : acc.1.lookup s with
  | none => exact ⟨acc, _, rfl, (Finmap.erase_of_lookup_none hs).symm, rfl⟩
  | some value => exact ⟨(acc.1.erase s, acc.2 + 1), _, rfl, rfl, Finmap.insert_insert _⟩

theorem KeyClass.toKey_injective {τ : Type} (T : KeyClass τ) : Function.Injective T.toKey := by
  intro t u h
  have hcast := congrArg T.dynamicCast h
  rwa [T.cast_toKey, T.cast_toKey, Option.some.injEq] at hcast

/-- A loop that shrinks the container stored under `key`, followed by the removal of an empty one. `shrink`
gives the container after the arguments seen so far. -/
theorem verdict_shrink {τ α : Type} {T : KeyClass τ} {key : Bytes} {round : Bytes → α → Db α}
    (content : α → τ) (shrink : List Bytes → τ) {f : α → Db Value}
    (hround : ∀ seen s acc d', content acc = shrink seen ∧ d' = d.insert key (T.toKey (content acc)) →
      ∃ acc' d'', exec (round s acc) d' = (.ok acc', d'') ∧
        content acc' = shrink (seen ++ [s]) ∧ d'' = d.insert key (T.toKey (content acc')))
    (hf : ∀ acc, ∃ a, exec (f acc) (d.insert key (T.toKey (content acc))) =
      (.ok a, writeBack d key (T.toKey (content acc))))
    (rest : Segment) (acc : α) (hacc : content acc = shrink [])
    (hlookup : d.lookup key = some (T.toKey (content acc))) :
    Verdict (eatEach round rest [] acc >>= f) d
      ((eaten rest []).2 ≠ none ∧ shrink (eaten rest []).1 ≠ content acc)
      ((eaten rest []).2 ≠ none ∧ ¬(T.toKey (shrink (eaten rest []).1)).Inhabited) := by
  obtain ⟨acc', _, ⟨hacc', rfl⟩, hexec⟩ :=
    exec_eatEach_bind hround rest [] ⟨hacc, (Finmap.insert_of_lookup hlookup).symm⟩
  obtain ⟨a, ha⟩ := hf acc'
  refine (verdict_writeBack key (k := T.toKey (content acc')) (e := (eaten rest []).2) (a := a)
    ?_).congr ?_ fun _ => ?_
  · rw [hexec f]
    cases (eaten rest []).2 with
    | none => exact ha
    | some e => rfl
  · rw [hlookup, hacc', (Option.some_injective _).ne_iff, T.toKey_injective.ne_iff,
      ne_comm (a := content acc)]
  · rw [hacc']

theorem verdict_execHdel (S : StdSort) (v : Segment) (d : Data) :
    Verdict (execHdel v) d (Torn d .hdel v) (LeavesEmpty S d .hdel v) := by
  refine verdict_atLeast (le_refl _) (fun key rest _ hfirst => ?_) ?_
  · refine verdict_get (fun hnone => ?_) (fun m_hash hlookup => ?_) fun k hk hcast => ?_
    · refine (verdict_of_safe (safe_of_readOnly (.pure _) d)).congr ?_ fun _ => ?_
      · simp [Torn, hfirst, hnone]
      · simp [LeavesEmpty, hfirst, hnone]
    · refine (verdict_shrink (T := .hash) Prod.fst m_hash.eraseAll hdelRound_step (fun acc => ?_) rest (m_hash, 0) rfl
        hlookup).congr ?_ fun _ => ?_
      · exact ⟨_, exec_bind_ok (exec_eraseIf _ (by simp [Key.Inhabited]))⟩
      · simp [Torn, hfirst, hlookup, Finmap.eraseAll_eq_self_iff]
      · rw [hash_toKey, Key.Inhabited, not_not, Finmap.eraseAll_eq_empty_iff]
        simp [LeavesEmpty, hfirst, hlookup]
    · constructor <;> rintro ⟨_, _, _, hf, hl, -⟩ <;> cases hfirst.symm.trans hf <;>
        cases hk.symm.trans hl <;> cases hcast
  · rintro (hlen | hnone)
    · have hv : v = [] := List.length_eq_zero_iff.mp (by omega)
      subst hv
      constructor <;> rintro ⟨_, _, _, hf, -⟩ <;> cases hf
    · constructor <;> rintro ⟨_, _, _, hf, -⟩ <;> cases hnone.symm.trans hf

theorem sremRound_step {m_set : Finset Bytes} (seen : List Bytes) (s : Bytes) (acc : Finset Bytes × Nat) (d' : Data)
    (h : acc.1 = m_set \ seen.toFinset ∧ d' = d.insert keyArg (.set acc.1)) :
    ∃ acc' d'', exec (sremRound keyArg s acc) d' = (.ok acc', d'') ∧
      acc'.1 = m_set \ (seen ++ [s]).toFinset ∧ d'' = d.insert keyArg (.set acc'.1) := by
  obtain ⟨hacc, rfl⟩ := h
  have herase : m_set \ (seen ++ [s]).toFinset = acc.1.erase s := by
    rw [hacc]
    ext t
    simp only [List.toFinset_append, List.toFinset_cons, List.toFinset_nil, insert_empty_eq,
      Finset.mem_sdiff, Finset.mem_union, Finset.mem_singleton, Finset.mem_erase]
    tauto
  unfold sremRound
  rw [herase]
  split
  · exact ⟨(acc.1.erase s, acc.2 + 1), _, rfl, rfl, Finmap.insert_insert _⟩
  · rename_i hs
    exact ⟨acc, _, rfl, (Finset.erase_eq_of_notMem hs).symm, rfl⟩

theorem verdict_execSrem (S : StdSort) (v : Segment) (d : Data) :
    Verdict (execSrem v) d (Torn d .srem v) (LeavesEmpty S d .srem v) := by
  refine verdict_atLeast (by decide) (fun key rest hlen hfirst => ?_) ?_
  · refine verdict_get (fun hnone => ?_) (fun m_set hlookup => ?_) fun k hk hcast => ?_
    · refine (verdict_of_safe (safe_of_readOnly (.pure _) d)).congr ?_ fun _ => ?_
      · simp [Torn, hfirst, hnone]
      · simp [LeavesEmpty, hfirst, hnone]
    · refine (verdict_shrink (T := .set) Prod.fst (fun seen => m_set \ seen.toFinset) sremRound_step (fun acc => ?_) rest
        (m_set, 0) (by simp) hlookup).congr ?_ fun _ => ?_
      · exact ⟨_, exec_bind_ok (exec_eraseIf _ (by simp [Key.Inhabited]))⟩
      · simp [Torn, hfirst, hlookup, hlen, sdiff_eq_left, Finset.disjoint_right]
      · rw [set_toKey, Key.Inhabited, not_not, Finset.sdiff_eq_empty_iff_subset, Finset.subset_iff]
        simp [LeavesEmpty, hfirst, hlookup, hlen]
    · constructor <;> rintro ⟨_, _, _, -, hf, hl, -⟩ <;> cases hfirst.symm.trans hf <;>
        cases hk.symm.trans hl <;> cases hcast
  · rintro (hlen | hnone)
    · constructor <;> rintro ⟨_, _, _, hlen', -⟩ <;> omega
    · constructor <;> rintro ⟨_, _, _, -, hf, -⟩ <;> cases hnone.symm.trans hf

/-! ### Commands that add members -/

/-- A loop that extends the container under `key`, created first if the key is missing. `extend` gives the
container after the arguments seen so far; it is inhabited as soon as there was one. -/
theorem verdict_extend {τ α : Type} {T : KeyClass τ} {key : Bytes} {round : Bytes → α → Db α}
    (content : α → τ) (start : τ → α) (extend : τ → List Bytes → τ) {f : α → Db Value} {torn leavesEmpty : Prop}
    (hround : ∀ t seen s acc d', content acc = extend t seen ∧ d' = d.insert key (T.toKey (content acc)) →
      ∃ acc' d'', exec (round s acc) d' = (.ok acc', d'') ∧
        content acc' = extend t (seen ++ [s]) ∧ d'' = d.insert key (T.toKey (content acc')))
    (hf : ∀ acc d', ∃ a, exec (f acc) d' = (.ok a, d')) (rest : Segment)
    (hstart : ∀ t, content (start t) = t ∧ extend t [] = t)
    (hinhabited : ∀ t seen, (T.toKey (extend t seen)).Inhabited ↔ seen ≠ [] ∨ (T.toKey t).Inhabited)
    (hnew : ¬(T.toKey T.new).Inhabited)
    (hnone : d.lookup key = none → ((eaten rest []).2 ≠ none ↔ torn) ∧ ((eaten rest []).1 = [] ↔ leavesEmpty))
    (hsome : ∀ t, d.lookup key = some (T.toKey t) →
      ((eaten rest []).2 ≠ none ∧ extend t (eaten rest []).1 ≠ t ↔ torn) ∧ ¬leavesEmpty)
    (hother : ∀ k, d.lookup key = some k → T.dynamicCast k = none → ¬torn ∧ ¬leavesEmpty) :
    Verdict (getCreate T key >>= fun t => eatEach round rest [] (start t) >>= f) d torn leavesEmpty := by
  refine verdict_getCreate (e := (eaten rest []).2) (fun t ht => ?_) hother
  obtain ⟨acc, _, ⟨hacc, rfl⟩, hexec⟩ := exec_eatEach_bind (hround t) rest []
    ⟨(hstart t).1.trans (hstart t).2.symm, congrArg (fun u => d.insert key (T.toKey u)) (hstart t).1.symm⟩
  obtain ⟨a, ha⟩ := hf acc (d.insert key (T.toKey (content acc)))
  refine ⟨a, content acc, ?_, ?_, fun hd => ?_⟩
  · rw [hexec f]
    cases (eaten rest []).2 with
    | none => exact ha
    | some e => rfl
  · rcases ht with ht | ⟨ht, -⟩
    · rw [← (hsome t ht).1, ht, hacc, (Option.some_injective _).ne_iff, T.toKey_injective.ne_iff, ne_comm (a := t)]
    · rw [← (hnone ht).1, ht]
      simp
  · rw [hacc, hinhabited]
    rcases ht with ht | ⟨ht, rfl⟩
    · exact iff_of_false (fun h => h (.inr (hd key _ ht))) (hsome t ht).2
    · rw [← (hnone ht).2]
      simp [hnew]

theorem pushRound_step {push : List Bytes → Bytes → List Bytes} (t : List Bytes)
    (seen : List Bytes) (s : Bytes) (acc : List Bytes) (d' : Data)
    (h : id acc = seen.foldl push t ∧ d' = d.insert keyArg (.list (id acc))) :
    ∃ acc' d'', exec (pushRound push keyArg s acc) d' = (.ok acc', d'') ∧
      id acc' = (seen ++ [s]).foldl push t ∧ d'' = d.insert keyArg (.list (id acc')) := by
  obtain ⟨hacc, rfl⟩ := h
  refine ⟨push acc s, _, rfl, ?_, Finmap.insert_insert _⟩
  rw [List.foldl_append, ← hacc]
  rfl

theorem length_foldl_push {push : List Bytes → Bytes → List Bytes}
    (hpush : ∀ m_list s, (push m_list s).length = m_list.length + 1) (seen m_list : List Bytes) :
    (seen.foldl push m_list).length = m_list.length + seen.length := by
  induction seen generalizing m_list with
  | nil => rfl
  | cons s seen ih =>
    rw [List.foldl_cons, ih, hpush, List.length_cons]
    omega

theorem verdict_pushAll (S : StdSort) {push : List Bytes → Bytes → List Bytes}
    (hpush : ∀ m_list s, (push m_list s).length = m_list.length + 1) (v : Segment) (d : Data) :
    Verdict (pushAll push v) d (Torn d .lpush v) (LeavesEmpty S d .lpush v) := by
  refine verdict_atLeast (by decide) (fun key rest hlen hfirst => ?_) ?_
  · refine verdict_extend (T := .list) id id (fun t seen => seen.foldl push t) pushRound_step (fun acc d' => ⟨_, rfl⟩) rest (fun t => ⟨rfl, rfl⟩) (fun t seen => ?_) (by simp [KeyClass.list, Key.Inhabited])
      (fun hnone => ?_) (fun t ht => ?_) fun k hk hcast => ?_
    · have h := length_foldl_push hpush seen t
      simp only [list_toKey, Key.Inhabited, ne_eq, ← List.length_eq_zero_iff]
      omega
    · simp [Torn, LeavesEmpty, hfirst, hnone, hlen]
    · have h := length_foldl_push hpush (eaten rest []).1 t
      have hne : (eaten rest []).1.foldl push t ≠ t ↔ (eaten rest []).1 ≠ [] := by
        refine ⟨fun hne hnil => hne (by rw [hnil]; rfl), fun hne heq => hne ?_⟩
        rw [heq] at h
        exact List.length_eq_zero_iff.mp (by omega)
      simp [Torn, LeavesEmpty, hfirst, ht, hlen, hne]
    · constructor
      · rintro ⟨_, _, -, hf, -, hl⟩
        cases hfirst.symm.trans hf
        rcases hl with hl | ⟨⟨m_list, hl⟩, -⟩
        · cases hk.symm.trans hl
        · cases hk.symm.trans hl
          cases hcast
      · rintro ⟨_, _, -, hf, hl, -⟩
        cases hfirst.symm.trans hf
        cases hk.symm.trans hl
  · rintro (hlen | hnone)
    · constructor <;> rintro ⟨_, _, hlen', -⟩ <;> omega
    · constructor <;> rintro ⟨_, _, -, hf, -⟩ <;> cases hnone.symm.trans hf

theorem saddRound_step (m_set : Finset Bytes) (seen : List Bytes) (s : Bytes) (acc : Finset Bytes × Nat) (d' : Data)
    (h : acc.1 = m_set ∪ seen.toFinset ∧ d' = d.insert keyArg (.set acc.1)) :
    ∃ acc' d'', exec (saddRound keyArg s acc) d' = (.ok acc', d'') ∧
      acc'.1 = m_set ∪ (seen ++ [s]).toFinset ∧ d'' = d.insert keyArg (.set acc'.1) := by
  obtain ⟨hacc, rfl⟩ := h
  have hinsert : m_set ∪ (seen ++ [s]).toFinset = insert s acc.1 := by
    rw [hacc]
    ext t
    simp only [List.toFinset_append, List.toFinset_cons, List.toFinset_nil, insert_empty_eq,
      Finset.mem_union, Finset.mem_singleton, Finset.mem_insert]
    tauto
  unfold saddRound
  rw [hinsert]
  split
  · rename_i hs
    exact ⟨acc, _, rfl, (Finset.insert_eq_of_mem hs).symm, rfl⟩
  · exact ⟨(insert s acc.1, acc.2 + 1), _, rfl, rfl, Finmap.insert_insert _⟩

theorem verdict_execSadd (S : StdSort) (v : Segment) (d : Data) :
    Verdict (execSadd v) d (Torn d .sadd v) (LeavesEmpty S d .sadd v) := by
  refine verdict_atLeast (by decide) (fun key rest hlen hfirst => ?_) ?_
  · refine verdict_extend (T := .set) Prod.fst (fun t => (t, 0)) (fun t seen => t ∪ seen.toFinset) saddRound_step
      (fun acc d' => ⟨_, rfl⟩) rest (fun t => ⟨rfl, by simp⟩) (fun t seen => ?_)
      (by simp [KeyClass.set, Key.Inhabited]) (fun hnone => ?_) (fun t ht => ?_) fun k hk hcast => ?_
    · simp only [set_toKey, Key.Inhabited, ne_eq, Finset.union_eq_empty, List.toFinset_eq_empty_iff]
      tauto
    · simp [Torn, LeavesEmpty, hfirst, hnone, hlen]
    · simp [Torn, LeavesEmpty, hfirst, ht, hlen, Finset.union_eq_left, Finset.subset_iff]
    · constructor
      · rintro ⟨_, _, -, hf, -, hl⟩
        cases hfirst.symm.trans hf
        rcases hl with hl | ⟨m_set, hl, -⟩
        · cases hk.symm.trans hl
        · cases hk.symm.trans hl
          cases hcast
      · rintro ⟨_, _, -, hf, hl, -⟩
        cases hfirst.symm.trans hf
        cases hk.symm.trans hl
  · rintro (hlen | hnone)
    · constructor <;> rintro ⟨_, _, hlen', -⟩ <;> omega
    · constructor <;> rintro ⟨_, _, -, hf, -⟩ <;> cases hnone.symm.trans hf

/-! ### Commands that assign pairs -/

theorem assignField_step {m_hash : Finmap fun _ : Bytes => Bytes}
    (seen : List (Bytes × Bytes)) (p : Bytes × Bytes) (d' : Data)
    (h : d' = d.insert keyArg (.hash (assignFields m_hash seen))) :
    ∃ d'', exec (assignField keyArg p.1 p.2) d' = (.ok (), d'') ∧
      d'' = d.insert keyArg (.hash (assignFields m_hash (seen ++ [p]))) := by
  subst h
  have hcreate := exec_getCreate (T := .hash) (t := assignFields m_hash seen)
    (.inl (Finmap.lookup_insert (a := keyArg) (b := Key.hash (assignFields m_hash seen)) d))
  refine ⟨d.insert keyArg (.hash ((assignFields m_hash seen).insert p.1 p.2)), ?_, ?_⟩
  · unfold assignField
    rw [exec_bind_ok hcreate, exec_store, Finmap.insert_insert, Finmap.insert_insert, hash_toKey]
  · rw [assignFields, assignFields, List.foldl_append]
    rfl

theorem assignFields_inhabited (m_hash : Finmap fun _ : Bytes => Bytes) (pairs : List (Bytes × Bytes)) :
    (Key.hash (assignFields m_hash pairs)).Inhabited ↔ pairs ≠ [] ∨ m_hash ≠ ∅ := by
  induction pairs using List.reverseRecOn with
  | nil => simp [assignFields, Key.Inhabited]
  | append_singleton pairs p ih =>
    simp [assignFields, Key.Inhabited, Finmap.insert_ne_empty]

theorem verdict_execHmset (S : StdSort) (v : Segment) (d : Data) :
    Verdict (execHmset v) d (Torn d .hmset v) (LeavesEmpty S d .hmset v) := by
  refine verdict_bind (readOnly_checkParity _ _) (fun _ hcheck => ?_) fun e he => ?_
  · have hparity := parity_of_checkParity hcheck
    have hv : v ≠ [] := by
      rintro rfl
      simp at hparity
    refine verdict_bind (readOnly_eatString _ _) (fun ⟨key, rest⟩ hkey => ?_) fun e he => ?_
    · have hfirst := firstArg_of_eatString hv hkey
      refine verdict_getCreate (e := (eatenPairs rest [] []).2) (fun m_hash hm => ?_) fun k hk hcast => ?_
      · obtain ⟨_, rfl, hexec⟩ := exec_eatEachPair_bind
          (I := fun seen d' => d' = d.insert key (.hash (assignFields m_hash seen)))
          assignField_step rest (d := d.insert key (.hash m_hash)) rfl (Value.string (lit "OK"))
        refine ⟨_, assignFields m_hash (eatenPairs rest [] []).1, hexec, ?_, fun hd => ?_⟩
        · rcases hm with hm | ⟨hm, rfl⟩
          · rw [hm, (Option.some_injective _).ne_iff, KeyClass.hash.toKey_injective.ne_iff, ne_comm (a := m_hash)]
            simp [Torn, hfirst, hparity, hm]
          · simp [Torn, hfirst, hparity, hm]
        · rw [hash_toKey, assignFields_inhabited]
          rcases hm with hm | ⟨hm, rfl⟩
          · have hinhabited : m_hash ≠ ∅ := hd key _ hm
            simp [LeavesEmpty, hfirst, hm, hinhabited]
          · simp [LeavesEmpty, hfirst, hparity, hm, KeyClass.hash]
      · constructor
        · rintro ⟨_, _, -, hf, -, hl⟩
          cases hfirst.symm.trans hf
          rcases hl with hl | ⟨m_set, hl, -⟩
          · cases hk.symm.trans hl
          · cases hk.symm.trans hl
            cases hcast
        · rintro ⟨_, _, -, hf, hl, -⟩
          cases hfirst.symm.trans hf
          cases hk.symm.trans hl
    · have hnone := firstArg_of_eatString_error he
      constructor <;> rintro ⟨_, _, -, hf, -⟩ <;> cases hnone.symm.trans hf
  · have hparity := parity_of_checkParity_error he
    constructor <;> rintro ⟨_, _, h, -⟩ <;> exact hparity h

theorem assign_step (seen : List (Bytes × Bytes)) (p : Bytes × Bytes) (d' : Data) (h : d' = assignKeys d seen) :
    ∃ d'', exec (assign p.1 p.2) d' = (.ok (), d'') ∧ d'' = assignKeys d (seen ++ [p]) := by
  subst h
  refine ⟨_, exec_assign _ _ _, ?_⟩
  rw [assignKeys, assignKeys, List.foldl_append]
  rfl

theorem NoEmptyContainer.assignKeys (h : NoEmptyContainer d) (pairs : List (Bytes × Bytes)) :
    NoEmptyContainer (assignKeys d pairs) := by
  induction pairs generalizing d with
  | nil => exact h
  | cons p pairs ih => exact ih (h.insert p.1 (show Key.Inhabited (.string p.2) from trivial))

theorem verdict_execMset (v : Segment) (d : Data) : Verdict (execMset v) d (Torn d .mset v) False := by
  refine verdict_bind (readOnly_checkParity _ _) (fun _ hcheck => ?_) fun e he => ?_
  · have hparity := parity_of_checkParity hcheck
    obtain ⟨_, rfl, hexec⟩ := exec_eatEachPair_bind (I := fun seen d' => d' = assignKeys d seen) assign_step v
      (d := d) rfl (Value.string (lit "OK"))
    refine ⟨?_, fun _ hd => ?_⟩
    · rw [hexec]
      cases he : (eatenPairs v [] []).2 <;> simp [Torn, he, hparity]
    · rw [hexec]
      simpa using hd.assignKeys _
  · exact ⟨fun h => parity_of_checkParity_error he h.1, id⟩

end Afl.Net.Redis
