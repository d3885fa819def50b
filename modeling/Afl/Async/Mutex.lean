import Afl.Async.Operation

/-!
# The mutex

`afl/async/mutex.cpp`: a recursive mutex whose owners are controllers. When the owner gives it up, the mutex goes
to the controller of the first waiter together with everything else that controller waits for.
-/

set_option linter.unusedSectionVars false

namespace Afl.Async

variable {κ ω : Type} [DecidableEq κ] [DecidableEq ω]

/-- A mutex with the operations it knows of. -/
structure Mutex (κ ω : Type) where
  queue : Queue κ ω
  nestingLevel : UInt32
  owner : Option κ

namespace Mutex

def new : Mutex κ ω := ⟨⟨fun _ => none, [], [], fun _ => 0⟩, 0, none⟩

def waitAsync (ctl : κ) (op : ω) (s : Mutex κ ω) : Mutex κ ω :=
  if s.owner = some ctl then
    { s with queue := (s.queue.setController ctl op).notify op, nestingLevel := s.nestingLevel + 1 }
  else if s.owner = none then
    { queue := (s.queue.setController ctl op).notify op, nestingLevel := 1, owner := some ctl }
  else { s with queue := (s.queue.setController ctl op).pushBack op }

/-- The loop of `post` over the new owner's other operations. There are no more turns than waiters. -/
def grantNested (newOwner : Option κ) : Nat → Mutex κ ω → Mutex κ ω
  | 0, s => s
  | fuel + 1, s =>
    match Queue.extractByController s.queue.controller newOwner s.queue.waiters with
    | none => s
    | some (op2, waiters) =>
      grantNested newOwner fuel
        { s with
          queue := Queue.notify { s.queue with waiters := waiters } op2
          nestingLevel := s.nestingLevel + 1 }

def post (ctl : κ) (s : Mutex κ ω) : Mutex κ ω :=
  if s.owner = some ctl then
    if s.nestingLevel - 1 = 0 then
      match s.queue.waiters with
      | op :: waiters =>
        grantNested (s.queue.controller op) waiters.length
          { queue := Queue.notify { s.queue with waiters := waiters } op
            nestingLevel := 1
            owner := s.queue.controller op }
      | [] => { s with nestingLevel := 0, owner := none }
    else { s with nestingLevel := s.nestingLevel - 1 }
  else s

def object : SynchronisationObject κ ω (Mutex κ ω) where
  queue := queue
  setQueue := fun s q => { s with queue := q }
  queue_setQueue := fun _ _ => rfl
  waitAsync := waitAsync
  post := post
  takesEffect := fun ctl s => s.owner = some ctl

/-! ### Transfer of ownership -/

def waitersOf (s : Mutex κ ω) (ctl : κ) : Nat := s.queue.waiters.countP fun op => s.queue.controller op = some ctl

/-- A number of grants to a controller: what it waits for is notified and counted. -/
structure Grants (ctl : κ) (n : Nat) (s s' : Mutex κ ω) : Prop where
  orderly : s'.queue.Orderly
  owner : s'.owner = s.owner
  controller : s'.queue.controller = s.queue.controller
  waiters : ∀ op ∈ s'.queue.waiters, op ∈ s.queue.waiters
  completed : ∃ granted : List ω, granted.length = n ∧
    s'.queue.completed = s.queue.completed ++ granted.map fun op => (ctl, op)
  nestingLevel : s'.nestingLevel = s.nestingLevel + UInt32.ofNat n

variable {s : Mutex κ ω}

theorem Grants.refl {ctl : κ} (hs : s.queue.Orderly) : Grants ctl 0 s s where
  orderly := hs
  owner := rfl
  controller := rfl
  waiters := fun _ h => h
  completed := ⟨[], rfl, (List.append_nil _).symm⟩
  nestingLevel := by simp

theorem Grants.trans {ctl : κ} {m n : Nat} {s s' s'' : Mutex κ ω} (h : Grants ctl m s s') (h' : Grants ctl n s' s'') :
    Grants ctl (m + n) s s'' := by
  obtain ⟨granted, hlength, hcompleted⟩ := h.completed
  obtain ⟨granted', hlength', hcompleted'⟩ := h'.completed
  refine ⟨h'.orderly, h'.owner.trans h.owner, h'.controller.trans h.controller, ?_, ?_, ?_⟩
  · intro op hop
    exact h.waiters op (h'.waiters op hop)
  · refine ⟨granted ++ granted', by rw [List.length_append, hlength, hlength'], ?_⟩
    rw [hcompleted', hcompleted, List.map_append, List.append_assoc]
  · rw [h'.nestingLevel, h.nestingLevel, UInt32.ofNat_add, UInt32.add_assoc]

theorem grants_one {ctl : κ} {op : ω} (hs : s.queue.Orderly) (hop : op ∈ s.queue.waiters)
    (hctl : s.queue.controller op = some ctl) :
    Grants ctl 1 s { s with queue := s.queue.grant op, nestingLevel := s.nestingLevel + 1 } where
  orderly := hs.grant hop
  owner := rfl
  controller := Queue.controller_notify _ op
  waiters := by
    intro op' hop'
    rw [Queue.grant, Queue.waiters_notify] at hop'
    exact List.mem_of_mem_erase hop'
  completed := by
    exact ⟨[op], rfl, Queue.completed_grant hctl⟩
  nestingLevel := rfl

theorem waitersOf_grant {ctl : κ} {op : ω} (hop : op ∈ s.queue.waiters) (hctl : s.queue.controller op = some ctl) :
    s.waitersOf ctl = 1 + waitersOf { s with queue := s.queue.grant op } ctl := by
  have hperm := (List.perm_cons_erase hop).countP_eq fun op => s.queue.controller op = some ctl
  rw [waitersOf, hperm, List.countP_cons_of_pos (by simpa using hctl), Nat.add_comm]
  simp [waitersOf, Queue.grant]

theorem grantNested_spec (ctl : κ) {fuel : Nat} (hs : s.queue.Orderly) (hfuel : s.queue.waiters.length ≤ fuel) :
    Grants ctl (s.waitersOf ctl) s (grantNested (some ctl) fuel s) ∧
      ∀ op ∈ (grantNested (some ctl) fuel s).queue.waiters, s.queue.controller op ≠ some ctl := by
  induction fuel generalizing s with
  | zero =>
    have hnil : s.queue.waiters = [] := List.eq_nil_of_length_eq_zero (by omega)
    have hzero : s.waitersOf ctl = 0 := by rw [waitersOf, hnil, List.countP_nil]
    rw [grantNested, hzero, hnil]
    refine ⟨Grants.refl hs, ?_⟩
    intro op hop
    cases hop
  | succ fuel ih =>
    rw [grantNested]
    rcases h : Queue.extractByController s.queue.controller (some ctl) s.queue.waiters with _ | ⟨op, waiters⟩
    · have hnone := Queue.extractByController_none h
      have hzero : s.waitersOf ctl = 0 := by
        rw [waitersOf, List.countP_eq_zero]
        simpa using hnone
      simp only
      rw [hzero]
      exact ⟨Grants.refl hs, hnone⟩
    · obtain ⟨hop, hctl, rfl⟩ := Queue.extractByController_some h
      have hone := grants_one hs hop hctl
      have hlength : (s.queue.waiters.erase op).length ≤ fuel := by
        rw [List.length_erase_of_mem hop]
        omega
      have hcount := waitersOf_grant hop hctl
      obtain ⟨hgrants, hleft⟩ := ih hone.orderly (by simpa [Queue.grant] using hlength)
      rw [hcount]
      refine ⟨hone.trans hgrants, ?_⟩
      intro op' hop'
      have hne := hleft op' hop'
      rwa [hone.controller] at hne

/-! ### The invariant -/

/-- A free mutex has no waiters, and nobody waits for what its own controller owns. -/
structure Inv (s : Mutex κ ω) : Prop where
  orderly : s.queue.Orderly
  level : s.owner = none → s.nestingLevel = 0
  free : s.owner = none → s.queue.waiters = []
  others : ∀ op ∈ s.queue.waiters, s.queue.controller op ≠ s.owner

theorem inv_new : Inv (new : Mutex κ ω) where
  orderly := ⟨List.nodup_nil, fun _ => Nat.zero_le 1, fun _ _ => rfl, fun _ h => by cases h⟩
  level := fun _ => rfl
  free := fun _ => rfl
  others := fun _ h => by cases h

inductive Posts (ctl : κ) (s s' : Mutex κ ω) : Prop
  /-- The mutex is not the controller's. -/
  | ignored : s.owner ≠ some ctl → s' = s → Posts ctl s s'
  /-- The controller has acquired it more than once. -/
  | nested : s.owner = some ctl → s.nestingLevel ≠ 1 → s' = { s with nestingLevel := s.nestingLevel - 1 } →
      Posts ctl s s'
  /-- Nobody waits. -/
  | released : s.owner = some ctl → s.nestingLevel = 1 → s.queue.waiters = [] →
      s' = { s with nestingLevel := 0, owner := none } → Posts ctl s s'
  /-- The controller of the first waiter gets it. -/
  | transferred (op : ω) (next : κ) : s.owner = some ctl → s.nestingLevel = 1 → s.queue.waiters.head? = some op →
      s.queue.controller op = some next →
      Grants next (s.waitersOf next) { s with nestingLevel := 0, owner := some next } s' →
      (∀ op ∈ s'.queue.waiters, s.queue.controller op ≠ some next) → Posts ctl s s'

theorem eq_one_of_sub_one {level : UInt32} (h : level - 1 = 0) : level = 1 := by
  rw [← UInt32.sub_add_cancel level 1, h, UInt32.zero_add]

theorem posts_post (hs : s.queue.Orderly) (ctl : κ) : Posts ctl s (s.post ctl) := by
  rw [post]
  split_ifs with howner hlevel
  · have hone := eq_one_of_sub_one hlevel
    rcases hwaiters : s.queue.waiters with _ | ⟨op, waiters⟩
    · exact .released howner hone hwaiters rfl
    · have hop : op ∈ s.queue.waiters := by
        rw [hwaiters]
        exact List.mem_cons_self
      obtain ⟨next, hnext⟩ := hs.known op hop
      have hhead : s.queue.waiters.head? = some op := by
        rw [hwaiters]
        rfl
      have hgrant : Queue.notify { s.queue with waiters := waiters } op = s.queue.grant op := by
        rw [Queue.grant, hwaiters, List.erase_cons_head]
      have hone' := grants_one (s := { s with nestingLevel := 0, owner := some next }) hs hop hnext
      have hlength : (s.queue.grant op).waiters.length ≤ waiters.length := by
        simp [Queue.grant, hwaiters]
      obtain ⟨hgrants, hleft⟩ := grantNested_spec next hone'.orderly hlength
      refine .transferred op next howner hone hhead hnext ?_ ?_
      · have hcount : s.waitersOf next = 1 + waitersOf { s with queue := s.queue.grant op } next :=
          waitersOf_grant hop hnext
        rw [hcount]
        simp only [hgrant, hnext]
        exact hone'.trans hgrants
      · simp only [hgrant, hnext]
        intro op' hop'
        have hne := hleft op' hop'
        rwa [hone'.controller] at hne
  · exact .nested howner (fun h => hlevel (by rw [h]; decide)) rfl
  · exact .ignored howner rfl

theorem Inv.waitAsync (hs : s.Inv) {op : ω} (hop : op ∉ s.queue.waiters) (ctl : κ) :
    (s.waitAsync ctl op).Inv := by
  have hothers : ∀ op' ∈ s.queue.waiters, Function.update s.queue.controller op (some ctl) op' ≠ s.owner := by
    intro op' hop'
    have hne : op' ≠ op := by
      rintro rfl
      exact hop hop'
    rw [Function.update_of_ne hne]
    exact hs.others op' hop'
  rw [Mutex.waitAsync]
  split_ifs with howner hnone
  · refine ⟨hs.orderly.submit_notify hop ctl, ?_, ?_, ?_⟩
    · intro h
      rw [howner] at h
      cases h
    · intro h
      rw [howner] at h
      cases h
    · intro op' hop'
      rw [Queue.waiters_notify] at hop'
      rw [Queue.controller_notify]
      exact hothers op' hop'
  · refine ⟨hs.orderly.submit_notify hop ctl, ?_, ?_, ?_⟩
    · intro h
      cases h
    · intro h
      cases h
    · intro op' hop'
      rw [Queue.waiters_notify] at hop'
      have hmem : op' ∈ s.queue.waiters := hop'
      rw [hs.free hnone] at hmem
      cases hmem
  · refine ⟨hs.orderly.submit_pushBack hop ctl, fun h => absurd h hnone, fun h => absurd h hnone, ?_⟩
    intro op' hop'
    rcases List.mem_append.mp hop' with h | h
    · exact hothers op' h
    · rw [List.mem_singleton.mp h]
      have hself : ((s.queue.setController ctl op).pushBack op).controller op = some ctl := by
        simp [Queue.pushBack, Queue.setController]
      rw [hself]
      exact Ne.symm howner

theorem Inv.post (hs : s.Inv) (ctl : κ) : (s.post ctl).Inv := by
  cases posts_post hs.orderly ctl with
  | ignored _ h =>
    rw [h]
    exact hs
  | nested howner _ h =>
    rw [h]
    refine ⟨hs.orderly, ?_, hs.free, hs.others⟩
    intro hnone
    rw [howner] at hnone
    cases hnone
  | released howner _ hwaiters h =>
    rw [h]
    refine ⟨hs.orderly, fun _ => rfl, fun _ => hwaiters, ?_⟩
    intro op hop
    rw [hwaiters] at hop
    cases hop
  | transferred op next _ _ _ _ hgrants hleft =>
    have hnext : (s.post ctl).owner = some next := hgrants.owner
    refine ⟨hgrants.orderly, ?_, ?_, ?_⟩
    · intro hnone
      rw [hnext] at hnone
      cases hnone
    · intro hnone
      rw [hnext] at hnone
      cases hnone
    · intro op' hop'
      rw [hnext, hgrants.controller]
      exact hleft op' hop'

theorem inv_step {s s' : Mutex κ ω} {a : Act κ ω} (h : object.step s a = some s') (hs : s.Inv) : s'.Inv := by
  obtain ⟨ctl, op, -, hout, rfl⟩ | ⟨ctl, -, rfl⟩ | ⟨ctl, op, -, rfl⟩ | ⟨ctl, op, -, -, rfl⟩ :=
    SynchronisationObject.step_cases h
  · exact hs.waitAsync (fun hop => hout (.inl hop)) ctl
  · exact hs.post ctl
  · have hmem : ∀ op' ∈ s.queue.waiters.erase op, op' ∈ s.queue.waiters := fun _ h => List.mem_of_mem_erase h
    refine ⟨hs.orderly.cancel ctl op, hs.level, ?_, fun op' hop' => hs.others op' (hmem op' hop')⟩
    intro hnone
    exact List.eq_nil_of_subset_nil fun op' hop' => hs.free hnone ▸ hmem op' hop'
  · exact ⟨hs.orderly.take ctl op, hs.level, hs.free, hs.others⟩

/-! ### The nesting level -/

/-- The step counts more acquisitions than the nesting level can hold. -/
def Wraps (s : Mutex κ ω) : Act κ ω → Prop
  | .waitAsync ctl _ => s.owner = some ctl ∧ s.nestingLevel = 0xFFFFFFFF
  | .post ctl => s.owner = some ctl ∧ s.nestingLevel = 1 ∧
      ∃ op next, s.queue.waiters.head? = some op ∧ s.queue.controller op = some next ∧ 2 ^ 32 ≤ s.waitersOf next
  | .cancel _ _ | .take _ _ => False

theorem Grants.toNat_level {next : κ} {s s' : Mutex κ ω}
    (h : Grants next (s.waitersOf next) { s with nestingLevel := 0, owner := some next } s')
    (hcount : s.waitersOf next < 2 ^ 32) : s'.nestingLevel.toNat = s.waitersOf next := by
  rw [h.nestingLevel, UInt32.zero_add, UInt32.toNat_ofNat_of_lt' hcount]

theorem waitersOf_pos {op : ω} {next : κ} (hhead : s.queue.waiters.head? = some op)
    (hnext : s.queue.controller op = some next) : 0 < s.waitersOf next :=
  List.countP_pos_iff.mpr ⟨op, List.mem_of_mem_head? hhead, by simpa using hnext⟩

theorem waitersOf_lt {op : ω} {ctl next : κ} (hwraps : ¬s.Wraps (.post ctl))
    (howner : s.owner = some ctl) (hone : s.nestingLevel = 1) (hhead : s.queue.waiters.head? = some op)
    (hnext : s.queue.controller op = some next) : s.waitersOf next < 2 ^ 32 := by
  by_contra hlarge
  exact hwraps ⟨howner, hone, op, next, hhead, hnext, by omega⟩

theorem level_step {s s' : Mutex κ ω} {a : Act κ ω} (h : object.step s a = some s') (hs : s.Inv)
    (hlevel : s.nestingLevel = 0 → s.owner = none) (hwraps : ¬s.Wraps a) : s'.nestingLevel = 0 → s'.owner = none := by
  obtain ⟨ctl, op, rfl, hout, rfl⟩ | ⟨ctl, rfl, rfl⟩ | ⟨ctl, op, rfl, rfl⟩ | ⟨ctl, op, rfl, -, rfl⟩ :=
    SynchronisationObject.step_cases h
  · show (s.waitAsync ctl op).nestingLevel = 0 → (s.waitAsync ctl op).owner = none
    rw [waitAsync]
    split_ifs with howner hnone
    · intro hzero
      have hmax : s.nestingLevel ≠ 0xFFFFFFFF := fun hmax => hwraps ⟨howner, hmax⟩
      have hnat := congrArg UInt32.toNat hzero
      rw [toNat_add_one hmax] at hnat
      simp at hnat
    · intro hzero
      cases hzero
    · exact hlevel
  · show (s.post ctl).nestingLevel = 0 → (s.post ctl).owner = none
    cases posts_post hs.orderly ctl with
    | ignored _ h =>
      rw [h]
      exact hlevel
    | nested howner hone h =>
      rw [h]
      intro hzero
      exact absurd (eq_one_of_sub_one hzero) hone
    | released _ _ _ h =>
      rw [h]
      exact fun _ => rfl
    | transferred op next howner hone hhead hnext hgrants _ =>
      have hcount := waitersOf_lt hwraps howner hone hhead hnext
      have hpos := waitersOf_pos hhead hnext
      intro hzero
      have hnat := hgrants.toNat_level hcount
      rw [hzero] at hnat
      simp at hnat
      omega
  · exact hlevel
  · exact hlevel

end Mutex

end Afl.Async
