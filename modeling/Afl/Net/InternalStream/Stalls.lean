import Afl.Net.InternalStream.Stream

/-!
# Transfers that stall

`tryMove` stops at the first receive that got nothing, on the grounds that there is no send. A receive with an empty
buffer never gets anything, and there may be sends: from then on both lists can be nonempty. This is the only way.
-/

set_option linter.unusedSectionVars false

namespace Afl.Net.InternalStream

open Afl.Async Run

variable {κ α β : Type} [DecidableEq κ] [DecidableEq α] [DecidableEq β]

namespace Stream

/-- No transfer is possible: one of the lists is empty, and no receive waits for a closed send side. -/
def Paired (s : Stream κ α β) : Prop :=
  (s.sends = [] ∨ s.receives = []) ∧ (s.sendClosed = true → s.receives = [])

def room (s : Stream κ α β) (op : β) : Nat := (s.receiveOps op).data.length

/-! ### The loops -/

variable {recv : β} {s : Stream κ α β}

theorem moveAll_of_completed (h : (s.receiveOps recv).isCompleted = true) (fuel : Nat) :
    moveAll recv fuel s = s := by
  cases fuel with
  | zero => rfl
  | succ fuel => rw [moveAll, if_pos h]

theorem moveAll_done (recv : β) {fuel : Nat} (hfuel : s.sends.length ≤ fuel) :
    (moveAll recv fuel s).sends = [] ∨ ((moveAll recv fuel s).receiveOps recv).isCompleted = true := by
  induction fuel generalizing s with
  | zero => exact .inl (List.eq_nil_of_length_eq_zero (by rw [moveAll]; omega))
  | succ fuel ih =>
    rw [moveAll]
    split_ifs with hcompleted
    · exact .inr hcompleted
    · rcases hsends : s.sends with _ | ⟨send, sends⟩
      · exact .inl hsends
      · rw [hsends, List.length_cons] at hfuel
        by_cases hsend : ((s.receiveOps recv).copiedTo (s.sendOps send)).isCompleted = true
        · refine ih ?_
          have htail : (s.moveFrom recv send).sends = sends := by
            rw [moveFrom, copyFrom]
            simp only [Function.update_self, hsend, if_true, post, hsends, List.tail_cons]
          rw [htail]
          omega
        · have hrecv : ((s.moveFrom recv send).receiveOps recv).isCompleted = true := by
            rw [receiveOps_moveFrom, Function.update_self]
            exact ((s.receiveOps recv).isCompleted_copyFrom (s.sendOps send)).resolve_right hsend
          simp only [moveAll_of_completed hrecv]
          exact .inr hrecv

/-- Where `tryMove` stops. -/
def Settled (s : Stream κ α β) : Prop :=
  ∀ recv receives, s.receives = recv :: receives →
    (s.receiveOps recv).numReceivedBytes = 0 ∧ s.sendClosed = false ∧ (s.sends = [] ∨ s.room recv = 0)

theorem settled_tryMoveLoop {fuel : Nat} (hfuel : s.receives.length ≤ fuel) :
    (tryMoveLoop fuel s).Settled := by
  induction fuel generalizing s with
  | zero =>
    intro recv receives hreceives
    rw [tryMoveLoop] at hreceives
    rw [hreceives, List.length_cons] at hfuel
    omega
  | succ fuel ih =>
    rw [tryMoveLoop]
    rcases hreceives : s.receives with _ | ⟨recv, receives⟩
    · intro recv receives h
      simp only [hreceives] at h
      cases h
    · have hsame := receives_moveAll recv s.sends.length s
      simp only
      split_ifs with hready
      · refine ih ?_
        rw [hreceives, List.length_cons] at hfuel
        show (moveAll recv s.sends.length s).receives.tail.length ≤ fuel
        rw [hsame, hreceives, List.tail_cons]
        omega
      · intro recv' receives' h
        rw [hsame, hreceives] at h
        obtain ⟨rfl, -⟩ := List.cons.inj h
        obtain ⟨hzero, hopen⟩ := not_or.mp hready
        have hzero' := Nat.eq_zero_of_not_pos hzero
        refine ⟨hzero', Bool.eq_false_iff.mpr hopen, ?_⟩
        rcases moveAll_done recv (Nat.le_refl s.sends.length) with hnil | hcompleted
        · exact .inl hnil
        · have hroom := of_decide_eq_true hcompleted
          rw [hzero'] at hroom
          exact .inr (Nat.eq_zero_of_le_zero hroom)

theorem settled_tryMove (s : Stream κ α β) : s.tryMove.Settled := settled_tryMoveLoop (Nat.le_refl _)

/-! ### What `tryMove` keeps -/

theorem room_moveFrom (s : Stream κ α β) (recv : β) (send : α) (op : β) :
    (s.moveFrom recv send).room op = s.room op := by
  rw [room, receiveOps_moveFrom]
  by_cases hop : op = recv
  · subst hop
    rw [Function.update_self, ReceiveOperation.length_copyFrom]
    rfl
  · rw [Function.update_of_ne hop]
    rfl

theorem frame_tryMove (s : Stream κ α β) :
    s.tryMove.receives <:+ s.receives ∧ s.tryMove.room = s.room ∧ s.tryMove.sendClosed = s.sendClosed := by
  refine tryMove_keeps
    (I := fun s' => s'.receives <:+ s.receives ∧ s'.room = s.room ∧ s'.sendClosed = s.sendClosed) ?_ ?_
    ⟨List.suffix_refl _, rfl, rfl⟩
  · rintro s' recv receives send sends - - ⟨hreceives, hroom, hclosed⟩
    rw [receives_moveFrom, sendClosed_moveFrom]
    exact ⟨hreceives, (funext (room_moveFrom s' recv send)).trans hroom, hclosed⟩
  · rintro s' recv receives - - ⟨hreceives, hroom, hclosed⟩
    exact ⟨(List.tail_suffix _).trans hreceives, hroom, hclosed⟩

theorem sends_tryMove (h : s.sends = []) : s.tryMove.sends = [] := by
  refine tryMove_keeps (I := fun s => s.sends = []) ?_ ?_ h
  · intro s recv receives send sends _ hsends hnil
    rw [hnil] at hsends
    cases hsends
  · intro s recv receives _ _ hnil
    exact hnil

/-- Nothing waits twice, and only the first receive may have got anything. -/
def Fresh (s : Stream κ α β) : Prop :=
  s.receives.Nodup ∧ ∀ op ∈ s.receives.tail, (s.receiveOps op).numReceivedBytes = 0

theorem Fresh.tryMove (hs : s.Fresh) : s.tryMove.Fresh := by
  refine tryMove_keeps (I := Fresh) ?_ ?_ hs
  · rintro s recv receives send sends hreceives - ⟨hnodup, hfresh⟩
    rw [Fresh, receives_moveFrom]
    refine ⟨hnodup, ?_⟩
    intro op hop
    have hne : op ≠ recv := by
      rintro rfl
      rw [hreceives] at hnodup hop
      exact (List.nodup_cons.mp hnodup).1 hop
    rw [receiveOps_moveFrom, Function.update_of_ne hne]
    exact hfresh op hop
  · rintro s recv receives hreceives - ⟨hnodup, hfresh⟩
    refine ⟨hnodup.sublist (List.tail_sublist _), ?_⟩
    intro op hop
    exact hfresh op (List.mem_of_mem_tail hop)

/-- What holds between the calls as long as no transfer stalls. -/
structure Unstalled (s : Stream κ α β) : Prop where
  paired : s.Paired
  nodup : s.receives.Nodup
  fresh : ∀ op ∈ s.receives, (s.receiveOps op).numReceivedBytes = 0

theorem unstalled_new : Unstalled (new : Stream κ α β) where
  paired := ⟨.inl rfl, fun _ => rfl⟩
  nodup := List.nodup_nil
  fresh := fun _ h => by cases h

theorem Fresh.unstalled_tryMove (hs : s.Fresh) (hlists : s.tryMove.sends = [] ∨ s.tryMove.receives = []) :
    s.tryMove.Unstalled := by
  have hsettled := settled_tryMove s
  obtain ⟨hnodup, hfresh⟩ := hs.tryMove
  refine ⟨⟨hlists, ?_⟩, hnodup, ?_⟩
  · intro hclosed
    rcases hreceives : s.tryMove.receives with _ | ⟨recv, receives⟩
    · rfl
    · rw [(hsettled recv receives hreceives).2.1] at hclosed
      cases hclosed
  · intro op hop
    rcases hreceives : s.tryMove.receives with _ | ⟨recv, receives⟩
    · rw [hreceives] at hop
      cases hop
    · rw [hreceives] at hop hfresh
      rcases List.mem_cons.mp hop with rfl | hop
      · exact (hsettled op receives hreceives).1
      · exact hfresh op hop

/-! ### Where a send stops -/

variable {receives : List β}

theorem tryMove_cons (h : s.receives = recv :: receives) :
    s.tryMove =
      let s' := moveAll recv s.sends.length s
      if 0 < (s'.receiveOps recv).numReceivedBytes ∨ s'.sendClosed then (s'.finish recv).tryMove else s' := by
  have hlength : ((moveAll recv s.sends.length s).finish recv).receives.length = receives.length := by
    show (moveAll recv s.sends.length s).receives.tail.length = receives.length
    rw [receives_moveAll, h, List.tail_cons]
  rw [tryMove, h, List.length_cons, tryMoveLoop, h]
  simp only [tryMove, hlength]

theorem tryMove_of_nil (h : s.receives = []) : s.tryMove = s := by
  rw [tryMove, h, List.length_nil, tryMoveLoop]

theorem tryMove_of_room_eq_zero (h : s.receives = recv :: receives)
    (hroom : s.room recv = 0) (hzero : (s.receiveOps recv).numReceivedBytes = 0) (hopen : s.sendClosed = false) :
    s.tryMove = s := by
  have hcompleted : (s.receiveOps recv).isCompleted = true := decide_eq_true (by rw [room] at hroom; omega)
  rw [tryMove_cons h, moveAll_of_completed hcompleted]
  simp [hzero, hopen]

def unsent (s : Stream κ α β) (send : α) : Nat := (s.sendOps send).data.length - (s.sendOps send).numSentBytes

theorem bytesCopied_fresh (hzero : (s.receiveOps recv).numReceivedBytes = 0) (send : α) :
    (s.receiveOps recv).bytesCopied (s.sendOps send) = min (s.room recv) (s.unsent send) := by
  rw [ReceiveOperation.bytesCopied_eq, hzero, Nat.sub_zero]
  rfl

theorem unsent_moveFrom (hzero : (s.receiveOps recv).numReceivedBytes = 0) (send : α) :
    (s.moveFrom recv send).unsent send = s.unsent send - s.room recv := by
  have hcopied := bytesCopied_fresh hzero send
  rw [unsent, sendOps_moveFrom, Function.update_self]
  show (s.sendOps send).data.length - ((s.sendOps send).numSentBytes + _) = _
  rw [hcopied, unsent]
  omega

theorem numReceivedBytes_moveFrom (hzero : (s.receiveOps recv).numReceivedBytes = 0)
    (send : α) : ((s.moveFrom recv send).receiveOps recv).numReceivedBytes = min (s.room recv) (s.unsent send) := by
  rw [receiveOps_moveFrom, Function.update_self]
  show (s.receiveOps recv).numReceivedBytes + _ = _
  rw [bytesCopied_fresh hzero, hzero, Nat.zero_add]

theorem sends_moveFrom (s : Stream κ α β) (recv : β) (send : α) :
    (s.moveFrom recv send).sends = if (s.moveFrom recv send).unsent send = 0 then s.sends.tail else s.sends := by
  have hiff : ((s.copyFrom recv send).sendOps send).isCompleted = true ↔ (s.moveFrom recv send).unsent send = 0 := by
    rw [unsent, sendOps_moveFrom, SendOperation.isCompleted, decide_eq_true_eq, Nat.sub_eq_zero_iff_le]
    rfl
  by_cases hcompleted : ((s.copyFrom recv send).sendOps send).isCompleted = true
  · rw [if_pos (hiff.mp hcompleted), moveFrom]
    simp only [if_pos hcompleted, post]
    rfl
  · rw [if_neg (fun h => hcompleted (hiff.mpr h)), moveFrom]
    simp only [if_neg hcompleted]
    rfl

theorem moveAll_single {send : α} (hsends : s.sends = [send]) (hroom : s.room recv ≠ 0)
    (hzero : (s.receiveOps recv).numReceivedBytes = 0) : moveAll recv s.sends.length s = s.moveFrom recv send := by
  have hopen : (s.receiveOps recv).isCompleted = false := decide_eq_false (by rw [room] at hroom; omega)
  rw [hsends, List.length_singleton, moveAll, hopen, hsends]
  simp only [Bool.false_eq_true, if_false, moveAll]

/-- In front of every empty buffer there is another one, and there is room for all bytes. -/
def RoomBefore (room : β → Nat) (receives : List β) (n : Nat) : Prop :=
  ∀ before recv after, receives = before ++ recv :: after → room recv = 0 → before ≠ [] ∧ n ≤ (before.map room).sum

theorem roomBefore_cons_iff {room : β → Nat} {n : Nat} (hroom : room recv ≠ 0) :
    RoomBefore room (recv :: receives) n ↔ ∀ before recv' after, receives = before ++ recv' :: after →
      room recv' = 0 → n ≤ room recv + (before.map room).sum := by
  constructor
  · intro h before recv' after hreceives hzero
    have hsum := (h (recv :: before) recv' after (by rw [hreceives, List.cons_append]) hzero).2
    rwa [List.map_cons, List.sum_cons] at hsum
  · intro h before recv' after hreceives hzero
    rcases before with _ | ⟨first, before⟩
    · obtain ⟨rfl, -⟩ := List.cons.inj hreceives
      exact absurd hzero hroom
    · obtain ⟨rfl, hrest⟩ := List.cons.inj hreceives
      refine ⟨List.cons_ne_nil _ _, ?_⟩
      rw [List.map_cons, List.sum_cons]
      exact h before recv' after hrest hzero

theorem roomBefore_of_lt {room : β → Nat} {n : Nat} (hroom : room recv ≠ 0)
    (hn : room recv < n) : RoomBefore room (recv :: receives) n ↔ RoomBefore room receives (n - room recv) := by
  rw [roomBefore_cons_iff hroom]
  constructor
  · intro h before recv' after hreceives hzero
    have hsum := h before recv' after hreceives hzero
    refine ⟨?_, by omega⟩
    rintro rfl
    rw [List.map_nil, List.sum_nil] at hsum
    omega
  · intro h before recv' after hreceives hzero
    have hsum := (h before recv' after hreceives hzero).2
    omega

theorem roomBefore_of_le {room : β → Nat} {n : Nat} (hroom : room recv ≠ 0)
    (hn : n ≤ room recv) : RoomBefore room (recv :: receives) n := by
  rw [roomBefore_cons_iff hroom]
  intro before recv' after _ _
  omega

theorem tryMove_send_iff {send : α} (hreceives : s.receives = receives)
    (hsends : s.sends = [send]) (hnodup : receives.Nodup)
    (hfresh : ∀ op ∈ receives, (s.receiveOps op).numReceivedBytes = 0) (hopen : s.sendClosed = false) :
    (s.tryMove.sends = [] ∨ s.tryMove.receives = []) ↔ RoomBefore s.room receives (s.unsent send) := by
  induction receives generalizing s with
  | nil =>
    rw [tryMove_of_nil hreceives]
    refine ⟨?_, fun _ => .inr hreceives⟩
    intro _ before recv after h
    cases before <;> cases h
  | cons recv receives ih =>
    have hzero := hfresh recv List.mem_cons_self
    obtain ⟨hnotMem, hnodup'⟩ := List.nodup_cons.mp hnodup
    by_cases hroom : s.room recv = 0
    · rw [tryMove_of_room_eq_zero hreceives hroom hzero hopen, hsends, hreceives]
      simp only [List.cons_ne_nil, or_self, false_iff]
      intro h
      exact (h [] recv receives rfl hroom).1 rfl
    · have hunsent := unsent_moveFrom hzero send
      have hnum := numReceivedBytes_moveFrom hzero send
      rw [tryMove_cons hreceives, moveAll_single hsends hroom hzero]
      simp only
      by_cases hle : s.unsent send ≤ s.room recv
      · -- The send ends here.
        have hgone : (s.moveFrom recv send).sends = [] := by
          rw [sends_moveFrom, if_pos (by omega), hsends, List.tail_cons]
        refine ⟨fun _ => roomBefore_of_le hroom hle, fun _ => .inl ?_⟩
        split_ifs
        · exact sends_tryMove hgone
        · exact hgone
      · -- The buffer is full, and the send goes on with the next one.
        have hstays : (s.moveFrom recv send).sends = [send] := by
          rw [sends_moveFrom, if_neg (by omega), hsends]
        have hready : 0 < ((s.moveFrom recv send).receiveOps recv).numReceivedBytes := by omega
        have hroomSame : ((s.moveFrom recv send).finish recv).room = s.room := funext (room_moveFrom s recv send)
        have hunsent' : ((s.moveFrom recv send).finish recv).unsent send = s.unsent send - s.room recv := hunsent
        rw [if_pos (.inl hready), roomBefore_of_lt hroom (by omega), ← hunsent', ← hroomSame]
        refine ih ?_ hstays hnodup' ?_ ?_
        · show (s.moveFrom recv send).receives.tail = receives
          rw [receives_moveFrom, hreceives, List.tail_cons]
        · intro op hop
          have hne : op ≠ recv := fun heq => hnotMem (heq ▸ hop)
          show ((s.moveFrom recv send).receiveOps op).numReceivedBytes = 0
          rw [receiveOps_moveFrom, Function.update_of_ne hne]
          exact hfresh op (List.mem_cons_of_mem recv hop)
        · show (s.moveFrom recv send).sendClosed = false
          rw [sendClosed_moveFrom, hopen]

/-! ### The calls -/

/-- The call makes no send meet an empty buffer while the send side is open. -/
def Passes (s : Stream κ α β) : Call κ α β → Prop
  | .sendAsync _ _ data => RoomBefore s.room s.receives data.length
  | .receiveAsync _ _ data => data = [] → s.sends = [] ∨ s.sendClosed = true
  | .cancel _ _ | .closeSend => True

theorem Unstalled.toFresh (hs : s.Unstalled) : s.Fresh :=
  ⟨hs.nodup, fun op hop => hs.fresh op (List.mem_of_mem_tail hop)⟩

theorem Unstalled.waiting (hs : s.Unstalled) (hreceives : s.receives ≠ []) :
    s.sends = [] ∧ s.sendClosed = false := by
  refine ⟨hs.paired.1.resolve_right hreceives, ?_⟩
  rcases hclosed : s.sendClosed with _ | _
  · rfl
  · exact absurd (hs.paired.2 hclosed) hreceives

theorem Unstalled.sendAsync_iff (hs : s.Unstalled) (ctl : κ) (op : α) (data : Bytes) :
    ((s.sendAsync ctl op data).sends = [] ∨ (s.sendAsync ctl op data).receives = []) ↔
      RoomBefore s.room s.receives data.length := by
  rw [sendAsync]
  by_cases hreceives : s.receives = []
  · have hnone : (s.pushSend ctl op data).receives = [] := hreceives
    rw [tryMove_of_nil hnone]
    refine ⟨?_, fun _ => .inr hreceives⟩
    intro _ before recv after h
    rw [hreceives] at h
    cases before <;> cases h
  · obtain ⟨hsends, hopen⟩ := hs.waiting hreceives
    have hone : (s.pushSend ctl op data).sends = [op] := by rw [pushSend, hsends, List.nil_append]
    have hunsent : (s.pushSend ctl op data).unsent op = data.length := by
      simp [unsent, pushSend, SendOperation.setData, SendOperation.setController]
    have hiff := tryMove_send_iff (s := s.pushSend ctl op data) rfl hone hs.nodup hs.fresh hopen
    rwa [hunsent] at hiff

theorem Unstalled.receiveAsync_iff (hs : s.Unstalled) (ctl : κ) (op : β) (data : Bytes) :
    ((s.receiveAsync ctl op data).sends = [] ∨ (s.receiveAsync ctl op data).receives = []) ↔
      (data = [] → s.sends = [] ∨ s.sendClosed = true) := by
  rw [receiveAsync]
  by_cases hsends : s.sends = []
  · exact ⟨fun _ _ => .inl hsends, fun _ => .inl (sends_tryMove hsends)⟩
  · have hlist : (s.pushReceive ctl op data).receives = [op] := by
      rw [pushReceive, hs.paired.1.resolve_left hsends, List.nil_append]
    have hroom : (s.pushReceive ctl op data).room op = data.length := by
      simp [room, pushReceive, ReceiveOperation.setData, ReceiveOperation.setController]
    have hzero : ((s.pushReceive ctl op data).receiveOps op).numReceivedBytes = 0 := by
      simp [pushReceive, ReceiveOperation.setData, ReceiveOperation.setController]
    obtain ⟨hsuffix, hrooms, hstill⟩ := frame_tryMove (s.pushReceive ctl op data)
    constructor
    · rintro hlists rfl
      refine .inr ?_
      by_contra hopen
      rw [tryMove_of_room_eq_zero hlist hroom hzero (Bool.eq_false_iff.mpr hopen), hlist] at hlists
      rcases hlists with h | h
      · exact hsends h
      · cases h
    · intro hpass
      rcases hleft : (s.pushReceive ctl op data).tryMove.receives with _ | ⟨recv, receives⟩
      · exact .inr rfl
      · rw [hleft, hlist] at hsuffix
        obtain rfl : recv = op := List.mem_singleton.mp (hsuffix.subset List.mem_cons_self)
        obtain ⟨-, hopen, hdone⟩ := settled_tryMove _ recv receives hleft
        rcases hdone with h | h
        · exact .inl h
        · rw [hrooms, hroom] at h
          rw [hstill] at hopen
          rcases hpass (List.eq_nil_of_length_eq_zero h) with h | h
          · exact absurd h hsends
          · rw [pushReceive, h] at hopen
            cases hopen

theorem fresh_pushReceive (hs : s.Unstalled) {op : β} (hop : op ∉ s.receives) (ctl : κ) (data : Bytes) :
    (s.pushReceive ctl op data).Fresh := by
  refine ⟨hs.nodup.append (List.nodup_singleton op) (List.disjoint_singleton.mpr hop), ?_⟩
  intro op' hop'
  rcases List.mem_append.mp (List.mem_of_mem_tail hop') with h | h
  · have hne : op' ≠ op := fun heq => hop (heq ▸ h)
    simpa [pushReceive, Function.update_of_ne hne] using hs.fresh op' h
  · rw [List.mem_singleton.mp h]
    simp [pushReceive, ReceiveOperation.setData, ReceiveOperation.setController]

theorem Unstalled.cancel (hs : s.Unstalled) (ctl : κ) (op : α ⊕ β) : (s.cancel ctl op).Unstalled := by
  cases op with
  | inl send =>
    refine ⟨⟨?_, hs.paired.2⟩, hs.nodup, hs.fresh⟩
    rcases hs.paired.1 with h | h
    · left
      show s.sends.erase send = []
      rw [h, List.erase_nil]
    · exact .inr h
  | inr recv =>
    have hnil : s.receives = [] → s.receives.erase recv = [] := by
      intro h
      rw [h, List.erase_nil]
    refine ⟨⟨?_, fun hclosed => hnil (hs.paired.2 hclosed)⟩, hs.nodup.erase recv, ?_⟩
    · rcases hs.paired.1 with h | h
      · exact .inl h
      · exact .inr (hnil h)
    · intro op hop
      exact hs.fresh op (List.mem_of_mem_erase hop)

theorem Unstalled.closeSend (hs : s.Unstalled) : s.closeSend.Unstalled := by
  have hfresh : Fresh { s with sendClosed := true } := hs.toFresh
  refine hfresh.unstalled_tryMove (.inr ?_)
  rcases hreceives : (tryMove { s with sendClosed := true }).receives with _ | ⟨recv, receives⟩
  · rfl
  · have hopen := (settled_tryMove _ recv receives hreceives).2.1
    rw [(frame_tryMove _).2.2] at hopen
    cases hopen

theorem unstalled_step {s s' : Stream κ α β} {call : Call κ α β} (h : s.step call = some s') (hs : s.Unstalled)
    (hpass : s.Passes call) : s'.Unstalled := by
  cases call with
  | sendAsync ctl op data =>
    rw [step] at h
    split_ifs at h
    obtain rfl := Option.some.inj h
    have hfresh : (s.pushSend ctl op data).Fresh := hs.toFresh
    exact hfresh.unstalled_tryMove ((hs.sendAsync_iff ctl op data).mpr hpass)
  | receiveAsync ctl op data =>
    rw [step] at h
    split_ifs at h with hop
    obtain rfl := Option.some.inj h
    exact (fresh_pushReceive hs hop ctl data).unstalled_tryMove ((hs.receiveAsync_iff ctl op data).mpr hpass)
  | cancel ctl op =>
    obtain rfl := Option.some.inj h
    exact hs.cancel ctl op
  | closeSend =>
    obtain rfl := Option.some.inj h
    exact hs.closeSend

theorem not_paired_step {s s' : Stream κ α β} {call : Call κ α β} (h : s.step call = some s') (hs : s.Unstalled)
    (hpass : ¬s.Passes call) : ¬s'.Paired := by
  rintro ⟨hlists, -⟩
  cases call with
  | sendAsync ctl op data =>
    rw [step] at h
    split_ifs at h
    obtain rfl := Option.some.inj h
    exact hpass ((hs.sendAsync_iff ctl op data).mp hlists)
  | receiveAsync ctl op data =>
    rw [step] at h
    split_ifs at h
    obtain rfl := Option.some.inj h
    exact hpass ((hs.receiveAsync_iff ctl op data).mp hlists)
  | cancel ctl op => exact hpass trivial
  | closeSend => exact hpass trivial

end Stream

/-- **No transfer stalls, exactly as long as no send meets an empty buffer.** -/
theorem paired_iff_passes (calls : List (Call κ α β)) :
    (∀ t ∈ trace Stream.step (Stream.new : Stream κ α β) calls, t.post.Paired) ↔
      ∀ t ∈ trace Stream.step (Stream.new : Stream κ α β) calls, t.pre.Passes t.act :=
  forall_post_iff (I := Stream.Unstalled) (C := Stream.Passes) Stream.Unstalled.paired Stream.unstalled_step
    Stream.not_paired_step Stream.unstalled_new calls

/-- A receive with an empty buffer, followed by a send of one byte and a receive that could take it. -/
theorem empty_receive_stalls :
    ∃ s, final Stream.step Stream.new
        [.receiveAsync 1 1 [], .sendAsync 2 1 [10], .receiveAsync 1 2 ([0] : Bytes)] = some (s : Stream Nat Nat Nat) ∧
      s.sends = [1] ∧ s.receives = [1, 2] ∧ ¬s.Paired := by
  refine ⟨_, rfl, rfl, rfl, ?_⟩
  rintro ⟨hlists, -⟩
  rcases hlists with h | h
  · cases h
  · cases h

end Afl.Net.InternalStream
