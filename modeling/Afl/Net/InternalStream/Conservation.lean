import Afl.Net.InternalStream.Stream

/-!
# No byte is lost, duplicated or reordered

The bytes in the receive operations are those taken from the send operations, in the order of the submissions, in
every state that the two sides can reach. The invariant is the same between the turns of the loops of `tryMove`.
-/

set_option linter.unusedSectionVars false

namespace Afl.Net.InternalStream

open Afl.Async Run

variable {κ α β : Type} [DecidableEq κ] [DecidableEq α] [DecidableEq β]

namespace Stream

def sent (s : Stream κ α β) (op : α) : Bytes := (s.sendOps op).sentBytes

def received (s : Stream κ α β) (op : β) : Bytes := (s.receiveOps op).getReceivedBytes

/-- The operation was not posted, and is posted when it is done; or it is done and was posted to its controller. -/
def PostedSend (s : Stream κ α β) (op : α) : Prop :=
  (s.posts (.inl op) = [] ∧ (op ∈ s.submittedSends → (s.sendOps op).data ≠ [] → (s.sendOps op).isCompleted = false)) ∨
    (op ∈ s.submittedSends ∧ op ∉ s.sends ∧ s.posts (.inl op) = [(s.sendOps op).controller] ∧
      (s.sendOps op).isCompleted = true)

/-- The operation was not posted, or it was posted to its controller with something to report. -/
def PostedReceive (s : Stream κ α β) (op : β) : Prop :=
  s.posts (.inr op) = [] ∨
    (op ∈ s.submittedReceives ∧ op ∉ s.receives ∧ s.posts (.inr op) = [(s.receiveOps op).controller] ∧
      (0 < (s.receiveOps op).numReceivedBytes ∨ s.sendClosed = true))

/-- The bytes are conserved, and the operations posted as they should be. -/
structure Conserving (s : Stream κ α β) : Prop where
  sends : Fifo s.sends s.submittedSends s.sent
  receives : Fifo s.receives s.submittedReceives s.received
  conserved : s.submittedReceives.flatMap s.received = s.submittedSends.flatMap s.sent
  sendPosts : ∀ op, s.PostedSend op
  receivePosts : ∀ op, s.PostedReceive op

theorem conserving_new : Conserving (new : Stream κ α β) where
  sends := Fifo.empty
  receives := Fifo.empty
  conserved := rfl
  sendPosts := fun _ => .inl ⟨rfl, fun h => by cases h⟩
  receivePosts := fun _ => .inl rfl

variable {s : Stream κ α β}

theorem Conserving.posts_send (hs : s.Conserving) {op : α} (hop : op ∈ s.sends) :
    s.posts (.inl op) = [] := by
  rcases hs.sendPosts op with h | h
  · exact h.1
  · exact absurd hop h.2.1

theorem Conserving.posts_receive (hs : s.Conserving) {op : β} (hop : op ∈ s.receives) :
    s.posts (.inr op) = [] := by
  rcases hs.receivePosts op with h | h
  · exact h
  · exact absurd hop h.2.1

/-! ### Moving bytes -/

theorem sent_moveFrom (s : Stream κ α β) (recv : β) (send : α) :
    (s.moveFrom recv send).sent send = s.sent send ++ (s.receiveOps recv).copied (s.sendOps send) := by
  rw [sent, sendOps_moveFrom, Function.update_self, ReceiveOperation.sentBytes_copiedTo]
  rfl

theorem sent_moveFrom_of_ne (s : Stream κ α β) (recv : β) (send : α) :
    ∀ op ≠ send, (s.moveFrom recv send).sent op = s.sent op := by
  intro op hop
  rw [sent, sendOps_moveFrom, Function.update_of_ne hop, sent]

theorem received_moveFrom (s : Stream κ α β) (recv : β) (send : α) :
    (s.moveFrom recv send).received recv = s.received recv ++ (s.receiveOps recv).copied (s.sendOps send) := by
  rw [received, receiveOps_moveFrom, Function.update_self, ReceiveOperation.getReceivedBytes_copyFrom]
  rfl

theorem received_moveFrom_of_ne (s : Stream κ α β) (recv : β) (send : α) :
    ∀ op ≠ recv, (s.moveFrom recv send).received op = s.received op := by
  intro op hop
  rw [received, receiveOps_moveFrom, Function.update_of_ne hop, received]

theorem moveFrom_cases (s : Stream κ α β) (recv : β) (send : α) :
    (((s.moveFrom recv send).sendOps send).isCompleted = false ∧ (s.moveFrom recv send).sends = s.sends ∧
        (s.moveFrom recv send).posts = s.posts) ∨
      (((s.moveFrom recv send).sendOps send).isCompleted = true ∧ (s.moveFrom recv send).sends = s.sends.tail ∧
        (s.moveFrom recv send).posts =
          Function.update s.posts (.inl send)
            (s.posts (.inl send) ++ [((s.moveFrom recv send).sendOps send).controller])) := by
  rw [moveFrom]
  split_ifs with hcompleted
  · exact .inr ⟨hcompleted, rfl, rfl⟩
  · exact .inl ⟨Bool.eq_false_iff.mpr hcompleted, rfl, rfl⟩

@[simp] theorem submitted_moveFrom (s : Stream κ α β) (recv : β) (send : α) :
    (s.moveFrom recv send).submittedSends = s.submittedSends ∧
      (s.moveFrom recv send).submittedReceives = s.submittedReceives := by
  rw [moveFrom]
  split_ifs <;> exact ⟨rfl, rfl⟩

theorem Conserving.postedSend_moveFrom (hs : s.Conserving) {recv : β} {send : α} {sends : List α}
    (hsends : s.sends = send :: sends) (op : α) : (s.moveFrom recv send).PostedSend op := by
  have hsend : send ∈ s.sends := by
    rw [hsends]
    exact List.mem_cons_self
  have hnone := hs.posts_send hsend
  rw [PostedSend, (submitted_moveFrom s recv send).1]
  by_cases hop : op = send
  · subst hop
    rcases moveFrom_cases s recv op with ⟨hcompleted, -, hposts⟩ | ⟨hcompleted, hrest, hposts⟩
    · exact .inl ⟨hposts ▸ hnone, fun _ _ => hcompleted⟩
    · refine .inr ⟨hs.sends.mem_submitted hsend, ?_, ?_, hcompleted⟩
      · have hnodup := hs.sends.nodup_queue
        rw [hsends] at hnodup
        rw [hrest, hsends]
        exact (List.nodup_cons.mp hnodup).1
      · rw [hposts, Function.update_self, hnone, List.nil_append]
  · have hne : (Sum.inl op : α ⊕ β) ≠ .inl send := fun h => hop (Sum.inl.inj h)
    have hposts : (s.moveFrom recv send).posts (.inl op) = s.posts (.inl op) := by
      rcases moveFrom_cases s recv send with ⟨-, -, hposts⟩ | ⟨-, -, hposts⟩
      · rw [hposts]
      · rw [hposts, Function.update_of_ne hne]
    have hsub : op ∈ (s.moveFrom recv send).sends → op ∈ s.sends := by
      rcases moveFrom_cases s recv send with ⟨-, hrest, -⟩ | ⟨-, hrest, -⟩
      · rw [hrest]
        exact id
      · rw [hrest]
        exact List.mem_of_mem_tail
    rw [hposts, sendOps_moveFrom, Function.update_of_ne hop]
    rcases hs.sendPosts op with h | ⟨hmem, hout, h⟩
    · exact .inl h
    · exact .inr ⟨hmem, fun hin => hout (hsub hin), h⟩

theorem Conserving.postedReceive_moveFrom (hs : s.Conserving) {recv : β} (hrecv : recv ∈ s.receives)
    (send : α) (op : β) : (s.moveFrom recv send).PostedReceive op := by
  have hposts : (s.moveFrom recv send).posts (.inr op) = s.posts (.inr op) := by
    rcases moveFrom_cases s recv send with ⟨-, -, hposts⟩ | ⟨-, -, hposts⟩
    · rw [hposts]
    · rw [hposts, Function.update_of_ne Sum.inr_ne_inl]
  rw [PostedReceive, (submitted_moveFrom s recv send).2, receives_moveFrom, sendClosed_moveFrom, hposts]
  by_cases hop : op = recv
  · exact .inl (hop ▸ hs.posts_receive hrecv)
  · rw [receiveOps_moveFrom, Function.update_of_ne hop]
    exact hs.receivePosts op

theorem Conserving.moveFrom (hs : s.Conserving) {recv : β} {receives : List β} {send : α}
    {sends : List α} (hreceives : s.receives = recv :: receives) (hsends : s.sends = send :: sends) :
    (s.moveFrom recv send).Conserving := by
  have hrecv : recv ∈ s.receives := by
    rw [hreceives]
    exact List.mem_cons_self
  have hfrom := hs.sends
  have hinto := hs.receives
  rw [hsends] at hfrom
  rw [hreceives] at hinto
  obtain ⟨hsubmitted, hsubmitted'⟩ := submitted_moveFrom s recv send
  refine ⟨?_, ?_, ?_, hs.postedSend_moveFrom hsends, hs.postedReceive_moveFrom hrecv send⟩
  · have hproduce := hfrom.produce (sent_moveFrom_of_ne s recv send)
    rw [hsubmitted]
    rcases moveFrom_cases s recv send with ⟨-, hrest, -⟩ | ⟨-, hrest, -⟩
    · rw [hrest, hsends]
      exact hproduce
    · rw [hrest, hsends]
      exact hproduce.of_sublist (List.sublist_cons_self send sends)
  · rw [hsubmitted', receives_moveFrom, hreceives]
    exact hinto.produce (received_moveFrom_of_ne s recv send)
  · rw [hsubmitted, hsubmitted', hinto.flatMap_produce (received_moveFrom s recv send) (received_moveFrom_of_ne s recv send),
      hfrom.flatMap_produce (sent_moveFrom s recv send) (sent_moveFrom_of_ne s recv send), hs.conserved]

theorem Conserving.finish (hs : s.Conserving) {recv : β} {receives : List β} (hreceives : s.receives = recv :: receives)
    (hready : 0 < (s.receiveOps recv).numReceivedBytes ∨ s.sendClosed = true) : (s.finish recv).Conserving := by
  have hrecv : recv ∈ s.receives := by
    rw [hreceives]
    exact List.mem_cons_self
  have htail : (s.finish recv).receives = receives := by
    rw [Stream.finish, hreceives]
    rfl
  refine ⟨hs.sends, ?_, hs.conserved, hs.sendPosts, ?_⟩
  · rw [htail]
    exact hs.receives.of_sublist (hreceives ▸ List.sublist_cons_self recv receives)
  · intro op
    by_cases hop : op = recv
    · subst hop
      refine .inr ⟨hs.receives.mem_submitted hrecv, ?_, ?_, hready⟩
      · have hnodup := hs.receives.nodup_queue
        rw [hreceives] at hnodup
        rw [htail]
        exact (List.nodup_cons.mp hnodup).1
      · show Function.update s.posts (.inr op) _ (.inr op) = _
        rw [Function.update_self, hs.posts_receive hrecv, List.nil_append]
        rfl
    · have hne : (Sum.inr op : α ⊕ β) ≠ .inr recv := fun h => hop (Sum.inr.inj h)
      have hposts : (s.finish recv).posts (.inr op) = s.posts (.inr op) := Function.update_of_ne hne _ _
      rw [PostedReceive, hposts, htail]
      rcases hs.receivePosts op with h | ⟨hmem, hout, h⟩
      · exact .inl h
      · exact .inr ⟨hmem, fun hin => hout (hreceives ▸ List.mem_cons_of_mem recv hin), h⟩

theorem Conserving.tryMove (hs : s.Conserving) : s.tryMove.Conserving :=
  tryMove_keeps (fun hreceives hsends hs => hs.moveFrom hreceives hsends)
    (fun hreceives hready hs => hs.finish hreceives hready) hs

/-! ### The calls -/

theorem Conserving.sendAsync (hs : s.Conserving) (ctl : κ) {op : α} (hop : op ∉ s.submittedSends)
    (data : Bytes) : (s.sendAsync ctl op data).Conserving := by
  have hzero : (((s.sendOps op).setData data).setController ctl).sentBytes = [] := List.take_zero
  have hnew : (s.pushSend ctl op data).sent op = [] := by
    simp [sent, pushSend, hzero]
  have hsame : ∀ op' ∈ s.submittedSends, (s.pushSend ctl op data).sent op' = s.sent op' := by
    intro op' hop'
    have hne : op' ≠ op := by
      rintro rfl
      exact hop hop'
    simp [sent, pushSend, Function.update_of_ne hne]
  refine Conserving.tryMove ⟨?_, hs.receives, ?_, ?_, hs.receivePosts⟩
  · exact hs.sends.submit hop hnew hsame
  · exact hs.conserved.trans (Fifo.flatMap_submit hnew hsame).symm
  · intro op'
    by_cases h : op' = op
    · subst h
      have hnone : s.posts (.inl op') = [] := by
        rcases hs.sendPosts op' with h | h
        · exact h.1
        · exact absurd h.1 hop
      refine .inl ⟨hnone, ?_⟩
      intro _ hdata
      simpa [pushSend, SendOperation.isCompleted, SendOperation.setData, SendOperation.setController] using hdata
    · simp only [PostedSend, pushSend, Function.update_of_ne h, List.mem_append, List.mem_singleton, h, or_false]
      exact hs.sendPosts op'

theorem Conserving.receiveAsync (hs : s.Conserving) (ctl : κ) {op : β}
    (hop : op ∉ s.submittedReceives) (data : Bytes) : (s.receiveAsync ctl op data).Conserving := by
  have hzero : (((s.receiveOps op).setData data).setController ctl).getReceivedBytes = [] := List.take_zero
  have hnew : (s.pushReceive ctl op data).received op = [] := by
    simp [received, pushReceive, hzero]
  have hsame : ∀ op' ∈ s.submittedReceives, (s.pushReceive ctl op data).received op' = s.received op' := by
    intro op' hop'
    have hne : op' ≠ op := by
      rintro rfl
      exact hop hop'
    simp [received, pushReceive, Function.update_of_ne hne]
  refine Conserving.tryMove ⟨hs.sends, ?_, ?_, hs.sendPosts, ?_⟩
  · exact hs.receives.submit hop hnew hsame
  · exact (Fifo.flatMap_submit hnew hsame).trans hs.conserved
  · intro op'
    by_cases h : op' = op
    · subst h
      rcases hs.receivePosts op' with h | h
      · exact .inl h
      · exact absurd h.1 hop
    · simp only [PostedReceive, pushReceive, Function.update_of_ne h, List.mem_append, List.mem_singleton, h, or_false]
      exact hs.receivePosts op'

theorem Conserving.cancel (hs : s.Conserving) (ctl : κ) (op : α ⊕ β) : (s.cancel ctl op).Conserving := by
  have hsends : (s.cancel ctl op).sends.Sublist s.sends := by
    cases op with
    | inl send => exact List.erase_sublist
    | inr recv => exact List.Sublist.refl _
  have hreceives : (s.cancel ctl op).receives.Sublist s.receives := by
    cases op with
    | inl send => exact List.Sublist.refl _
    | inr recv => exact List.erase_sublist
  refine ⟨hs.sends.of_sublist hsends, hs.receives.of_sublist hreceives, hs.conserved, ?_, ?_⟩
  · intro op'
    rcases hs.sendPosts op' with h | ⟨hmem, hout, h⟩
    · exact .inl h
    · exact .inr ⟨hmem, fun hin => hout (hsends.subset hin), h⟩
  · intro op'
    rcases hs.receivePosts op' with h | ⟨hmem, hout, h⟩
    · exact .inl h
    · exact .inr ⟨hmem, fun hin => hout (hreceives.subset hin), h⟩

theorem Conserving.closeSend (hs : s.Conserving) : s.closeSend.Conserving := by
  refine Conserving.tryMove ⟨hs.sends, hs.receives, hs.conserved, hs.sendPosts, ?_⟩
  intro op
  rcases hs.receivePosts op with h | ⟨hmem, hout, hposts, -⟩
  · exact .inl h
  · exact .inr ⟨hmem, hout, hposts, .inr rfl⟩

/-- The call submits an operation that was submitted before. -/
def Resubmits (s : Stream κ α β) : Call κ α β → Prop
  | .sendAsync _ op _ => op ∈ s.submittedSends
  | .receiveAsync _ op _ => op ∈ s.submittedReceives
  | .cancel _ _ | .closeSend => False

theorem conserving_step {s s' : Stream κ α β} {call : Call κ α β} (h : s.step call = some s') (hs : s.Conserving)
    (honce : ¬s.Resubmits call) : s'.Conserving := by
  cases call with
  | sendAsync ctl op data =>
    rw [step] at h
    split_ifs at h
    obtain rfl := Option.some.inj h
    exact hs.sendAsync ctl honce data
  | receiveAsync ctl op data =>
    rw [step] at h
    split_ifs at h
    obtain rfl := Option.some.inj h
    exact hs.receiveAsync ctl honce data
  | cancel ctl op =>
    obtain rfl := Option.some.inj h
    exact hs.cancel ctl op
  | closeSend =>
    obtain rfl := Option.some.inj h
    exact hs.closeSend

end Stream

/-- **Bytes are conserved.** What is in the receive operations is what was taken from the send operations, in the order
of their submission; a send that is not empty is posted once, when its last byte is taken; a receive is posted at most
once, and not without a byte before the send side is closed. -/
theorem bytes_conserved (calls : List (Call κ α β)) (s : Stream κ α β) (hs : final Stream.step Stream.new calls = some s)
    (honce : ∀ t ∈ trace Stream.step Stream.new calls, ¬t.pre.Resubmits t.act) :
    s.submittedReceives.flatMap s.received = s.submittedSends.flatMap s.sent ∧
      (∀ op ∈ s.submittedSends, (s.sendOps op).data ≠ [] →
        s.posts (.inl op) =
          if (s.sendOps op).numSentBytes = (s.sendOps op).data.length then [(s.sendOps op).controller] else []) ∧
      ∀ op ∈ s.submittedReceives, s.posts (.inr op) = [] ∨
        (s.posts (.inr op) = [(s.receiveOps op).controller] ∧
          (0 < (s.receiveOps op).numReceivedBytes ∨ s.sendClosed = true)) := by
  have hconserving : s.Conserving := of_final_where (C := fun s call => ¬s.Resubmits call) Stream.conserving_step
    Stream.conserving_new honce hs
  refine ⟨hconserving.conserved, ?_, ?_⟩
  · intro op hop hdata
    have hiff := (s.sendOps op).isCompleted_iff
    rcases hconserving.sendPosts op with ⟨hposts, hopen⟩ | ⟨-, -, hposts, hcompleted⟩
    · rw [hopen hop hdata] at hiff
      rw [hposts, if_neg fun heq => by cases hiff.mpr heq]
    · rw [hposts, if_pos (hiff.mp hcompleted)]
  · intro op _
    rcases hconserving.receivePosts op with hposts | ⟨-, -, hposts, hready⟩
    · exact .inl hposts
    · exact .inr ⟨hposts, hready⟩

theorem bytes_conserved_cancel :
    let calls : List (Call Nat Nat Nat) :=
      [.sendAsync 1 1 [10, 11, 12], .receiveAsync 2 1 [0, 0], .cancel 1 (.inl 1), .sendAsync 1 2 [13],
        .receiveAsync 2 2 [0, 0]]
    ∃ s, final Stream.step Stream.new calls = some s ∧ s.submittedReceives.flatMap s.received = [10, 11, 13] ∧
      s.submittedReceives.flatMap s.received = s.submittedSends.flatMap s.sent := by
  intro calls
  obtain ⟨s, hs⟩ : ∃ s, final Stream.step Stream.new calls = some s := ⟨_, rfl⟩
  refine ⟨s, hs, ?_, (bytes_conserved calls s hs ?_).1⟩
  · obtain rfl := Option.some.inj hs
    rfl
  · refine List.forall_mem_cons.mpr ⟨List.not_mem_nil, List.forall_mem_cons.mpr ⟨List.not_mem_nil, ?_⟩⟩
    refine List.forall_mem_cons.mpr ⟨id, List.forall_mem_cons.mpr ⟨?_, List.forall_mem_cons.mpr ⟨?_, ?_⟩⟩⟩
    · show 2 ∉ [1]
      decide
    · show 2 ∉ [1]
      decide
    · exact List.forall_mem_nil _

end Afl.Net.InternalStream
