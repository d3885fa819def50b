import Afl.Bits.Pack

/-!
# Data sinks

`split` and `splitUpdate` of `afl/base/memory.hpp` with their integer types, and the sinks that stand in front of
another one: `afl/io/limiteddatasink.cpp` and `afl/io/bufferedsink.cpp`. What the other sink has been handed is a list
of blocks.
-/

namespace Afl

/-! ### Descriptors -/

/-- A descriptor; its size is a `size_t` of `s` bits. -/
structure Memory (α : Type) (s : Nat) where
  data : List α
  length_lt : data.length < 2 ^ s

namespace Memory

variable {α : Type} {s w : Nat}

def size (m : Memory α s) : BitVec s := BitVec.ofNat s m.data.length

def take (n : Nat) (m : Memory α s) : Memory α s where
  data := m.data.take n
  length_lt := (List.length_take_le' n m.data).trans_lt m.length_lt

def drop (n : Nat) (m : Memory α s) : Memory α s where
  data := m.data.drop n
  length_lt := (List.length_drop.trans_le (Nat.sub_le _ _)).trans_lt m.length_lt

/-- The number of elements that `splitUpdate` chops off; the amount is an unsigned number of `w` bits. -/
def realSize (m : Memory α s) (amount : BitVec w) : BitVec s :=
  if amount ≤ 0#w then 0#s
  else if (amount.setWidth s).setWidth w ≠ amount then m.size
  else if m.size < amount.setWidth s then m.size
  else amount.setWidth s

/-- `splitUpdate`: the elements that are chopped off, the descriptor and the amount afterwards. -/
def splitUpdate (m : Memory α s) (amount : BitVec w) : Memory α s × Memory α s × BitVec w :=
  let realSize := m.realSize amount
  (m.take realSize.toNat, m.drop realSize.toNat,
    if realSize ≠ 0#s then (amount.setWidth s - realSize).setWidth w else amount)

theorem toNat_size (m : Memory α s) : m.size.toNat = m.data.length := by
  rw [size, BitVec.toNat_ofNat, Nat.mod_eq_of_lt m.length_lt]

theorem setWidth_setWidth_eq_iff (amount : BitVec w) :
    (amount.setWidth s).setWidth w = amount ↔ amount.toNat < 2 ^ s := by
  rw [← BitVec.toNat_inj, BitVec.toNat_setWidth, BitVec.toNat_setWidth]
  constructor
  · intro h
    have hless := Nat.mod_lt amount.toNat (Nat.two_pow_pos s)
    exact h ▸ (Nat.mod_le _ _).trans_lt hless
  · intro h
    rw [Nat.mod_eq_of_lt h, Nat.mod_eq_of_lt amount.isLt]

theorem toNat_realSize (m : Memory α s) (amount : BitVec w) :
    (m.realSize amount).toNat = min m.data.length amount.toNat := by
  rw [realSize]
  by_cases hzero : amount ≤ 0#w
  · have hamount : amount.toNat = 0 := Nat.le_zero.mp (BitVec.le_def.mp hzero)
    rw [if_pos hzero, hamount, Nat.min_zero, BitVec.toNat_ofNat, Nat.zero_mod]
  rw [if_neg hzero]
  by_cases hfits : amount.toNat < 2 ^ s
  · have hsame : (amount.setWidth s).toNat = amount.toNat := by
      rw [BitVec.toNat_setWidth, Nat.mod_eq_of_lt hfits]
    rw [if_neg (not_not_intro ((setWidth_setWidth_eq_iff amount).mpr hfits))]
    by_cases hless : m.size < amount.setWidth s
    · rw [if_pos hless, toNat_size]
      rw [BitVec.lt_def, toNat_size, hsame] at hless
      exact (Nat.min_eq_left hless.le).symm
    · rw [if_neg hless, hsame]
      rw [BitVec.lt_def, toNat_size, hsame] at hless
      exact (Nat.min_eq_right (Nat.le_of_not_lt hless)).symm
  · have hlength := m.length_lt
    rw [if_pos (mt (setWidth_setWidth_eq_iff amount).mp hfits), toNat_size, Nat.min_eq_left (by omega)]

theorem toNat_sub_realSize (m : Memory α s) (amount : BitVec w) :
    (amount.setWidth s - m.realSize amount).toNat = (amount.toNat - min m.data.length amount.toNat) % 2 ^ s := by
  have hle : min m.data.length amount.toNat ≤ 2 ^ s := (Nat.min_le_left _ _).trans m.length_lt.le
  have hsum : 2 ^ s - min m.data.length amount.toNat + amount.toNat =
      2 ^ s + (amount.toNat - min m.data.length amount.toNat) := by omega
  rw [BitVec.toNat_sub, toNat_realSize, BitVec.toNat_setWidth, Nat.add_mod_mod, hsum, Nat.add_mod_left]

theorem toNat_splitUpdate (m : Memory α s) (amount : BitVec w) :
    (m.splitUpdate amount).2.2.toNat =
      if m.data = [] ∨ amount.toNat < 2 ^ s then amount.toNat - min m.data.length amount.toNat
      else (amount.toNat - m.data.length) % 2 ^ s := by
  have hreal := m.toNat_realSize amount
  show (if m.realSize amount ≠ 0#s then (amount.setWidth s - m.realSize amount).setWidth w else amount).toNat = _
  by_cases hzero : m.realSize amount = 0#s
  · rw [hzero, BitVec.toNat_ofNat, Nat.zero_mod] at hreal
    rw [if_neg (not_not_intro hzero), ← hreal, Nat.sub_zero]
    split_ifs with hcase
    · rfl
    · rw [not_or, List.eq_nil_iff_length_eq_zero] at hcase
      have hpos := Nat.two_pow_pos s
      omega
  have hkeep : (amount.toNat - min m.data.length amount.toNat) % 2 ^ s < 2 ^ w :=
    (Nat.mod_le _ _).trans_lt ((Nat.sub_le _ _).trans_lt amount.isLt)
  rw [if_pos hzero, BitVec.toNat_setWidth, toNat_sub_realSize, Nat.mod_eq_of_lt hkeep]
  split_ifs with hcase
  · rcases hcase with hnil | hfits
    · rw [hnil, List.length_nil, Nat.zero_min] at hreal
      exact absurd (BitVec.eq_of_toNat_eq (hreal.trans BitVec.toNat_zero.symm)) hzero
    · exact Nat.mod_eq_of_lt ((Nat.sub_le _ _).trans_lt hfits)
  · rw [not_or, Nat.not_lt] at hcase
    rw [Nat.min_eq_left (m.length_lt.le.trans hcase.2)]

/-- The books are kept: `r` elements are taken, the others are left, and the amount is reduced by `r`. -/
structure SplitsExactly (m : Memory α s) (amount : BitVec w) : Prop where
  taken : (m.splitUpdate amount).1.data = m.data.take (min m.data.length amount.toNat)
  left : (m.splitUpdate amount).2.1.data = m.data.drop (min m.data.length amount.toNat)
  amount : (m.splitUpdate amount).2.2.toNat = amount.toNat - min m.data.length amount.toNat

theorem data_splitUpdate (m : Memory α s) (amount : BitVec w) :
    (m.splitUpdate amount).1.data = m.data.take (min m.data.length amount.toNat) ∧
      (m.splitUpdate amount).2.1.data = m.data.drop (min m.data.length amount.toNat) := by
  rw [← toNat_realSize]
  exact ⟨rfl, rfl⟩

/-- **When the books are kept**: iff the amount that remains is a `size_t`, or there is nothing to take. -/
theorem splitsExactly_iff (m : Memory α s) (amount : BitVec w) :
    SplitsExactly m amount ↔ m.data = [] ∨ amount.toNat < 2 ^ s + m.data.length := by
  have hlength := m.length_lt
  have hiff : SplitsExactly m amount ↔
      (m.splitUpdate amount).2.2.toNat = amount.toNat - min m.data.length amount.toNat :=
    ⟨fun h => h.amount, fun h => ⟨(m.data_splitUpdate amount).1, (m.data_splitUpdate amount).2, h⟩⟩
  rw [hiff, toNat_splitUpdate]
  split_ifs with hcase
  · exact iff_of_true rfl (hcase.imp id fun h => h.trans_le (Nat.le_add_right _ _))
  · rw [not_or, Nat.not_lt] at hcase
    rw [or_iff_right hcase.1, Nat.min_eq_left (hlength.le.trans hcase.2)]
    constructor
    · intro h
      have hless := Nat.mod_lt (amount.toNat - m.data.length) (Nat.two_pow_pos s)
      omega
    · intro h
      exact Nat.mod_eq_of_lt (by omega)

end Memory

namespace Io

/-! ### LimitedDataSink -/

/-- `Stream::FileSize_t` has 64 bits. -/
structure LimitedDataSink where
  m_limit : BitVec 64
  peer : List Bytes

namespace LimitedDataSink

variable {s : Nat}

def new (limit : BitVec 64) : LimitedDataSink where
  m_limit := limit
  peer := []

/-- `handleData`: the sink and the descriptor afterwards, and whether no more data is required. -/
def handleData (sink : LimitedDataSink) (data : Memory UInt8 s) : LimitedDataSink × Memory UInt8 s × Bool :=
  let (peerData, data, m_limit) := data.splitUpdate sink.m_limit
  (⟨m_limit, sink.peer ++ [peerData.data]⟩, data, m_limit = 0#64)

/-- The sink after some calls. -/
def run (sink : LimitedDataSink) (chunks : List (Memory UInt8 s)) : LimitedDataSink :=
  chunks.foldl (fun sink data => (sink.handleData data).1) sink

def total (chunks : List (Memory UInt8 s)) : Bytes := chunks.flatMap Memory.data

/-- As much as the limit allows has been forwarded, and the last call has reported completion iff that is all of it. -/
structure Limits (limit : BitVec 64) (chunks : List (Memory UInt8 s)) : Prop where
  forwarded : ((new limit).run chunks).peer.flatten = (total chunks).take limit.toNat
  completed : ∀ front last, chunks = front ++ [last] →
    (((new limit).run front).handleData last).2.2 = decide (limit.toNat ≤ (total chunks).length)

def firstSize : List (Memory UInt8 s) → Nat
  | [] => 0
  | chunk :: chunks => if chunk.data = [] then firstSize chunks else chunk.data.length

def effective (limit : BitVec 64) (chunks : List (Memory UInt8 s)) : Nat :=
  if total chunks = [] ∨ limit.toNat < 2 ^ s + firstSize chunks then limit.toNat
  else firstSize chunks + (limit.toNat - firstSize chunks) % 2 ^ s

theorem limit_handleData (sink : LimitedDataSink) (data : Memory UInt8 s) :
    (sink.handleData data).1.m_limit = (data.splitUpdate sink.m_limit).2.2 := rfl

theorem peer_handleData (sink : LimitedDataSink) (data : Memory UInt8 s) :
    (sink.handleData data).1.peer.flatten = sink.peer.flatten ++ data.data.take sink.m_limit.toNat := by
  show (sink.peer ++ [(data.splitUpdate sink.m_limit).1.data]).flatten = _
  rw [List.flatten_append, List.flatten_singleton, (data.data_splitUpdate _).1, Nat.min_comm,
    ← List.take_eq_take_min]

theorem run_small {sink : LimitedDataSink} (chunks : List (Memory UInt8 s)) (hsmall : sink.m_limit.toNat < 2 ^ s) :
    (sink.run chunks).peer.flatten = sink.peer.flatten ++ (total chunks).take sink.m_limit.toNat ∧
      (sink.run chunks).m_limit.toNat = sink.m_limit.toNat - (total chunks).length := by
  induction chunks generalizing sink with
  | nil => exact ⟨by simp [run, total], rfl⟩
  | cons chunk chunks ih =>
    have hlimit : (sink.handleData chunk).1.m_limit.toNat = sink.m_limit.toNat - chunk.data.length := by
      rw [limit_handleData, Memory.toNat_splitUpdate, if_pos (.inr hsmall)]
      omega
    obtain ⟨hpeer, hleft⟩ := ih (hlimit.trans_lt ((Nat.sub_le _ _).trans_lt hsmall))
    have htotal : total (chunk :: chunks) = chunk.data ++ total chunks := rfl
    rw [hlimit] at hpeer hleft
    refine ⟨hpeer.trans ?_, hleft.trans ?_⟩
    · rw [peer_handleData, htotal, List.take_append, List.append_assoc]
    · rw [htotal, List.length_append, Nat.sub_sub]

theorem total_cons (chunk : Memory UInt8 s) (chunks : List (Memory UInt8 s)) :
    total (chunk :: chunks) = chunk.data ++ total chunks := rfl

theorem handleData_effective (sink : LimitedDataSink) {chunk : Memory UInt8 s} (hdata : chunk.data ≠ [])
    (chunks : List (Memory UInt8 s)) :
    (sink.handleData chunk).1.m_limit.toNat < 2 ^ s ∧
      (sink.handleData chunk).1.m_limit.toNat = effective sink.m_limit (chunk :: chunks) - chunk.data.length ∧
      chunk.data.take sink.m_limit.toNat = chunk.data.take (effective sink.m_limit (chunk :: chunks)) := by
  have hfirst : firstSize (chunk :: chunks) = chunk.data.length := by rw [firstSize, if_neg hdata]
  have htotal : total (chunk :: chunks) ≠ [] := fun h => hdata (List.append_eq_nil_iff.mp h).1
  have hpos := Nat.two_pow_pos s
  rw [limit_handleData, effective, hfirst]
  by_cases hfits : sink.m_limit.toNat < 2 ^ s + chunk.data.length
  · have hamount := ((chunk.splitsExactly_iff sink.m_limit).mpr (.inr hfits)).amount
    rw [if_pos (.inr hfits), hamount]
    exact ⟨by omega, by omega, rfl⟩
  · have hlarge : ¬(chunk.data = [] ∨ sink.m_limit.toNat < 2 ^ s) := by
      rw [not_or]
      exact ⟨hdata, by omega⟩
    rw [if_neg (not_or.mpr ⟨htotal, hfits⟩), Memory.toNat_splitUpdate, if_neg hlarge, Nat.add_sub_cancel_left,
      List.take_of_length_le (by omega), List.take_of_length_le (Nat.le_add_right _ _)]
    exact ⟨Nat.mod_lt _ (Nat.two_pow_pos s), rfl, rfl⟩

/-- **What the sink does**: it forwards the data up to the limit in effect. -/
theorem run_effective (sink : LimitedDataSink) (chunks : List (Memory UInt8 s)) :
    (sink.run chunks).peer.flatten = sink.peer.flatten ++ (total chunks).take (effective sink.m_limit chunks) ∧
      (sink.run chunks).m_limit.toNat = effective sink.m_limit chunks - (total chunks).length := by
  induction chunks generalizing sink with
  | nil =>
    have hlimit : effective sink.m_limit ([] : List (Memory UInt8 s)) = sink.m_limit.toNat := if_pos (.inl rfl)
    rw [hlimit]
    exact ⟨by simp [run, total], rfl⟩
  | cons chunk chunks ih =>
    by_cases hdata : chunk.data = []
    · have hlimit : (sink.handleData chunk).1.m_limit = sink.m_limit := by
        refine BitVec.eq_of_toNat_eq ?_
        rw [limit_handleData, Memory.toNat_splitUpdate, if_pos (.inl hdata), hdata, List.length_nil, Nat.zero_min,
          Nat.sub_zero]
      have htotal : total (chunk :: chunks) = total chunks := by rw [total_cons, hdata, List.nil_append]
      have heffective : effective sink.m_limit (chunk :: chunks) = effective sink.m_limit chunks := by
        rw [effective, effective, htotal, firstSize, if_pos hdata]
      have hpeer := peer_handleData sink chunk
      obtain ⟨hrun, hleft⟩ := ih (sink.handleData chunk).1
      rw [hdata, List.take_nil, List.append_nil] at hpeer
      rw [hlimit] at hrun hleft
      rw [heffective, htotal, ← hpeer]
      exact ⟨hrun, hleft⟩
    · obtain ⟨hsmall, hlimit, htake⟩ := handleData_effective sink hdata chunks
      obtain ⟨hrun, hleft⟩ := run_small chunks hsmall
      rw [hlimit] at hrun hleft
      rw [peer_handleData, htake, List.append_assoc, ← List.take_append] at hrun
      exact ⟨hrun, hleft.trans (by rw [total_cons, List.length_append, Nat.sub_sub])⟩

theorem effective_le (limit : BitVec 64) (chunks : List (Memory UInt8 s)) : effective limit chunks ≤ limit.toNat := by
  rw [effective]
  split_ifs with hcase
  · exact le_rfl
  · rw [not_or, Nat.not_lt] at hcase
    have hless := Nat.mod_le (limit.toNat - firstSize chunks) (2 ^ s)
    omega

theorem completed_effective (limit : BitVec 64) (front : List (Memory UInt8 s)) (last : Memory UInt8 s) :
    (((new limit).run front).handleData last).2.2 =
      decide (effective limit (front ++ [last]) ≤ (total (front ++ [last])).length) := by
  have hlimit := ((new limit).run_effective (front ++ [last])).2
  have hrun : (new limit).run (front ++ [last]) = (((new limit).run front).handleData last).1 := by
    rw [run, List.foldl_append]
    rfl
  rw [hrun] at hlimit
  have hzero : (((new limit).run front).handleData last).1.m_limit = 0#64 ↔
      effective limit (front ++ [last]) ≤ (total (front ++ [last])).length := by
    rw [← BitVec.toNat_inj, hlimit]
    exact Nat.sub_eq_zero_iff_le
  exact decide_eq_decide.mpr hzero

theorem limits_iff_effective (limit : BitVec 64) (chunks : List (Memory UInt8 s)) :
    Limits limit chunks ↔ effective limit chunks = limit.toNat ∨ (total chunks).length < effective limit chunks := by
  have hle := effective_le limit chunks
  have hforwarded : ((new limit).run chunks).peer.flatten = (total chunks).take (effective limit chunks) :=
    ((new limit).run_effective chunks).1
  constructor
  · intro h
    by_contra hneither
    rw [not_or, Nat.not_lt] at hneither
    have hlength := congrArg List.length (hforwarded.symm.trans h.forwarded)
    rw [List.length_take, List.length_take] at hlength
    rcases List.eq_nil_or_concat chunks with rfl | ⟨front, last, rfl⟩
    · exact hneither.1 (if_pos (.inl rfl))
    · rw [List.concat_eq_append] at *
      have hdone := h.completed front last rfl
      rw [completed_effective, decide_eq_decide] at hdone
      omega
  · intro h
    refine ⟨hforwarded.trans ?_, ?_⟩
    · rw [List.take_eq_take_iff]
      omega
    · rintro front last rfl
      rw [completed_effective, decide_eq_decide]
      omega

/-- **When the limit is kept**: iff no more than a `size_t` of it is left behind the first data, or the data does not
reach what the limit becomes there. -/
theorem limits_iff (limit : BitVec 64) (chunks : List (Memory UInt8 s)) :
    Limits limit chunks ↔
      total chunks = [] ∨ limit.toNat < 2 ^ s + firstSize chunks ∨
        (total chunks).length < firstSize chunks + (limit.toNat - firstSize chunks) % 2 ^ s := by
  rw [limits_iff_effective, effective, ← or_assoc]
  split_ifs with hcase
  · exact iff_of_true (.inl rfl) (.inl hcase)
  · rw [or_iff_right hcase]
    refine or_iff_right fun h => ?_
    rw [not_or, Nat.not_lt] at hcase
    have hless := Nat.mod_lt (limit.toNat - firstSize chunks) (Nat.two_pow_pos s)
    omega

end LimitedDataSink

/-- **Counts of any width.** -/
theorem splitUpdate_exact_iff {α : Type} {s w : Nat} (m : Memory α s) (amount : BitVec w) (limit : BitVec 64)
    (chunks : List (Memory UInt8 s)) :
    (m.SplitsExactly amount ↔ m.data = [] ∨ amount.toNat < 2 ^ s + m.data.length) ∧
      (LimitedDataSink.Limits limit chunks ↔
        LimitedDataSink.total chunks = [] ∨ limit.toNat < 2 ^ s + LimitedDataSink.firstSize chunks ∨
          (LimitedDataSink.total chunks).length <
            LimitedDataSink.firstSize chunks + (limit.toNat - LimitedDataSink.firstSize chunks) % 2 ^ s) :=
  ⟨m.splitsExactly_iff amount, LimitedDataSink.limits_iff limit chunks⟩

/-- One byte, where `size_t` has 32 bits. -/
def oneByte : Memory UInt8 32 where
  data := [7]
  length_lt := Nat.one_lt_two_pow (Nat.succ_ne_zero 31)

theorem splitUpdate_drops_upper_half :
    ¬oneByte.SplitsExactly 4294967297#64 ∧ ¬LimitedDataSink.Limits 4294967297#64 [oneByte] := by
  constructor
  · rw [Memory.splitsExactly_iff]
    decide
  · rw [LimitedDataSink.limits_iff]
    decide

/-! ### BufferedSink -/

open Bits (Buffer)

/-- The size of `m_rawBuffer`. -/
def BufferedSink.bufferSize : Nat := 1024

/-- `m_buffer` always describes all of `m_rawBuffer`. -/
structure BufferedSink where
  m_rawBuffer : Buffer BufferedSink.bufferSize
  m_bufferFill : Nat
  sink : List Bytes

namespace BufferedSink

/-- The constructor; it does not initialise the buffer. -/
def new (uninit : Buffer bufferSize) : BufferedSink where
  m_rawBuffer := uninit
  m_bufferFill := 0
  sink := []

def flush (b : BufferedSink) : BufferedSink :=
  if b.m_bufferFill ≠ 0 then
    { b with m_bufferFill := 0, sink := b.sink ++ [b.m_rawBuffer.bytes.take b.m_bufferFill] }
  else b

/-- The part of the loop body that writes through the buffer. -/
def fill (b : BufferedSink) (data : Bytes) (copied : Nat) : BufferedSink :=
  let b := { b with m_rawBuffer := b.m_rawBuffer.write b.m_bufferFill data, m_bufferFill := b.m_bufferFill + copied }
  if bufferSize ≤ b.m_bufferFill then b.flush else b

/-- `handleData`, which always wants more data; `none` is a failed assertion. -/
def handleData (b : BufferedSink) (data : Bytes) : Option BufferedSink :=
  if data = [] then some b
  else if b.m_bufferFill = 0 ∧ bufferSize ≤ data.length then some { b with sink := b.sink ++ [data] }
  else
    let copied := min (bufferSize - b.m_bufferFill) data.length
    if _h : copied = 0 then none else handleData (b.fill data copied) (data.drop copied)
termination_by data.length
decreasing_by rw [List.length_drop]; omega

def handleChunks (b : BufferedSink) (chunks : List Bytes) : Option BufferedSink := chunks.foldlM handleData b

def text (b : BufferedSink) : Bytes := b.sink.flatten ++ b.m_rawBuffer.bytes.take b.m_bufferFill

theorem flush_spec (b : BufferedSink) : b.flush.m_bufferFill = 0 ∧ b.flush.sink.flatten = b.text := by
  rw [flush, text]
  split_ifs with hfill
  · exact ⟨rfl, by rw [List.flatten_append, List.flatten_singleton]⟩
  · rw [not_not] at hfill
    exact ⟨hfill, by rw [hfill, List.take_zero, List.append_nil]⟩

theorem text_flush (b : BufferedSink) : b.flush.text = b.text := by
  obtain ⟨hfill, hsink⟩ := b.flush_spec
  rw [text, hfill, hsink, List.take_zero, List.append_nil]

theorem fill_spec {b : BufferedSink} (hb : b.m_bufferFill < bufferSize) (data : Bytes) :
    (b.fill data (min (bufferSize - b.m_bufferFill) data.length)).m_bufferFill < bufferSize ∧
      (b.fill data (min (bufferSize - b.m_bufferFill) data.length)).text =
        b.text ++ data.take (min (bufferSize - b.m_bufferFill) data.length) := by
  let written : BufferedSink :=
    { b with
      m_rawBuffer := b.m_rawBuffer.write b.m_bufferFill data
      m_bufferFill := b.m_bufferFill + min (bufferSize - b.m_bufferFill) data.length }
  have htext : written.text = b.text ++ data.take (min (bufferSize - b.m_bufferFill) data.length) := by
    show b.sink.flatten ++ (b.m_rawBuffer.write b.m_bufferFill data).bytes.take _ = _
    rw [b.m_rawBuffer.take_write_min hb.le, ← List.append_assoc]
    rfl
  show (if bufferSize ≤ written.m_bufferFill then written.flush else written).m_bufferFill < _ ∧
    (if bufferSize ≤ written.m_bufferFill then written.flush else written).text = _
  split_ifs with hfull
  · rw [text_flush, written.flush_spec.1]
    exact ⟨by decide, htext⟩
  · exact ⟨Nat.lt_of_not_le hfull, htext⟩

theorem handleData_spec {b : BufferedSink} (hb : b.m_bufferFill < bufferSize) (data : Bytes) :
    ∃ b', b.handleData data = some b' ∧ b'.m_bufferFill < bufferSize ∧ b'.text = b.text ++ data := by
  induction b, data using handleData.induct with
  | case1 b => exact ⟨b, by rw [handleData, if_pos rfl], hb, (List.append_nil _).symm⟩
  | case2 b data hdata hdirect =>
    refine ⟨{ b with sink := b.sink ++ [data] }, by rw [handleData, if_neg hdata, if_pos hdirect], hb, ?_⟩
    -- nothing is pending that the data could overtake
    show (b.sink ++ [data]).flatten ++ b.m_rawBuffer.bytes.take b.m_bufferFill = _
    rw [text, hdirect.1, List.take_zero, List.append_nil, List.append_nil, List.flatten_append, List.flatten_singleton]
  | case3 b data hdata hbuffered copied hzero =>
    have hpos := List.length_pos_of_ne_nil hdata
    omega
  | case4 b data hdata hbuffered copied hcopied ih =>
    obtain ⟨hroom, htext⟩ := fill_spec hb data
    obtain ⟨b', hb', hroom', htext'⟩ := ih hroom
    refine ⟨b', ?_, hroom', ?_⟩
    · rw [handleData, if_neg hdata, if_neg hbuffered]
      exact (dif_neg hcopied).trans hb'
    · rw [htext', htext, List.append_assoc, List.take_append_drop]

theorem handleChunks_spec {b : BufferedSink} (hb : b.m_bufferFill < bufferSize) (chunks : List Bytes) :
    ∃ b', b.handleChunks chunks = some b' ∧ b'.m_bufferFill < bufferSize ∧ b'.text = b.text ++ chunks.flatten := by
  induction chunks generalizing b with
  | nil => exact ⟨b, rfl, hb, (List.append_nil _).symm⟩
  | cons data chunks ih =>
    obtain ⟨b₁, hfirst, hroom₁, htext₁⟩ := handleData_spec hb data
    obtain ⟨b₂, hlater, hroom₂, htext₂⟩ := ih hroom₁
    refine ⟨b₂, ?_, hroom₂, ?_⟩
    · rw [handleChunks, List.foldlM_cons, hfirst]
      exact hlater
    · rw [htext₂, htext₁, List.flatten_cons, List.append_assoc]

/-- **The buffer is transparent.** After any calls and a flush the other sink has been handed their data in order. -/
theorem sink_flush (uninit : Buffer bufferSize) (chunks : List Bytes) :
    ∃ b, (new uninit).handleChunks chunks = some b ∧ b.flush.sink.flatten = chunks.flatten := by
  have hroom : (new uninit).m_bufferFill < bufferSize := Nat.zero_lt_succ 1023
  obtain ⟨b, hb, -, htext⟩ := handleChunks_spec hroom chunks
  exact ⟨b, hb, b.flush_spec.2.trans htext⟩

end BufferedSink

end Io

end Afl
