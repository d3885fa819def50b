import Mathlib.Data.List.Basic
import Mathlib.Data.Nat.ModEq

/-!
# Texts in blocks

A compression function takes a text block by block. What has been taken so far is a number of complete blocks, and a
remainder waits for its block to become complete; nothing here fixes how long the remainder may get or when a block is
taken, so that every way to cut a text into blocks ends at the same state.
-/

namespace Blocks

variable {σ α : Type} {n : Nat} {f : σ → List α → σ} {s₀ s : σ} {m r b : List α}

/-- The complete blocks of a text, in order. -/
def blocks (n : Nat) (l : List α) : List (List α) :=
  if 0 < n ∧ n ≤ l.length then l.take n :: blocks n (l.drop n) else []
termination_by l.length
decreasing_by rw [List.length_drop]; omega

/-- Compress complete blocks from the begin of a text while there are any: the state, and what remains of the text. -/
def eat (n : Nat) (f : σ → List α → σ) (s : σ) (l : List α) : σ × List α :=
  if 0 < n ∧ n ≤ l.length then eat n f (f s (l.take n)) (l.drop n) else (s, l)
termination_by l.length
decreasing_by rw [List.length_drop]; omega

theorem eat_length (hn : 0 < n) (s : σ) (l : List α) : (eat n f s l).2.length < n := by
  induction s, l using eat.induct n f with
  | case1 s l hblock ih =>
    rw [eat, if_pos hblock]
    exact ih
  | case2 s l hrest =>
    rw [eat, if_neg hrest]
    show l.length < n
    omega

theorem eat_short (s : σ) {l : List α} (hl : l.length < n) : eat n f s l = (s, l) := by
  rw [eat, if_neg fun h => absurd h.2 (Nat.not_le.mpr hl)]

theorem blocks_flatten (hn : 0 < n) {bs : List (List α)} (hbs : ∀ b ∈ bs, b.length = n) :
    blocks n bs.flatten = bs := by
  induction bs with
  | nil => rw [List.flatten_nil, blocks, if_neg fun h => absurd h.2 (Nat.not_le.mpr hn)]
  | cons b bs ih =>
    have hb : b.length = n := hbs b List.mem_cons_self
    have hlength : n ≤ (b :: bs).flatten.length := by
      rw [List.flatten_cons, List.length_append]
      omega
    rw [blocks, if_pos ⟨hn, hlength⟩, List.flatten_cons, ← hb, List.take_left, List.drop_left, hb]
    rw [ih fun c hc => hbs c (List.mem_cons_of_mem b hc)]

/-- Of the text `m`, complete blocks have been compressed from the state `s₀` on; the state is `s` and `r` remains. -/
def Absorbed (n : Nat) (f : σ → List α → σ) (s₀ : σ) (m : List α) (s : σ) (r : List α) : Prop :=
  ∃ bs : List (List α), (∀ b ∈ bs, b.length = n) ∧ m = bs.flatten ++ r ∧ s = bs.foldl f s₀

namespace Absorbed

theorem nil : Absorbed n f s₀ [] s₀ [] := ⟨[], fun _ hb => absurd hb List.not_mem_nil, rfl, rfl⟩

theorem append (h : Absorbed n f s₀ m s r) (d : List α) : Absorbed n f s₀ (m ++ d) s (r ++ d) := by
  obtain ⟨bs, hbs, rfl, rfl⟩ := h
  exact ⟨bs, hbs, List.append_assoc _ _ _, rfl⟩

theorem block (h : Absorbed n f s₀ m s (b ++ r)) (hb : b.length = n) : Absorbed n f s₀ m (f s b) r := by
  obtain ⟨bs, hbs, rfl, rfl⟩ := h
  refine ⟨bs ++ [b], ?_, ?_, ?_⟩
  · intro c hc
    rcases List.mem_append.mp hc with hc | hc
    · exact hbs c hc
    · rw [List.mem_singleton.mp hc, hb]
  · rw [List.flatten_append, List.flatten_singleton, List.append_assoc]
  · rw [List.foldl_append]; rfl

theorem complete (h : Absorbed n f s₀ m s r) {d : List α} {k : Nat} (hk : r.length + k = n) (hd : k ≤ d.length) :
    Absorbed n f s₀ (m ++ d) (f s (r ++ d.take k)) (d.drop k) := by
  have htext : r ++ d = (r ++ d.take k) ++ d.drop k := by rw [List.append_assoc, List.take_append_drop]
  have hlength : (r ++ d.take k).length = n := by
    rw [List.length_append, List.length_take]
    omega
  exact (htext ▸ h.append d).block hlength

theorem eat (h : Absorbed n f s₀ m s r) : Absorbed n f s₀ m (eat n f s r).1 (eat n f s r).2 := by
  induction s, r using eat.induct n f with
  | case1 s l hblock ih =>
    rw [Blocks.eat, if_pos hblock]
    have hlength : (l.take n).length = n := by rw [List.length_take]; omega
    exact ih (block (by rwa [List.take_append_drop]) hlength)
  | case2 s l hrest =>
    rw [Blocks.eat, if_neg hrest]
    exact h

theorem length_mod (h : Absorbed n f s₀ m s r) (hr : r.length < n) : m.length % n = r.length := by
  obtain ⟨bs, hbs, rfl, -⟩ := h
  have hflatten : bs.flatten.length % n = 0 := by
    induction bs with
    | nil => exact Nat.zero_mod n
    | cons b bs ih =>
      rw [List.flatten_cons, List.length_append, hbs b List.mem_cons_self, Nat.add_mod_left]
      exact ih fun c hc => hbs c (List.mem_cons_of_mem b hc)
  rw [List.length_append, Nat.add_mod, hflatten, Nat.zero_add, Nat.mod_mod, Nat.mod_eq_of_lt hr]

/-- **When nothing remains**, the state is the compression function folded over the blocks of the text. -/
theorem eq_foldl (hn : 0 < n) (h : Absorbed n f s₀ m s []) : s = (blocks n m).foldl f s₀ := by
  obtain ⟨bs, hbs, rfl, rfl⟩ := h
  rw [List.append_nil, blocks_flatten hn hbs]

end Absorbed

/-! ### Padding -/

/-- How many zeros follow the `0x80` that ends a text of `len` elements, so that the length field of `k` elements
completes a block. -/
def zeros (n k len : Nat) : Nat := (n - (len + 1 + k) % n) % n

theorem mod_zeros (hn : 0 < n) (k len : Nat) : (len + 1 + zeros n k len + k) % n = 0 := by
  have hlt : (len + 1 + k) % n < n := Nat.mod_lt _ hn
  have hzeros : (zeros n k len + (len + 1 + k) % n) % n = 0 := by
    rw [zeros, Nat.mod_add_mod, Nat.sub_add_cancel (Nat.le_of_lt hlt), Nat.mod_self]
  rw [Nat.add_mod_mod] at hzeros
  rw [← hzeros]
  congr 1
  omega

theorem eq_zeros {k len z : Nat} (hz : z < n) (hmod : (len + 1 + z + k) % n = 0) : z = zeros n k len := by
  have hn : 0 < n := Nat.lt_of_le_of_lt (Nat.zero_le z) hz
  have hzeros : (len + 1 + k + z) % n = (len + 1 + k + zeros n k len) % n := by
    have h₁ : len + 1 + k + z = len + 1 + z + k := by omega
    have h₂ : len + 1 + k + zeros n k len = len + 1 + zeros n k len + k := by omega
    rw [h₁, h₂, hmod, mod_zeros hn]
  have hlt : zeros n k len < n := Nat.mod_lt _ hn
  have hsame := Nat.ModEq.add_left_cancel' (len + 1 + k) hzeros
  rwa [Nat.ModEq, Nat.mod_eq_of_lt hz, Nat.mod_eq_of_lt hlt] at hsame

/-- An iterated hash: the text is ended by an element and zeros and a field for its length, and the compression function
is folded over the blocks. -/
structure Construction (σ α β : Type) where
  blockSize : Nat
  pos : 0 < blockSize
  fieldSize : Nat
  initial : σ
  compress : σ → List α → σ
  one : α
  zero : α
  field : Nat → List α
  length_field : ∀ len, (field len).length = fieldSize
  output : σ → β

namespace Construction

variable {β : Type} (c : Construction σ α β)

/-- The padded text. -/
def pad (m : List α) : List α :=
  m ++ (c.one :: List.replicate (zeros c.blockSize c.fieldSize m.length) c.zero) ++ c.field m.length

def digest (m : List α) : β := c.output ((blocks c.blockSize (c.pad m)).foldl c.compress c.initial)

theorem length_pad_mod (m : List α) : (c.pad m).length % c.blockSize = 0 := by
  have hmod := mod_zeros c.pos c.fieldSize m.length
  rw [pad, List.length_append, List.length_append, List.length_cons, List.length_replicate, c.length_field]
  rwa [show m.length + 1 + zeros c.blockSize c.fieldSize m.length =
    m.length + (zeros c.blockSize c.fieldSize m.length + 1) by omega] at hmod

/-- **The digest**, from a state that has absorbed the padded text. -/
theorem output_eq_digest {c : Construction σ α β} {m r : List α} {s : σ}
    (h : Absorbed c.blockSize c.compress c.initial (c.pad m) s r) (hr : r.length < c.blockSize) :
    c.output s = c.digest m := by
  have hlength := h.length_mod hr
  rw [c.length_pad_mod] at hlength
  rw [List.eq_nil_of_length_eq_zero hlength.symm] at h
  rw [digest, ← h.eq_foldl c.pos]

end Construction

end Blocks
