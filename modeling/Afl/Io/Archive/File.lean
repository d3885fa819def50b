import Afl.Base.Bytes

/-!
# The file an archive is read from

What the archive readers use of `Stream`: a content, a position and the ability to seek. Reads return as much as there
is, as those of a file in memory do.
-/

namespace Afl.Io.Archive

/-- The exceptions of the readers, with the name of the file and the texts they carry. -/
inductive FileError
  | fileFormat (source message : Bytes)
  | fileTooShort (source : Bytes)
  | fileProblem (source message : Bytes)
  deriving DecidableEq

/-- The size of a file is in the range of a signed 64-bit number, as that of every object and file is. -/
structure File where
  name : Bytes
  content : Bytes
  canSeek : Bool
  pos : UInt64
  small : content.length < 0x8000000000000000
  deriving DecidableEq

namespace File

def bytesAt (f : File) (pos : UInt64) (size : Nat) : Bytes := (f.content.drop pos.toNat).take size

def read (f : File) (size : Nat) : Bytes × File :=
  let out := f.bytesAt f.pos size
  (out, { f with pos := f.pos + UInt64.ofNat out.length })

/-- A file that cannot seek accepts the position it has. -/
def setPos (f : File) (pos : UInt64) : Except FileError Unit × File :=
  if f.canSeek ∨ pos = f.pos then (.ok (), { f with pos := pos })
  else (.error (.fileProblem f.name (lit "Invalid operation")), f)

/-- `Stream::fullRead`: as a read returns all there is, the second one would return nothing. -/
def fullRead (f : File) (size : Nat) : Except FileError Bytes × File :=
  let (out, f) := f.read size
  if out.length = size then (.ok out, f) else (.error (.fileTooShort f.name), f)

/-- The loop of `skip` that reads through data in pieces. -/
def skip : Nat → File → UInt64 → Except FileError Unit × File
  | 0, f, _ => (.ok (), f)
  | fuel + 1, f, amount =>
    if amount = 0 then (.ok (), f)
    else
      let (out, f) := f.read (min amount.toNat 4096)
      if out.length = 0 then (.error (.fileTooShort f.name), f)
      else skip fuel f (amount - UInt64.ofNat out.length)

/-- Go to the next entry: by a seek if possible or necessary, otherwise by reading. -/
def skipTo (f : File) (pos : UInt64) : Except FileError Unit × File :=
  if f.pos ≠ pos then
    if f.pos > pos ∨ f.canSeek then f.setPos pos else skip (pos - f.pos).toNat f (pos - f.pos)
  else (.ok (), f)

/-! ### Positions -/

def moved (f : File) (pos : UInt64) : File := { f with pos := pos }

@[simp] theorem pos_moved (f : File) (p : UInt64) : (f.moved p).pos = p := rfl

@[simp] theorem moved_moved (f : File) (p q : UInt64) : (f.moved p).moved q = f.moved q := rfl

@[simp] theorem moved_pos (f : File) : f.moved f.pos = f := rfl

theorem read_moved (f : File) (p : UInt64) (size : Nat) :
    (f.moved p).read size = (f.bytesAt p size, f.moved (p + UInt64.ofNat (f.bytesAt p size).length)) := rfl

theorem length_bytesAt (f : File) (pos : UInt64) (size : Nat) :
    (f.bytesAt pos size).length = min size (f.content.length - pos.toNat) := by
  rw [bytesAt, List.length_take, List.length_drop]

variable {f : File}

theorem inside_of_length {pos : UInt64} {size : Nat} (hsize : 0 < size)
    (h : (f.bytesAt pos size).length = size) : pos.toNat + size ≤ f.content.length := by
  rw [f.length_bytesAt] at h
  omega

theorem toNat_add {pos amount : UInt64} (hpos : pos.toNat ≤ f.content.length)
    (hamount : amount.toNat < 0x8000000000000000) : (pos + amount).toNat = pos.toNat + amount.toNat := by
  have hsmall := f.small
  rw [UInt64.toNat_add]
  omega

theorem setPos_moved (f : File) (p q : UInt64) :
    (f.moved p).setPos q = (.ok (), f.moved q) ∨
      f.canSeek = false ∧ (f.moved p).setPos q = (.error (.fileProblem f.name (lit "Invalid operation")), f.moved p) := by
  rw [setPos]
  rcases hseek : f.canSeek
  · split_ifs
    · exact .inl rfl
    · exact .inr ⟨rfl, rfl⟩
  · exact .inl (if_pos (.inl hseek))

theorem fullRead_of_length {p : UInt64} {size : Nat} (h : (f.bytesAt p size).length = size) :
    (f.moved p).fullRead size = (.ok (f.bytesAt p size), f.moved (p + UInt64.ofNat size)) := by
  rw [fullRead, read_moved]
  simp only [h, if_true]

theorem fullRead_of_short {p : UInt64} {size : Nat} (h : (f.bytesAt p size).length ≠ size) :
    ∃ q, f.content.length ≤ q.toNat ∧ (f.moved p).fullRead size = (.error (.fileTooShort f.name), f.moved q) := by
  have hlength := f.length_bytesAt p size
  have hsmall := f.small
  have hpos := p.toNat_lt
  refine ⟨p + UInt64.ofNat (f.bytesAt p size).length, ?_, ?_⟩
  · rw [UInt64.toNat_add, UInt64.toNat_ofNat']
    omega
  · rw [fullRead, read_moved]
    simp only [h, if_false]
    rfl

theorem skip_zero (fuel : Nat) (f : File) : skip fuel f 0 = (.ok (), f) := by
  cases fuel <;> rfl

theorem skip_succ {fuel : Nat} {amount : UInt64} (hamount : amount ≠ 0) {n : Nat}
    (hn : (f.bytesAt f.pos (min amount.toNat 4096)).length = n) :
    skip (fuel + 1) f amount =
      if n = 0 then (.error (.fileTooShort f.name), f.moved (f.pos + UInt64.ofNat n))
      else skip fuel (f.moved (f.pos + UInt64.ofNat n)) (amount - UInt64.ofNat n) := by
  rw [skip, if_neg hamount, ← hn]
  rfl

theorem skip_eq {fuel : Nat} {amount : UInt64} (hfuel : amount.toNat ≤ fuel) (hpos : f.pos.toNat ≤ f.content.length) :
    skip fuel f amount =
      if f.pos.toNat + amount.toNat ≤ f.content.length then (.ok (), f.moved (f.pos + amount))
      else (.error (.fileTooShort f.name), f.moved (UInt64.ofNat f.content.length)) := by
  have hsmall := f.small
  induction fuel generalizing f amount with
  | zero =>
    have hzero : amount = 0 := UInt64.toNat_inj.mp (by rw [UInt64.toNat_zero]; omega)
    rw [hzero, UInt64.add_zero, UInt64.toNat_zero, if_pos (show f.pos.toNat + 0 ≤ _ from hpos)]
    rfl
  | succ fuel ih =>
    by_cases hzero : amount = 0
    · rw [hzero, UInt64.add_zero, UInt64.toNat_zero, if_pos (show f.pos.toNat + 0 ≤ _ from hpos)]
      exact skip_zero _ f
    · have hpositive : amount.toNat ≠ 0 := fun h => hzero (UInt64.toNat_inj.mp (h.trans UInt64.toNat_zero.symm))
      have hamount := amount.toNat_lt
      have hout := f.length_bytesAt f.pos (min amount.toNat 4096)
      rw [skip_succ hzero rfl]
      generalize (f.bytesAt f.pos (min amount.toNat 4096)).length = n at hout ⊢
      have hn : (UInt64.ofNat n).toNat = n := by
        rw [UInt64.toNat_ofNat']
        omega
      by_cases hempty : n = 0
      · have hend : f.pos = UInt64.ofNat f.content.length := by
          apply UInt64.toNat_inj.mp
          rw [UInt64.toNat_ofNat']
          omega
        have hshort : ¬f.pos.toNat + amount.toNat ≤ f.content.length := by omega
        rw [if_pos hempty, if_neg hshort, hempty, ← hend, show UInt64.ofNat 0 = 0 from rfl, UInt64.add_zero]
      · have hle : UInt64.ofNat n ≤ amount := by
          rw [UInt64.le_iff_toNat_le, hn]
          omega
        have hless : (amount - UInt64.ofNat n).toNat = amount.toNat - n := by
          rw [UInt64.toNat_sub_of_le _ _ hle, hn]
        have hnext : (f.pos + UInt64.ofNat n).toNat = f.pos.toNat + n := by
          rw [toNat_add hpos (by omega), hn]
        have hsum : f.pos + UInt64.ofNat n + (amount - UInt64.ofNat n) = f.pos + amount := by
          rw [UInt64.add_assoc, UInt64.add_comm _ (amount - _), UInt64.sub_add_cancel]
        have hfuel' : (amount - UInt64.ofNat n).toNat ≤ fuel := by omega
        have hpos' : (f.moved (f.pos + UInt64.ofNat n)).pos.toNat ≤ f.content.length := by
          rw [show (f.moved (f.pos + UInt64.ofNat n)).pos.toNat = f.pos.toNat + n from hnext]
          omega
        rw [if_neg hempty, ih hfuel' hpos' hsmall]
        have hcondition : (f.moved (f.pos + UInt64.ofNat n)).pos.toNat + (amount - UInt64.ofNat n).toNat =
            f.pos.toNat + amount.toNat := by
          rw [show (f.moved (f.pos + UInt64.ofNat n)).pos.toNat = f.pos.toNat + n from hnext, hless]
          omega
        rw [hcondition, ← hsum]
        rfl

theorem skipTo_of_canSeek (h : f.canSeek = true) (pos : UInt64) : f.skipTo pos = (.ok (), f.moved pos) := by
  rw [skipTo]
  split_ifs with hmoved hseek
  · rcases f.setPos_moved f.pos pos with hset | ⟨hseek, -⟩
    · exact hset
    · cases hseek.symm.trans h
  · exact absurd (.inr h) hseek
  · rw [← not_not.mp hmoved]
    rfl

theorem skipTo_moved (hseek : f.canSeek = true) (p pos : UInt64) :
    (f.moved p).skipTo pos = f.skipTo pos := by
  rw [skipTo_of_canSeek (f := f.moved p) hseek, skipTo_of_canSeek hseek, moved_moved]

theorem skipTo_of_not_canSeek (h : f.canSeek = false) (hpos : f.pos.toNat ≤ f.content.length) (pos : UInt64) :
    f.skipTo pos =
      if pos < f.pos then (.error (.fileProblem f.name (lit "Invalid operation")), f)
      else if pos.toNat ≤ f.content.length then (.ok (), f.moved pos)
      else (.error (.fileTooShort f.name), f.moved (UInt64.ofNat f.content.length)) := by
  rw [skipTo]
  by_cases hmoved : f.pos = pos
  · rw [if_neg (not_not.mpr hmoved), ← hmoved, if_neg (UInt64.lt_irrefl _), if_pos hpos]
    rfl
  · rw [if_pos hmoved]
    by_cases hback : pos < f.pos
    · have hfails : ¬(f.canSeek = true ∨ pos = f.pos) := by
        rw [h]
        exact fun hor => hor.elim (fun heq => by cases heq) fun heq => hmoved heq.symm
      rw [if_pos (.inl hback), if_pos hback, setPos, if_neg hfails]
    · have hle := UInt64.not_lt.mp hback
      have hamount : (pos - f.pos).toNat = pos.toNat - f.pos.toNat := UInt64.toNat_sub_of_le _ _ hle
      have hsum : f.pos + (pos - f.pos) = pos := by
        rw [UInt64.add_comm, UInt64.sub_add_cancel]
      have hforward : ¬(f.pos > pos ∨ f.canSeek = true) := by
        rw [h]
        exact fun hor => hor.elim hback fun heq => by cases heq
      rw [UInt64.le_iff_toNat_le] at hle
      have htotal : f.pos.toNat + (pos - f.pos).toNat = pos.toNat := by omega
      rw [if_neg hforward, if_neg hback, skip_eq (Nat.le_refl _) hpos, htotal, hsum]

theorem skip_cases {fuel : Nat} {amount : UInt64} (hfuel : amount.toNat ≤ fuel) :
    skip fuel f amount = (.ok (), f.moved (f.pos + amount)) ∨ ∃ e p, skip fuel f amount = (.error e, f.moved p) := by
  by_cases hpos : f.pos.toNat ≤ f.content.length
  · rw [skip_eq hfuel hpos]
    split_ifs
    · exact .inl rfl
    · exact .inr ⟨_, _, rfl⟩
  · by_cases hzero : amount = 0
    · rw [hzero, UInt64.add_zero, skip_zero]
      exact .inl rfl
    · obtain ⟨fuel, rfl⟩ : ∃ n, fuel = n + 1 := by
        have hpositive : amount.toNat ≠ 0 := fun h => hzero (UInt64.toNat_inj.mp (h.trans UInt64.toNat_zero.symm))
        exact Nat.exists_eq_succ_of_ne_zero (by omega)
      have hbeyond : (f.bytesAt f.pos (min amount.toNat 4096)).length = 0 := by
        rw [f.length_bytesAt]
        omega
      rw [skip_succ hzero hbeyond, if_pos rfl]
      exact .inr ⟨_, _, rfl⟩

theorem skipTo_cases (f : File) (pos : UInt64) :
    f.skipTo pos = (.ok (), f.moved pos) ∨ ∃ e p, f.skipTo pos = (.error e, f.moved p) := by
  rw [skipTo]
  split_ifs with hmoved hseek
  · rcases f.setPos_moved f.pos pos with h | ⟨-, h⟩
    · exact .inl h
    · exact .inr ⟨_, f.pos, h⟩
  · have hcases := skip_cases (f := f) (Nat.le_refl (pos - f.pos).toNat)
    rw [UInt64.add_comm, UInt64.sub_add_cancel] at hcases
    exact hcases
  · rw [← not_not.mp hmoved]
    exact .inl rfl

end File

end Afl.Io.Archive
