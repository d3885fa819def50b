import Afl.Base.Bytes

/-!
# Times

`afl/sys/time.cpp` with `arch/posix/posixtime.cpp`, as far as cookies need it: times are counted in milliseconds since
1970, in 64 bits.
-/

namespace Afl.Sys

/-- `Time`, by its representation. -/
abbrev Time := Int64

structure ParsedTime where
  year : UInt16
  month : UInt16
  day : UInt16
  hour : UInt16
  minute : UInt16
  second : UInt16
  millisecond : UInt16
deriving DecidableEq

def daysSinceNewYear : List Int := [0, 31, 59, 90, 120, 151, 181, 212, 243, 273, 304, 334]

/-- `packTime` for universal time. Divisions round towards zero. -/
def packTime (p : ParsedTime) : Time :=
  let months : Int := p.month.toNat - 1
  let day : Int := p.day.toNat - 1
  let year : Int := p.year.toNat + months.tdiv 12
  let month := months.tmod 12
  let leapYearsSinceEpoch := (year - 1969).tdiv 4 - (year - 1901).tdiv 100 + (year - 1601).tdiv 400
  let days := (year - 1970) * 365 + leapYearsSinceEpoch + daysSinceNewYear.getD month.toNat 0 + day
  let daysSinceEpoch :=
    if 2 ≤ month ∧ year.tmod 4 = 0 ∧ (year.tmod 100 ≠ 0 ∨ year.tmod 400 = 0) then days + 1 else days
  Int64.ofInt (p.millisecond.toNat +
    1000 * (p.second.toNat + 60 * (p.minute.toNat + 60 * (p.hour.toNat + 24 * daysSinceEpoch))))

def unixZero : ParsedTime := ⟨1970, 1, 1, 0, 0, 0, 0⟩

namespace Time

def getUnixTime (t : Time) : Int64 := (t - packTime unixZero) / 1000

def fromUnixTime (unixTime : Int64) : Time := packTime unixZero + 1000 * unixTime

end Time

/-- `Duration::fromSeconds`, as a number of milliseconds. -/
def fromSeconds (seconds : Int64) : Int64 := seconds * 1000

theorem packTime_unixZero : packTime unixZero = 0 := by decide

theorem Time.toInt_fromUnixTime {second : Int64} (h : second.toInt.natAbs * 1000 < 2 ^ 63) :
    (Time.fromUnixTime second).toInt = 1000 * second.toInt := by
  have hthousand : (1000 : Int64).toInt = 1000 := rfl
  rw [Time.fromUnixTime, packTime_unixZero, Int64.zero_add, Int64.toInt_mul, hthousand]
  exact Int.bmod_eq_of_le (by omega) (by omega)

theorem Time.toInt_getUnixTime (t : Time) : (Time.getUnixTime t).toInt = t.toInt.tdiv 1000 := by
  have hthousand : (1000 : Int64).toInt = 1000 := rfl
  rw [Time.getUnixTime, packTime_unixZero, Int64.sub_zero, Int64.toInt_div_of_ne_right _ _ (by decide), hthousand]

theorem Time.fromUnixTime_inj {a b : Int64} (ha : a.toInt.natAbs * 1000 < 2 ^ 63) (hb : b.toInt.natAbs * 1000 < 2 ^ 63)
    (h : Time.fromUnixTime a = Time.fromUnixTime b) : a = b := by
  have hint := congrArg Int64.toInt h
  rw [toInt_fromUnixTime ha, toInt_fromUnixTime hb] at hint
  exact Int64.toInt_inj.1 (by omega)

example : Time.getUnixTime (packTime ⟨2001, 9, 9, 1, 46, 40, 0⟩) = 1000000000 := by decide

end Afl.Sys
