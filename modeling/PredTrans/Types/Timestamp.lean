import PredTrans.Types.Interval

/-! Timestamps are microseconds since the epoch. An interval is added to one through its date, in
days, and the time of the day. -/

namespace PredTrans.Types

/-- The checked operators on signed integers of `w` bits. -/
def checked (w : Nat) (x : Int) (error : String) : Except String Int :=
  if -2 ^ (w - 1) ≤ x ∧ x < 2 ^ (w - 1) then .ok x else .error error

/-- The conversion to 32 bits. -/
def int32 (x : Int) : Int := (BitVec.ofInt 32 x).toInt

namespace Date

def infinity : Int := 2147483647

def isFinite (days : Int) : Bool := days ≠ infinity && days ≠ -infinity

end Date

namespace Timestamp

def infinity : Int := 9223372036854775807

def isFinite (value : Int) : Bool := value ≠ infinity && value ≠ -infinity

def getDate (value : Int) : Int :=
  if value = infinity then Date.infinity
  else if value = -infinity then -Date.infinity
  else
    let negative := if value < 0 then 1 else 0
    int32 ((value + negative).tdiv microsPerDay - negative)

/-- The date and the time of the day. -/
def convert (value : Int) : Except String (Int × Int) := do
  let date := getDate value
  let daysMicros ← checked 64 (date * microsPerDay) "Date out of range in timestamp conversion"
  .ok (date, value - daysMicros)

def fromDatetime (date time : Int) : Except String Int := do
  let error := "Overflow exception in date/time -> timestamp conversion"
  let value ← checked 64 (date * microsPerDay) error
  let value ← checked 64 (value + time) error
  if isFinite value then .ok value else .error error

end Timestamp

namespace Interval

def fromMicro (delta : Int) : IntervalT :=
  ⟨0, .ofInt 32 (delta.tdiv microsPerDay), .ofInt 64 (delta.tmod microsPerDay)⟩

def getDifference (t₁ t₂ : Int) : Except String IntervalT :=
  if !Timestamp.isFinite t₁ || !Timestamp.isFinite t₂ then
    .error "Cannot subtract infinite timestamps"
  else do
    let delta ← checked 64 (t₁ - t₂) "Timestamp difference is out of bounds"
    .ok (fromMicro delta)

/-- What adding months does to a date is left open. -/
def addDate (addMonths : Int → BitVec 32 → Except String Int) (left : Int) (right : IntervalT) :
    Except String Int :=
  if !Date.isFinite left then .ok left
  else do
    let result ← if right.months ≠ 0 then addMonths left right.months else .ok left
    let result ← if right.days ≠ 0 then checked 32 (result + right.days.toInt) "Date out of range"
      else .ok result
    let result ← if right.micros ≠ 0 then
        checked 32 (result + int32 (right.micros.toInt.tdiv microsPerDay)) "Date out of range"
      else .ok result
    if Date.isFinite result then .ok result else .error "Date out of range"

/-- The time of the day and the date it belongs to. -/
def addTime (left : Int) (right : IntervalT) (date : Int) : Int × Int :=
  let micros := right.micros.toInt
  let left := left + (micros - micros.tdiv microsPerDay * microsPerDay)
  if left ≥ microsPerDay then (left - microsPerDay, date + 1)
  else if left < 0 then (left + microsPerDay, date - 1)
  else (left, date)

def add (addMonths : Int → BitVec 32 → Except String Int) (left : Int) (right : IntervalT) :
    Except String Int :=
  if !Timestamp.isFinite left then .ok left
  else do
    let (date, time) ← Timestamp.convert left
    let newDate ← addDate addMonths date right
    let (newTime, newDate) := addTime time right newDate
    Timestamp.fromDatetime newDate newTime

end Interval

/-- The first day whose microseconds fit into 64 bits. -/
def firstDay : Int := -106751991

variable {value date time delta t₁ t₂ : Int}

/-- Signed integers of 64 bits. -/
def IsInt64 (x : Int) : Prop := -9223372036854775808 ≤ x ∧ x ≤ 9223372036854775807

theorem checked_of_fits (h : -2 ^ (w - 1) ≤ x ∧ x < 2 ^ (w - 1)) : checked w x e = .ok x := if_pos h

theorem int32_of_fits (h : -2147483648 ≤ x ∧ x ≤ 2147483647) : int32 x = x :=
  BitVec.toInt_ofInt_eq_self (by decide) h.1 (Int.lt_add_one_of_le h.2)

theorem getDate_eq (hv : IsInt64 value) (hfin : Timestamp.isFinite value = true) :
    Timestamp.getDate value = value / microsPerDay := by
  obtain ⟨hpos,hneg⟩ : value ≠ Timestamp.infinity ∧ value ≠ -Timestamp.infinity := by
    simpa [Timestamp.isFinite] using hfin
  have hfloor : (value + if value < 0 then 1 else 0).tdiv microsPerDay -
      (if value < 0 then 1 else 0) = value / microsPerDay := by
    unfold microsPerDay
    rw [Int.tdiv_eq_ediv,show (86400000000 : Int).sign = 1 from rfl]
    split_ifs <;> omega
  simp only [Timestamp.getDate,if_neg hpos,if_neg hneg,hfloor]
  apply int32_of_fits
  unfold IsInt64 microsPerDay at *
  omega

/-- The microseconds of a date fit from the first day on. -/
theorem checked_date (hv : IsInt64 value) : checked 64 (value / microsPerDay * microsPerDay) e =
    if firstDay * microsPerDay ≤ value then .ok (value / microsPerDay * microsPerDay)
    else .error e := by
  unfold checked
  congr 1
  unfold IsInt64 firstDay microsPerDay at *
  simp
  omega

theorem convert_eq (hv : IsInt64 value) (hfin : Timestamp.isFinite value = true) :
    Timestamp.convert value = if firstDay * microsPerDay ≤ value then
      .ok (value / microsPerDay, value % microsPerDay)
    else .error "Date out of range in timestamp conversion" := by
  simp only [Timestamp.convert,getDate_eq hv hfin,checked_date hv]
  split
  · simp only [bind,Except.bind,Except.ok.injEq,Prod.mk.injEq,true_and]
    rw [Int.emod_def,Int.mul_comm]
  · rfl

theorem fromDatetime_eq_ok_iff (hv : IsInt64 value) (hfin : Timestamp.isFinite value = true) :
    Timestamp.fromDatetime (value / microsPerDay) (value % microsPerDay) = .ok value ↔
      firstDay * microsPerDay ≤ value := by
  simp only [Timestamp.fromDatetime,checked_date hv]
  split
  · rename_i hday
    have hsum : value / microsPerDay * microsPerDay + value % microsPerDay = value := by
      rw [Int.mul_comm,Int.mul_ediv_add_emod]
    simp only [bind,Except.bind,hsum]
    rw [checked_of_fits ⟨hv.1,Int.lt_add_one_of_le hv.2⟩]
    simp [hfin,hday]
  · rename_i hday
    simp [bind,Except.bind,hday]

/-- The fields of a difference: whole days and the rest, of either sign. -/
structure IsDifference (d : IntervalT) (delta : Int) : Prop where
  months : d.months = 0
  sum : delta = d.days.toInt * microsPerDay + d.micros.toInt
  low : -microsPerDay < d.micros.toInt
  high : d.micros.toInt < microsPerDay

theorem isDifference_fromMicro (hd : IsInt64 delta) :
    IsDifference (Interval.fromMicro delta) delta := by
  have hsum := Int.mul_tdiv_add_tmod delta microsPerDay
  have hlow := Int.lt_tmod_of_pos delta (show 0 < microsPerDay by decide)
  have hhigh := Int.tmod_lt_of_pos delta (show 0 < microsPerDay by decide)
  unfold IsInt64 at hd
  have hdays : (Interval.fromMicro delta).days.toInt = delta.tdiv microsPerDay := by
    apply BitVec.toInt_ofInt_eq_self (by decide) <;> unfold microsPerDay at * <;> omega
  have hmicros : (Interval.fromMicro delta).micros.toInt = delta.tmod microsPerDay := by
    apply BitVec.toInt_ofInt_eq_self (by decide) <;> unfold microsPerDay at * <;> omega
  refine ⟨rfl,?_,hmicros ▸ hlow,hmicros ▸ hhigh⟩
  rw [hdays,hmicros,Int.mul_comm,hsum]

namespace IsDifference

variable (h : IsDifference d delta)
include h

theorem tdiv_micros : d.micros.toInt.tdiv microsPerDay = 0 := by
  obtain ⟨-,-,hlow,hhigh⟩ := h
  unfold microsPerDay at *
  rw [Int.tdiv_eq_ediv,show (86400000000 : Int).sign = 1 from rfl]
  split_ifs <;> omega

theorem addDate_eq (hd : IsInt64 delta) (hdate : -200000000 ≤ date ∧ date ≤ 200000000) :
    Interval.addDate addMonths date d = .ok (date + d.days.toInt) := by
  obtain ⟨hmonths,hsum,hlow,hhigh⟩ := id h
  have hdays : -200000000 ≤ d.days.toInt ∧ d.days.toInt ≤ 200000000 := by
    unfold IsInt64 microsPerDay at *
    omega
  have hfinite (x : Int) (hx : -400000000 ≤ x ∧ x ≤ 400000000) : Date.isFinite x = true := by
    obtain ⟨hpos,hneg⟩ : x ≠ 2147483647 ∧ x ≠ -2147483647 := by omega
    simp [Date.isFinite,Date.infinity,hpos,hneg]
  have hcheck (x : Int) (hx : -400000000 ≤ x ∧ x ≤ 400000000) :
      checked 32 x "Date out of range" = .ok x := checked_of_fits ⟨by omega,by omega⟩
  have hzero : int32 0 = 0 := rfl
  by_cases hdays0 : d.days = 0#32 <;> by_cases hmicros0 : d.micros = 0#64 <;>
    simp [Interval.addDate,hfinite date (by omega),hfinite (date + d.days.toInt) (by omega),
      hcheck date (by omega),hcheck (date + d.days.toInt) (by omega),hmonths,h.tdiv_micros,hzero,
      hdays0,hmicros0,bind,Except.bind]

theorem addTime_eq : Interval.addTime (t₂ % microsPerDay) d (t₂ / microsPerDay + d.days.toInt) =
    ((t₂ + delta) % microsPerDay, (t₂ + delta) / microsPerDay) := by
  obtain ⟨-,hsum,hlow,hhigh⟩ := id h
  simp only [Interval.addTime,h.tdiv_micros]
  unfold microsPerDay at *
  split_ifs <;> apply Prod.ext <;> dsimp only <;> omega

end IsDifference

end PredTrans.Types
