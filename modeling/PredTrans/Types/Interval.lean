import PredTrans.Index.ArtKeys

/-! Intervals are compared by a normal form, in which whole months are taken out of the days and the
microseconds, and whole days out of the microseconds. They are sorted by the bytes of the fields as
they are. -/

namespace PredTrans.Types
open Library Index

structure IntervalT where
  months : BitVec 32
  days : BitVec 32
  micros : BitVec 64
deriving DecidableEq, Repr

/-- The fields, or a normal form, as integers. -/
@[ext]
structure Fields where
  months : Int
  days : Int
  micros : Int
deriving DecidableEq, Repr

def daysPerMonth : Int := 30
def microsPerDay : Int := 86400000000
def microsPerMonth : Int := 2592000000000

namespace IntervalT

variable (a b : IntervalT)

def fields : Fields := ⟨a.months.toInt, a.days.toInt, a.micros.toInt⟩

/-- Division rounds towards zero, and no value leaves its machine type. -/
def normalize : Fields :=
  let input := a.fields
  let extraMonthsD := input.days.tdiv daysPerMonth
  let extraMonthsMicros := input.micros.tdiv microsPerMonth
  let days := input.days - extraMonthsD * daysPerMonth
  let micros := input.micros - extraMonthsMicros * microsPerMonth
  let extraDaysMicros := micros.tdiv microsPerDay
  ⟨input.months + extraMonthsD + extraMonthsMicros, days + extraDaysMicros,
    micros - extraDaysMicros * microsPerDay⟩

def equals : Bool := a.fields = b.fields || a.normalize = b.normalize

def greaterThan : Bool :=
  let l := a.normalize
  let r := b.normalize
  if l.months > r.months then true
  else if l.months < r.months then false
  else if l.days > r.days then true
  else if l.days < r.days then false
  else l.micros > r.micros

def lessThan : Bool := b.greaterThan a

/-- The radix encoding. -/
def encodeData : List Byte :=
  encodeSigned 3 a.months ++ (encodeSigned 3 a.days ++ encodeSigned 7 a.micros)

end IntervalT

namespace Fields

variable {x y : Fields}

def total (x : Fields) : Int := (x.months * daysPerMonth + x.days) * microsPerDay + x.micros

def Less (x y : Fields) : Prop :=
  x.months < y.months ∨ x.months = y.months ∧
    (x.days < y.days ∨ x.days = y.days ∧ x.micros < y.micros)

/-- Whole months; those of the days and those of the microseconds are counted separately. -/
def wholeMonths (x : Fields) : Int :=
  x.months + x.days.tdiv daysPerMonth + x.micros.tdiv microsPerMonth

/-- What is left of the days and of the microseconds behind the whole months. -/
def restMicros (x : Fields) : Int :=
  x.days.tmod daysPerMonth * microsPerDay + x.micros.tmod microsPerMonth

/-- The whole days of what is left, again counted separately. -/
def wholeDays (x : Fields) : Int :=
  x.days.tmod daysPerMonth + (x.micros.tmod microsPerMonth).tdiv microsPerDay

/-- `x` is one to three whole months, or one whole day, ahead of `y`, and what is left of `y` makes
up for it. -/
def Overtaken (x y : Fields) : Prop :=
  y.wholeMonths < x.wholeMonths ∧ x.wholeMonths ≤ y.wholeMonths + 3 ∧
      (x.wholeMonths - y.wholeMonths) * microsPerMonth ≤ y.restMicros - x.restMicros ∨
    x.wholeMonths = y.wholeMonths ∧ x.wholeDays = y.wholeDays + 1 ∧
      microsPerDay ≤ y.micros.tmod microsPerDay - x.micros.tmod microsPerDay

/-- The days and microseconds behind the whole months, compared one after the other. -/
def RestLess (x y : Fields) : Prop :=
  x.wholeDays < y.wholeDays ∨
    x.wholeDays = y.wholeDays ∧ x.micros.tmod microsPerDay < y.micros.tmod microsPerDay

/-- If `x` has fewer months than `y`, or as many and fewer days, the whole months of its days and
microseconds do not make up for it. -/
def StaysBelow (x y : Fields) : Prop :=
  x.months < y.months ∨ x.months = y.months ∧ x.days < y.days →
    x.wholeMonths < y.wholeMonths ∨ x.wholeMonths = y.wholeMonths ∧ x.RestLess y

theorem less_iff : x.Less y ↔
    (x.months < y.months ∨ x.months = y.months ∧ x.days < y.days) ∨
      x.months = y.months ∧ x.days = y.days ∧ x.micros < y.micros := by
  unfold Less
  omega

theorem less_asymm (h : x.Less y) : ¬ y.Less x := by
  unfold Less at *
  omega

theorem eq_iff_not_less : x = y ↔ ¬ x.Less y ∧ ¬ y.Less x := by
  unfold Less
  rw [Fields.ext_iff]
  omega

/-- Division towards zero. -/
theorem tdiv_tmod_spec (hm : 0 < m) (x : Int) : x = x.tdiv m * m + x.tmod m ∧
    (0 ≤ x ∧ 0 ≤ x.tmod m ∧ x.tmod m < m ∨ x ≤ 0 ∧ x.tmod m ≤ 0 ∧ -m < x.tmod m) := by
  refine ⟨(Int.tdiv_mul_add_tmod x m).symm,?_⟩
  rcases le_total 0 x with hx | hx
  · exact .inl ⟨hx,Int.tmod_nonneg m hx,Int.tmod_lt_of_pos x hm⟩
  · have hneg := Int.neg_tmod x m
    have hlt := Int.tmod_lt_of_pos (-x) hm
    have hnonneg := Int.tmod_nonneg m (neg_nonneg.mpr hx)
    exact .inr ⟨hx,by omega,by omega⟩

/-- Whole days of the rest, and what is left of the microseconds. -/
theorem restMicros_spec (x : Fields) :
    x.restMicros = x.wholeDays * microsPerDay + x.micros.tmod microsPerDay ∧
      |x.restMicros| < 59 * microsPerDay ∧ |x.micros.tmod microsPerDay| < microsPerDay := by
  obtain ⟨-,hdays⟩ := tdiv_tmod_spec (m := daysPerMonth) (by decide) x.days
  obtain ⟨-,hmicros⟩ := tdiv_tmod_spec (m := microsPerMonth) (by decide) x.micros
  obtain ⟨hrest,hday⟩ := tdiv_tmod_spec (m := microsPerDay) (by decide)
    (x.micros.tmod microsPerMonth)
  rw [Int.tmod_tmod_of_dvd _ (show microsPerDay ∣ microsPerMonth by decide)] at hrest hday
  rw [restMicros,wholeDays,abs_lt,abs_lt]
  unfold daysPerMonth microsPerMonth microsPerDay at *
  omega

/-- Microseconds alone are compared alike. -/
theorem restLess_of_micros (hmonths : x.months = y.months) (hdays : x.days = y.days)
    (h : x.micros < y.micros) :
    x.wholeMonths < y.wholeMonths ∨ x.wholeMonths = y.wholeMonths ∧ x.RestLess y := by
  have hspec : ∀ z : Fields, _ ∧ _ ∧ _ := fun z =>
    ⟨tdiv_tmod_spec (m := microsPerMonth) (by decide) z.micros,
      tdiv_tmod_spec (m := microsPerDay) (by decide) (z.micros.tmod microsPerMonth),
      Int.tmod_tmod_of_dvd z.micros (show microsPerDay ∣ microsPerMonth by decide)⟩
  have hx := hspec x
  have hy := hspec y
  unfold RestLess wholeMonths wholeDays
  rw [hmonths,hdays]
  unfold microsPerMonth microsPerDay at *
  omega

end Fields

/-- `less`, `equal` and `greater` are decided as the operators of the intervals decide them. -/
structure Agrees (a b : IntervalT) (less equal greater : Prop) : Prop where
  less : a.lessThan b = true ↔ less
  equal : a.equals b = true ↔ equal
  greater : a.greaterThan b = true ↔ greater

namespace IntervalT

variable {a b : IntervalT}

theorem greaterThan_iff : a.greaterThan b = true ↔ b.normalize.Less a.normalize := by
  simp only [greaterThan,Fields.Less]
  split_ifs <;> simp <;> omega

theorem equals_iff : a.equals b = true ↔ a.normalize = b.normalize := by
  simp only [equals,Bool.or_eq_true,decide_eq_true_eq,or_iff_right_iff_imp]
  intro h
  simp [normalize,h]

theorem total_normalize (a : IntervalT) : a.normalize.total = a.fields.total := by
  simp only [normalize,Fields.total,daysPerMonth,microsPerDay,microsPerMonth]
  omega

theorem agrees_iff {less equal greater : Prop} : Agrees a b less equal greater ↔
    (a.normalize.Less b.normalize ↔ less) ∧ (a.normalize = b.normalize ↔ equal) ∧
      (b.normalize.Less a.normalize ↔ greater) := by
  rw [← greaterThan_iff,← equals_iff,← greaterThan_iff]
  exact ⟨fun h => ⟨h.less,h.equal,h.greater⟩,fun ⟨hl,he,hg⟩ => ⟨hl,he,hg⟩⟩

/-- The normal form in terms of the fields. -/
theorem normalize_eq (a : IntervalT) : a.normalize =
    ⟨a.fields.wholeMonths, a.fields.wholeDays, a.fields.micros.tmod microsPerDay⟩ := by
  have hdays := Int.tdiv_mul_add_tmod a.fields.days daysPerMonth
  have hmicros := Int.tdiv_mul_add_tmod a.fields.micros microsPerMonth
  have hrest := Int.tdiv_mul_add_tmod (a.fields.micros.tmod microsPerMonth) microsPerDay
  rw [Int.tmod_tmod_of_dvd _ (show microsPerDay ∣ microsPerMonth by decide)] at hrest
  have hsub : a.fields.micros - a.fields.micros.tdiv microsPerMonth * microsPerMonth =
    a.fields.micros.tmod microsPerMonth := by omega
  simp only [normalize,hsub,Fields.wholeMonths,Fields.wholeDays]
  congr 1 <;> omega

theorem less_normalize_iff : a.normalize.Less b.normalize ↔
    a.fields.wholeMonths < b.fields.wholeMonths ∨
      a.fields.wholeMonths = b.fields.wholeMonths ∧ a.fields.RestLess b.fields := by
  rw [normalize_eq,normalize_eq]
  rfl

/-- The operators compare the durations exactly when neither interval is ahead of the other by whole
months, or by a whole day, that the days and microseconds left of the other make up for. -/
theorem compares_total_iff (a b : IntervalT) :
    Agrees a b (a.fields.total < b.fields.total) (a.fields.total = b.fields.total)
      (b.fields.total < a.fields.total) ↔
    ¬ a.fields.Overtaken b.fields ∧ ¬ b.fields.Overtaken a.fields := by
  obtain ⟨ha,hla,hua⟩ := a.fields.restMicros_spec
  obtain ⟨hb,hlb,hub⟩ := b.fields.restMicros_spec
  rw [agrees_iff,Fields.eq_iff_not_less,← total_normalize a,← total_normalize b,normalize_eq,
    normalize_eq]
  rw [abs_lt] at hla hua hlb hub
  unfold Fields.Less Fields.Overtaken Fields.total daysPerMonth microsPerMonth microsPerDay at *
  dsimp only
  constructor
  · rintro ⟨hl,-,hg⟩
    omega
  · rintro ⟨hab,hba⟩
    omega

/-- Twenty-nine days and 24 hours against one month. -/
theorem thirty_days_not_month :
    let a : IntervalT := ⟨0, 29, 86400000000⟩
    let b : IntervalT := ⟨1, 0, 0⟩
    a.fields.total = b.fields.total ∧ a.equals b = false := by
  decide

/-- The fields one behind the other. -/
theorem encodeData_faithful :
    (a.encodeData = b.encodeData ↔ a.fields = b.fields) ∧
      (a.encodeData < b.encodeData ↔ a.fields.Less b.fields) := by
  have hcode := (ordered_signed 3).pair ((ordered_signed 3).pair (ordered_signed 7))
  obtain ⟨heq,hlt,-⟩ := hcode.faithful (a := (a.months, a.days, a.micros))
    (b := (b.months, b.days, b.micros)) (u := a.encodeData) (v := b.encodeData)
    ⟨trivial,trivial,trivial⟩ ⟨trivial,trivial,trivial⟩ rfl rfl
  rw [heq,hlt,Fields.Less]
  simp [Prod.lex_def,signedLess,fields,← BitVec.toInt_inj]

end IntervalT

end PredTrans.Types
