import Mathlib.Tactic

/-! Instants and durations as they cross chrono, sqlx and Postgres.
chrono counts nanoseconds, Postgres microseconds; both are counted here from the
Postgres epoch, 2000-01-01. -/

namespace LocallyEuclidean.Postgres

/-- A Postgres `timestamp with time zone`: microseconds since 2000-01-01. -/
abbrev Timestamp := ℤ

/-- A Postgres `interval`, as sqlx decodes it. -/
structure Interval where
  months : Int32
  days : Int32
  microseconds : Int64
  deriving DecidableEq, Repr

/-- The largest chrono duration in nanoseconds: `i64::MAX` milliseconds. -/
def maxDelta : ℤ := 9223372036854775807 * 1000000

/-- A chrono duration; its range is a field. -/
structure TimeDelta where
  nanos : ℤ
  inRange : -maxDelta ≤ nanos ∧ nanos ≤ maxDelta
  deriving DecidableEq, Repr

namespace TimeDelta

/-- `TimeDelta::new`: `none` where the operators panic. -/
def new (nanos : ℤ) : Option TimeDelta :=
  if h : -maxDelta ≤ nanos ∧ nanos ≤ maxDelta then some ⟨nanos, h⟩ else none

def days (d : ℤ) : Option TimeDelta := new (d * 86400 * 1000000000)

def microseconds (m : Int64) : TimeDelta :=
  ⟨m.toInt * 1000, by
    have lo := m.le_toInt
    have hi := m.toInt_lt
    unfold maxDelta
    omega⟩

def add (x y : TimeDelta) : Option TimeDelta := new (x.nanos + y.nanos)

theorem new_nanos {n : ℤ} (h : -maxDelta ≤ n ∧ n ≤ maxDelta) : new n = some ⟨n, h⟩ := by
  simp [new, h]

end TimeDelta

/-- A `std::time::Duration`. -/
structure Duration where
  secs : UInt64
  nanos : Fin 1000000000
  deriving DecidableEq, Repr

def Duration.toNanos (d : Duration) : ℤ := d.secs.toNat * 1000000000 + d.nanos

/-- `TimeDelta::from_std`: `none` is its `OutOfRangeError`. -/
def TimeDelta.fromStd (d : Duration) : Option TimeDelta := TimeDelta.new d.toNanos

theorem Duration.toNanos_nonneg (d : Duration) : 0 ≤ d.toNanos := by
  unfold toNanos
  omega

theorem TimeDelta.fromStd_some {d : Duration} {delta : TimeDelta} (h : fromStd d = some delta) :
    delta.nanos = d.toNanos := by
  unfold fromStd new at h
  split at h
  · rw [← Option.some.inj h]
  · cases h

theorem TimeDelta.fromStd_eq_none {d : Duration} : fromStd d = none ↔ maxDelta < d.toNanos := by
  have nonneg := d.toNanos_nonneg
  have hmax : 0 ≤ maxDelta := by decide
  unfold fromStd new
  split
  · rename_i inRange
    exact iff_of_false (by simp) inRange.2.not_gt
  · rename_i outOfRange
    exact iff_of_true rfl (by omega)

/-- A chrono `DateTime<Utc>`: nanoseconds since 2000-01-01. -/
abbrev DateTime := ℤ

namespace DateTime

/-- `DateTime::MIN_UTC`, in the year -262143. -/
def minUtc : DateTime := -8335547913600000000000

/-- `DateTime::MAX_UTC`, in the year 262142. -/
def maxUtc : DateTime := 8209320191999999999999

/-- `DateTime + TimeDelta`: `none` where the operator panics. -/
def add (t : DateTime) (d : TimeDelta) : Option DateTime :=
  if minUtc ≤ t + d.nanos ∧ t + d.nanos ≤ maxUtc then some (t + d.nanos) else none

/-- sqlx sends whole microseconds and truncates the rest towards the epoch. -/
def toTimestamp (t : DateTime) : Timestamp := t.tdiv 1000

end DateTime

/-- The first instant Postgres accepts in a timestamp, in 4714 BC. -/
def minTimestamp : Timestamp := -211813488000000000

/-- `i64::from(months) * 30` days, then the days, then the microseconds.
`none` where one of the operators panics. -/
def Interval.toTimeDelta (ttl : Interval) : Option TimeDelta := do
  let months ← TimeDelta.days (ttl.months.toInt * 30)
  let days ← TimeDelta.days ttl.days.toInt
  let sum ← months.add days
  sum.add (.microseconds ttl.microseconds)

/-- sqlx sends a duration as microseconds only, and refuses what it would have to
round or what does not fit `i64` nanoseconds. -/
def Interval.ofTimeDelta (d : TimeDelta) : Option Interval :=
  if -2 ^ 63 ≤ d.nanos ∧ d.nanos < 2 ^ 63 ∧ d.nanos % 1000 = 0 then
    some ⟨0, 0, Int64.ofInt (d.nanos / 1000)⟩
  else none

/-- The duration that an interval is read back as. -/
def Interval.delta (ttl : Interval) : TimeDelta where
  nanos := (ttl.months.toInt * 30 + ttl.days.toInt) * 86400 * 1000000000 +
    ttl.microseconds.toInt * 1000
  inRange := by
    have m₁ := ttl.months.le_toInt
    have m₂ := ttl.months.toInt_lt
    have d₁ := ttl.days.le_toInt
    have d₂ := ttl.days.toInt_lt
    have u₁ := ttl.microseconds.le_toInt
    have u₂ := ttl.microseconds.toInt_lt
    unfold maxDelta
    omega

/-- What sqlx sends is read back as it was. -/
theorem Interval.delta_ofTimeDelta {d : TimeDelta} {ttl : Interval} (h : ofTimeDelta d = some ttl) :
    ttl.delta = d := by
  unfold ofTimeDelta at h
  split at h
  · rename_i fits
    obtain ⟨lo, hi, whole⟩ := fits
    have micros : (Int64.ofInt (d.nanos / 1000)).toInt = d.nanos / 1000 :=
      Int64.toInt_ofInt_of_le (by omega) (by omega)
    obtain rfl := Option.some.inj h
    have nanos : (Interval.delta ⟨0, 0, Int64.ofInt (d.nanos / 1000)⟩).nanos = d.nanos := by
      simp only [delta, micros, Int32.toInt_zero]
      omega
    obtain ⟨n, inRange⟩ := d
    simp only [delta, TimeDelta.mk.injEq] at nanos ⊢
    exact nanos
  · cases h

/-- The length of an interval in microseconds, a month being 30 days. -/
def Interval.length (ttl : Interval) : ℤ :=
  (ttl.months.toInt * 30 + ttl.days.toInt) * 86400 * 1000000 + ttl.microseconds.toInt

theorem Interval.delta_nanos (ttl : Interval) : ttl.delta.nanos = ttl.length * 1000 := by
  unfold delta length
  ring

/-- A deadline computed at a whole microsecond is sent to Postgres unrounded. -/
theorem DateTime.toTimestamp_add (t : Timestamp) (ttl : Interval) :
    DateTime.toTimestamp (t * 1000 + ttl.delta.nanos) = t + ttl.length := by
  rw [Interval.delta_nanos, ← Int.add_mul, toTimestamp, Int.mul_tdiv_cancel _ (by decide)]

/-- No stored interval overflows: the three extreme fields together stay inside
chrono's range. -/
theorem Interval.toTimeDelta_eq (ttl : Interval) : ttl.toTimeDelta = some ttl.delta := by
  have m₁ := ttl.months.le_toInt
  have m₂ := ttl.months.toInt_lt
  have d₁ := ttl.days.le_toInt
  have d₂ := ttl.days.toInt_lt
  have hm : -maxDelta ≤ ttl.months.toInt * 30 * 86400 * 1000000000 ∧
      ttl.months.toInt * 30 * 86400 * 1000000000 ≤ maxDelta := by
    unfold maxDelta
    omega
  have hd : -maxDelta ≤ ttl.days.toInt * 86400 * 1000000000 ∧
      ttl.days.toInt * 86400 * 1000000000 ≤ maxDelta := by
    unfold maxDelta
    omega
  have hs : -maxDelta ≤ ttl.months.toInt * 30 * 86400 * 1000000000 +
      ttl.days.toInt * 86400 * 1000000000 ∧ ttl.months.toInt * 30 * 86400 * 1000000000 +
      ttl.days.toInt * 86400 * 1000000000 ≤ maxDelta := by
    unfold maxDelta
    omega
  have hn : ttl.months.toInt * 30 * 86400 * 1000000000 + ttl.days.toInt * 86400 * 1000000000 +
      ttl.microseconds.toInt * 1000 = ttl.delta.nanos := by
    unfold Interval.delta
    ring
  simp only [Interval.toTimeDelta, TimeDelta.days, TimeDelta.add, TimeDelta.microseconds,
    TimeDelta.new_nanos hm, TimeDelta.new_nanos hd, TimeDelta.new_nanos hs, bind, Option.bind, hn,
    TimeDelta.new_nanos ttl.delta.inRange]

end LocallyEuclidean.Postgres
