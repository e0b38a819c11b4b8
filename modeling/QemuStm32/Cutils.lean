import Mathlib

/-!
# Calendar time

`mktimegm` of `cutils.c` computes the seconds since 1970 from a date with one formula. The
formula counts the days right, but their product with 86400 is an `int`, which is exact up to
19 January 2038.
-/

namespace QemuStm32.Cutils

/-- The fields of `struct tm` that are read. -/
structure Tm where
  year : Int
  mon : Int
  mday : Int
  hour : Int
  min : Int
  sec : Int
  deriving DecidableEq, Repr

/-- The value of an expression of type `int`, which wraps around. -/
def int (x : Int) : Int := x.bmod (2 ^ 32)

/-- The sums are those of `time_t`, which has 64 bits. -/
def mktimegm (tm : Tm) : Int :=
  let y := int (tm.year + 1900)
  let m := int (tm.mon + 1)
  let d := tm.mday
  let (m, y) := if m < 3 then (int (m + 12), int (y - 1)) else (m, y)
  let t := int (86400 * int (d + (int (153 * m - 457)).tdiv 5 + 365 * y + y.tdiv 4 - y.tdiv 100 +
    y.tdiv 400 - 719469))
  t + int (3600 * tm.hour + 60 * tm.min + tm.sec)

/-! ## The calendar -/

def isLeap (y : Nat) : Bool := y % 4 = 0 ∧ (y % 100 ≠ 0 ∨ y % 400 = 0)

def daysInMonth (leap : Bool) (m : Nat) : Nat :=
  if m = 2 then if leap then 29 else 28
  else if m = 4 ∨ m = 6 ∨ m = 9 ∨ m = 11 then 30
  else 31

/-- The days of the first `n` months of a year. -/
def daysOfMonths (leap : Bool) : Nat → Nat
  | 0 => 0
  | n + 1 => daysOfMonths leap n + daysInMonth leap (n + 1)

/-- The days of the first `n` years from 1970 on. -/
def daysOfYears : Nat → Nat
  | 0 => 0
  | n + 1 => daysOfYears n + daysOfMonths (isLeap (1970 + n)) 12

/-- A day of the Gregorian calendar from 1970 on, and a time of the day. -/
structure DateTime where
  year : Nat
  month : Nat
  day : Nat
  hour : Nat
  minute : Nat
  second : Nat
  year_ge : 1970 ≤ year
  month_pos : 0 < month
  month_le : month ≤ 12
  day_pos : 0 < day
  day_le : day ≤ daysInMonth (isLeap year) month
  hour_lt : hour < 24
  minute_lt : minute < 60
  second_lt : second < 60

namespace DateTime

variable (t : DateTime)

def toTm : Tm := ⟨t.year - 1900, t.month - 1, t.day, t.hour, t.minute, t.second⟩

/-- The days since 1 January 1970. -/
def days : Nat :=
  daysOfYears (t.year - 1970) + daysOfMonths (isLeap t.year) (t.month - 1) + (t.day - 1)

def clock : Nat := 3600 * t.hour + 60 * t.minute + t.second

def seconds : Nat := 86400 * t.days + t.clock

/-- The date is not later than 19 January 2038. -/
def Early : Prop := t.year < 2038 ∨ t.year = 2038 ∧ t.month = 1 ∧ t.day ≤ 19

/-- The same time of the next day. -/
def Next (u : DateTime) : Prop :=
  u.hour = t.hour ∧ u.minute = t.minute ∧ u.second = t.second ∧
    (u.year = t.year ∧ u.month = t.month ∧ u.day = t.day + 1 ∨
      t.day = daysInMonth (isLeap t.year) t.month ∧ u.day = 1 ∧
        (u.year = t.year ∧ u.month = t.month + 1 ∨
          t.month = 12 ∧ u.year = t.year + 1 ∧ u.month = 1))

def EarlierDay (u : DateTime) : Prop :=
  t.year < u.year ∨ t.year = u.year ∧ (t.month < u.month ∨ t.month = u.month ∧ t.day < u.day)

def Before (u : DateTime) : Prop :=
  t.EarlierDay u ∨ t.year = u.year ∧ t.month = u.month ∧ t.day = u.day ∧ t.clock < u.clock

theorem bounds :
    1970 ≤ t.year ∧ 0 < t.month ∧ t.month ≤ 12 ∧ 0 < t.day ∧ t.day ≤ 31 ∧ t.clock < 86400 := by
  have day := t.day_le
  have hour := t.hour_lt
  have minute := t.minute_lt
  have second := t.second_lt
  refine ⟨t.year_ge, t.month_pos, t.month_le, t.day_pos, ?_, by unfold clock; omega⟩
  unfold daysInMonth at day
  split at day <;> split at day <;> omega

variable {t} {u : DateTime}

theorem Next.days (h : t.Next u) : u.days = t.days + 1 := by
  have bounds := t.bounds
  obtain ⟨month, hmonth⟩ := Nat.exists_eq_add_one.mpr t.month_pos
  unfold DateTime.days
  obtain ⟨-, -, -, ⟨year, month, day⟩ | ⟨last, day, ⟨year, month⟩ | ⟨december, year, month⟩⟩⟩ := h
  · rw [year, month, day]
    omega
  · rw [hmonth] at last
    rw [year, month, day, hmonth, Nat.add_sub_cancel, Nat.add_sub_cancel, daysOfMonths]
    omega
  · have whole (leap : Bool) :
        daysOfMonths leap 12 = daysOfMonths leap (12 - 1) + daysInMonth leap 12 := rfl
    rw [december] at last
    rw [year, month, day, december, Nat.sub_add_comm t.year_ge, daysOfYears, whole,
      Nat.add_sub_cancel' t.year_ge, daysOfMonths]
    omega

theorem EarlierDay.days (h : t.EarlierDay u) : t.days < u.days := by
  have months (leap : Bool) : Monotone (daysOfMonths leap) :=
    monotone_nat_of_le_succ fun _ => Nat.le_add_right ..
  have years : Monotone daysOfYears := monotone_nat_of_le_succ fun _ => Nat.le_add_right ..
  have inMonth : daysOfMonths (isLeap t.year) (t.month - 1) + t.day ≤
      daysOfMonths (isLeap t.year) t.month := by
    have day := t.day_le
    obtain ⟨month, hmonth⟩ := Nat.exists_eq_add_one.mpr t.month_pos
    rw [hmonth] at day ⊢
    exact Nat.add_le_add_left day _
  have bounds := t.bounds
  unfold DateTime.days
  obtain year | ⟨year, month | ⟨month, day⟩⟩ := h
  · have wholeYear := months (isLeap t.year) t.month_le
    have next := years (show t.year - 1970 + 1 ≤ u.year - 1970 by omega)
    rw [daysOfYears, Nat.add_sub_cancel' t.year_ge] at next
    omega
  · have next := months (isLeap t.year) (show t.month ≤ u.month - 1 by omega)
    rw [← year]
    omega
  · rw [← year, ← month]
    omega

end DateTime

/-! ## The formula -/

theorem isLeap_cases (y : Nat) :
    (y % 4 = 0 ∧ (y % 100 ≠ 0 ∨ y % 400 = 0)) ∧ (isLeap y).toNat = 1 ∨
      ¬(y % 4 = 0 ∧ (y % 100 ≠ 0 ∨ y % 400 = 0)) ∧ (isLeap y).toNat = 0 := by
  unfold isLeap
  by_cases h : y % 4 = 0 ∧ (y % 100 ≠ 0 ∨ y % 400 = 0)
  · exact .inl ⟨h, by rw [decide_eq_true h]; rfl⟩
  · exact .inr ⟨h, by rw [decide_eq_false h]; rfl⟩

/-- From March on the months have 153 days in five. -/
theorem daysOfMonths_eq : ∀ leap : Bool, ∀ n < 13, daysOfMonths leap n =
    if n < 2 then 31 * n else 59 + leap.toNat + (153 * (n + 1) - 457) / 5 := by
  decide

theorem daysOfYears_eq (n : Nat) :
    daysOfYears n + 477 + (n + 1969) / 100 = 365 * n + (n + 1969) / 4 + (n + 1969) / 400 := by
  induction n with
  | zero => rfl
  | succ n ih =>
    have leap := isLeap_cases (1970 + n)
    rw [daysOfYears, daysOfMonths_eq _ 12 (by decide), if_neg (by decide)]
    omega

/-- The formula, in which a year begins in March. -/
def formula (m y d : Int) : Int :=
  d + (153 * m - 457) / 5 + 365 * y + y / 4 - y / 100 + y / 400 - 719469

theorem days_eq (t : DateTime) : (t.days : Int) =
    if t.month < 3 then formula (t.month + 12) (t.year - 1) t.day
    else formula t.month t.year t.day := by
  have bounds := t.bounds
  have years := daysOfYears_eq (t.year - 1970)
  have leap := isLeap_cases t.year
  unfold DateTime.days formula
  rw [daysOfMonths_eq _ _ (by omega)]
  split
  · rw [if_pos (by omega)]
    omega
  · rw [if_neg (by omega)]
    omega

theorem int_eq {x : Int} (low : -2 ^ 31 ≤ x) (high : x < 2 ^ 31) : int x = x :=
  Int.bmod_eq_of_le (by omega) (by omega)

theorem int_lt (x : Int) : int x < 2 ^ 31 := Int.bmod_lt (by decide)

/-- Nothing wraps around in the sum of the days. -/
theorem int_formula {m y d : Int} (hm : 3 ≤ m ∧ m ≤ 14) (hy : 0 ≤ y ∧ y ≤ 9999)
    (hd : 0 < d ∧ d ≤ 31) :
    int (d + (int (153 * m - 457)).tdiv 5 + 365 * y + y.tdiv 4 - y.tdiv 100 + y.tdiv 400 -
      719469) = formula m y d := by
  have nonneg {x : Int} (pos : 0 ≤ x) (n : Int) : x.tdiv n = x / n := Int.tdiv_eq_ediv_of_nonneg pos
  rw [int_eq (x := 153 * m - 457) (by omega) (by omega), nonneg (by omega), nonneg hy.1,
    nonneg hy.1, nonneg hy.1]
  exact int_eq (by omega) (by omega)

theorem mktimegm_eq (t : DateTime) (small : t.year ≤ 9999) :
    mktimegm t.toTm = int (86400 * t.days) + int t.clock := by
  have bounds := t.bounds
  unfold mktimegm DateTime.toTm
  dsimp only
  rw [int_eq (x := _ - 1900 + 1900) (by omega) (by omega),
    int_eq (x := _ - 1 + 1) (by omega) (by omega), Int.sub_add_cancel, Int.sub_add_cancel, days_eq]
  rw [int_eq (x := t.month + 12) (by omega) (by omega),
    int_eq (x := t.year - 1) (by omega) (by omega)]
  by_cases early : t.month < 3
  · rw [if_pos early, if_pos (by omega), int_formula (by omega) (by omega) (by omega)]
    rfl
  · rw [if_neg early, if_neg (by omega), int_formula (by omega) (by omega) (by omega)]
    rfl

/-- The seconds of the calendar are returned exactly for the dates up to 19 January 2038. They
increase with the date, by 86400 for each next day. -/
theorem mktimegm_iff (t : DateTime) : (mktimegm t.toTm = t.seconds ↔ t.Early) ∧
    ∀ u, (t.Next u → u.seconds = t.seconds + 86400) ∧ (t.Before u → t.seconds < u.seconds) := by
  have bounds := t.bounds
  refine ⟨?_, fun u => ⟨fun next => ?_, fun before => ?_⟩⟩
  rotate_left
  · have days := next.days
    obtain ⟨hour, minute, second, -⟩ := next
    unfold DateTime.seconds DateTime.clock
    omega
  · unfold DateTime.seconds
    obtain earlier | ⟨year, month, day, clock⟩ := before
    · have days := earlier.days
      omega
    · have days : t.days = u.days := by
        unfold DateTime.days
        rw [year, month, day]
      omega
  have clock : int t.clock = t.clock := int_eq (by omega) (by omega)
  have days := days_eq t
  unfold formula at days
  unfold DateTime.seconds DateTime.Early
  constructor
  · intro same
    obtain ⟨x, product⟩ : ∃ x, mktimegm t.toTm = int x + int t.clock := ⟨_, rfl⟩
    have := int_lt x
    by_cases last : t.year = 2038
    · split at days <;> omega
    · split at days <;> omega
  · intro early
    rw [mktimegm_eq t (by omega), clock, int_eq (by omega) (by split at days <;> omega)]
    omega

def january20 : DateTime :=
  ⟨2038, 1, 20, 0, 0, 0, by decide, Nat.one_pos, by decide, by decide, by decide, by decide,
    by decide, by decide⟩

/-- The seconds of 20 January 2038 do not fit into an `int`. -/
theorem january20_negative :
    mktimegm january20.toTm = -2147408896 ∧ january20.seconds = 2147558400 := by
  decide +kernel

end QemuStm32.Cutils
