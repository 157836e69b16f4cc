import Pintos.Lib.Gregorian
import Pintos.Lib.TwosComplement
import Mathlib.Tactic.Ring

/-!
# The real-time clock (`devices/rtc.c`)

The registers of the clock are read one after the other, and may change in between. The seconds that
are made of them are compared with the calendar's.
-/

open twos_complement gregorian

namespace pintos.devices

section Code

/-- `time_t`, an `unsigned long`. -/
abbrev time_t := BitVec 32

def RTC_REG_SEC : BitVec 8 := 0
def RTC_REG_MIN : BitVec 8 := 2
def RTC_REG_HOUR : BitVec 8 := 4
def RTC_REG_MDAY : BitVec 8 := 7
def RTC_REG_MON : BitVec 8 := 8
def RTC_REG_YEAR : BitVec 8 := 9

/-- The byte in a register at each access to the registers. -/
abbrev Cmos := Nat → BitVec 8 → BitVec 8

/-- `cmos_read`. The state is the number of accesses so far. -/
def cmos_read (cmos : Cmos) (index : BitVec 8) : StateT Nat Option (BitVec 8) :=
  fun n => some (cmos n index, n + 1)

/-- `bcd_to_bin`. -/
def bcd_to_bin (x : BitVec 8) : Int := (x &&& 0x0f#8).toNat + (x >>> 4).toNat * 10

/-- The time components of `rtc_get_time`. -/
@[ext] structure components where
  sec : Int
  min : Int
  hour : Int
  mday : Int
  mon : Int
  year : Int

/-- The components are read until the seconds are stable. There is no result where `fuel` turns do
not do. -/
def read_components (cmos : Cmos) : (fuel : Nat) → StateT Nat Option components
  | 0 => fun _ => none
  | fuel + 1 => do
    let sec := bcd_to_bin (← cmos_read cmos RTC_REG_SEC)
    let min := bcd_to_bin (← cmos_read cmos RTC_REG_MIN)
    let hour := bcd_to_bin (← cmos_read cmos RTC_REG_HOUR)
    let mday := bcd_to_bin (← cmos_read cmos RTC_REG_MDAY)
    let mon := bcd_to_bin (← cmos_read cmos RTC_REG_MON)
    let year := bcd_to_bin (← cmos_read cmos RTC_REG_YEAR)
    if sec ≠ bcd_to_bin (← cmos_read cmos RTC_REG_SEC) then read_components cmos fuel
    else return { sec, min, hour, mday, mon, year }

def days_per_month : List Int := [31, 28, 31, 30, 31, 30, 31, 31, 30, 31, 30, 31]

/-- `time += n`, for an `int`. -/
def add_to (time : time_t) (n : Int) : time_t := time + BitVec.ofInt 32 (int32 n)

/-- The loop over the months from `i` on, of which `left` are left. There is no result outside of the
table. -/
def month_loop : (left i : Nat) → time_t → Option time_t
  | 0, _, time => some time
  | left + 1, i, time => do
    month_loop left (i + 1) (add_to time ((← days_per_month[i - 1]?) * 24 * 60 * 60))

/-- Break down all components into seconds. -/
def components.seconds (c : components) : Option time_t := do
  let year := if c.year < 70 then c.year + 100 else c.year
  let year := year - 70
  let time := BitVec.ofInt 32 (int32 ((year * 365 + (year - 1).tdiv 4) * 24 * 60 * 60))
  let time ← month_loop c.mon.toNat 1 time
  let time := if c.mon > 2 ∧ year.tmod 4 = 0 then add_to time (24 * 60 * 60) else time
  let time := add_to time ((c.mday - 1) * 24 * 60 * 60)
  let time := add_to time (c.hour * 60 * 60)
  let time := add_to time (c.min * 60)
  return add_to time c.sec

/-- `rtc_get_time`. -/
def rtc_get_time (cmos : Cmos) (fuel : Nat) : Option time_t := do
  let (c, _) ← read_components cmos fuel 0
  c.seconds

end Code

/-- The byte for a number of two decimal digits. -/
def bcd (n : Nat) : BitVec 8 := BitVec.ofNat 8 (n / 10 * 16 + n % 10)

/-- The registers hold the date and time, at every access. -/
structure Shows (cmos : Cmos) (c : DateTime) : Prop where
  years : 1970 ≤ c.year ∧ c.year ≤ 2069
  second : ∀ n, cmos n RTC_REG_SEC = bcd c.second
  minute : ∀ n, cmos n RTC_REG_MIN = bcd c.minute
  hour : ∀ n, cmos n RTC_REG_HOUR = bcd c.hour
  day : ∀ n, cmos n RTC_REG_MDAY = bcd c.day
  month : ∀ n, cmos n RTC_REG_MON = bcd c.month
  year : ∀ n, cmos n RTC_REG_YEAR = bcd (c.year % 100)

/-- January 1, 1970. -/
def epoch : Date := ⟨1970, 1, 1, by decide, by decide⟩

/-- Registers that hold a date and time. -/
def registers (c : DateTime) : Cmos := fun _ index =>
  if index = RTC_REG_SEC then bcd c.second
  else if index = RTC_REG_MIN then bcd c.minute
  else if index = RTC_REG_HOUR then bcd c.hour
  else if index = RTC_REG_MDAY then bcd c.day
  else if index = RTC_REG_MON then bcd c.month
  else bcd (c.year % 100)

variable {cmos : Cmos} {c : DateTime}

theorem registers_shows (hyear : 1970 ≤ c.year ∧ c.year ≤ 2069) : Shows (registers c) c :=
  ⟨hyear, fun _ => rfl, fun _ => rfl, fun _ => rfl, fun _ => rfl, fun _ => rfl, fun _ => rfl⟩

theorem bcd_to_bin_bcd {n : Nat} (hn : n < 100) : bcd_to_bin (bcd n) = n := by
  have hand : (bcd n &&& 0x0f#8).toNat = (bcd n).toNat % 2 ^ 4 := Nat.and_two_pow_sub_one_eq_mod _ 4
  rw [bcd_to_bin, hand, BitVec.toNat_ushiftRight, Nat.shiftRight_eq_div_pow, bcd, BitVec.toNat_ofNat]
  omega

theorem Shows.read_components (h : Shows cmos c) (fuel n : Nat) :
    read_components cmos (fuel + 1) n =
      some (⟨c.second, c.minute, c.hour, c.day, c.month, (c.year % 100 : Nat)⟩, n + 7) := by
  have hday := (month_length_bounds c.month_range (leap c.year)).2
  have hsec := c.second_lt
  have hmin := c.minute_lt
  have hhour := c.hour_lt
  have hrange := c.day_range
  have hmonth := c.month_range
  simp only [devices.read_components, cmos_read, bind, StateT.bind, Option.bind_some, h.second,
    h.minute, h.hour, h.day, h.month, h.year]
  rw [bcd_to_bin_bcd (by omega), bcd_to_bin_bcd (by omega), bcd_to_bin_bcd (by omega),
    bcd_to_bin_bcd (by omega), bcd_to_bin_bcd (by omega), bcd_to_bin_bcd (by omega),
    if_neg (not_not.mpr rfl)]
  rfl

theorem ofInt_int32 (n : Int) : BitVec.ofInt 32 (int32 n) = BitVec.ofInt 32 n := by
  apply BitVec.eq_of_toInt_eq
  rw [BitVec.toInt_ofInt, BitVec.toInt_ofInt, int32, wrap, Int.bmod_bmod]

theorem add_to_ofInt (x n : Int) : add_to (BitVec.ofInt 32 x) n = BitVec.ofInt 32 (x + n) := by
  rw [add_to, ofInt_int32, BitVec.ofInt_add]

theorem days_per_month_eq {i : Nat} (hi : 1 ≤ i ∧ i ≤ 12) :
    days_per_month[i - 1]? = some (month_length false i : Int) := by
  obtain ⟨hlow, hhigh⟩ := hi
  interval_cases i <;> rfl

/-- The loop adds the days of the months from `i` on. -/
theorem month_loop_run (left : Nat) : ∀ {i : Nat} (x : Int), 1 ≤ i → i + left ≤ 13 →
    month_loop left i (BitVec.ofInt 32 x) = some (BitVec.ofInt 32
      (x + (days_before_month false (i + left) - days_before_month false i : Int) * 86400)) := by
  induction left with
  | zero =>
    intro i x _ _
    rw [month_loop, Nat.add_zero, Int.sub_self, Int.zero_mul, Int.add_zero]
  | succ left ih =>
    intro i x hlow hhigh
    rw [month_loop, days_per_month_eq ⟨hlow, by omega⟩, Option.bind_eq_bind, Option.bind_some, add_to_ofInt,
      ih _ (by omega) (by omega), days_before_month_succ false hlow, Nat.add_right_comm, Nat.add_assoc i left 1]
    congr 2
    push_cast
    ring

/-- The days that `rtc_get_time` counts too many: those of the month itself, and the leap days that
it puts into the wrong years. -/
def surplus (d : Date) : Int :=
  month_length false d.month + (((d.year : Int) - 1971).tdiv 4 - ((d.year : Int) - 1969) / 4) +
    ((if d.month > 2 ∧ (d.year - 1970) % 4 = 0 then 1 else 0) -
      if d.month > 2 ∧ d.year % 4 = 0 then 1 else 0)

theorem surplus_range {d : Date} (hlow : 1970 ≤ d.year) : 26 ≤ surplus d ∧ surplus d ≤ 32 := by
  have hlength := month_length_bounds d.month_range false
  have hdiv : ((d.year : Int) - 1971).tdiv 4 = if d.year = 1970 then 0 else ((d.year : Int) - 1971) / 4 := by
    split_ifs with hyear
    · rw [hyear]
      rfl
    · exact Int.tdiv_eq_ediv_of_nonneg (by omega)
  rw [surplus, hdiv]
  split_ifs <;> omega

theorem number_sub_epoch {d : Date} (hyear : 1970 ≤ d.year ∧ d.year ≤ 2069) :
    (d.number - epoch.number : Int) =
    365 * (d.year - 1970) + ((d.year : Int) - 1969) / 4 + days_before_month false d.month +
      (if d.month > 2 ∧ d.year % 4 = 0 then 1 else 0) + (d.day - 1) := by
  obtain ⟨k, hk⟩ := Nat.exists_eq_add_of_le hyear.1
  have hbefore := days_before_year_add (show 1901 ≤ 1970 by decide) k (by omega)
  have hleap : leap d.year = decide (d.year % 4 = 0) := by
    simp only [leap, ne_eq, ← Bool.decide_or, ← Bool.decide_and, decide_eq_decide]
    omega
  have hday := d.day_range.1
  have hepoch : epoch.number = days_before_year 1970 := Date.number_new_year rfl rfl
  rw [hepoch, Date.number, days_before_month_leap d.month_range, hleap, hk, hbefore]
  simp only [Bool.and_eq_true, decide_eq_true_eq, gt_iff_lt]
  generalize days_before_year 1970 = before
  split_ifs <;> omega

/-- What is computed of a date and time. -/
theorem Shows.seconds (h : Shows cmos c) :
    components.seconds ⟨c.second, c.minute, c.hour, c.day, c.month, (c.year % 100 : Nat)⟩ =
      some (BitVec.ofInt 32 (c.seconds_since epoch + surplus c.toDate * 86400)) := by
  have hyears := h.years
  have hyear : (if ((c.year % 100 : Nat) : Int) < 70 then ((c.year % 100 : Nat) : Int) + 100
      else ((c.year % 100 : Nat) : Int)) - 70 = (c.year : Int) - 1970 := by
    split_ifs <;> omega
  obtain ⟨hlow, hhigh⟩ := c.month_range
  simp only [components.seconds, hyear, Int.toNat_natCast]
  rw [ofInt_int32, month_loop_run c.month _ le_rfl (by omega), Option.bind_eq_bind, Option.bind_some]
  have hleap (x : Int) : (if (c.month : Int) > 2 ∧ ((c.year : Int) - 1970).tmod 4 = 0 then
      add_to (BitVec.ofInt 32 x) (24 * 60 * 60) else BitVec.ofInt 32 x) =
      BitVec.ofInt 32 (x + if c.month > 2 ∧ (c.year - 1970) % 4 = 0 then 86400 else 0) := by
    have hcond : (c.month : Int) > 2 ∧ ((c.year : Int) - 1970).tmod 4 = 0 ↔
        c.month > 2 ∧ (c.year - 1970) % 4 = 0 := by
      rw [Int.tmod_eq_emod_of_nonneg (by omega)]
      omega
    simp only [hcond]
    split_ifs
    · exact add_to_ofInt _ _
    · rw [Int.add_zero]
  rw [hleap, add_to_ofInt, add_to_ofInt, add_to_ofInt, add_to_ofInt]
  refine congrArg (fun n => some (BitVec.ofInt 32 n)) ?_
  have hprev : (c.year : Int) - 1970 - 1 = c.year - 1971 := by omega
  rw [DateTime.seconds_since, number_sub_epoch h.years, surplus, Nat.add_comm 1,
    days_before_month_succ false hlow, days_before_month_one, hprev]
  split_ifs <;> omega

/-- In these years the seconds do not wrap. -/
theorem seconds_since_range {c : DateTime} (hyear : 1970 ≤ c.year ∧ c.year ≤ 2069) :
    0 ≤ c.seconds_since epoch ∧ c.seconds_since epoch + 86400 * 32 < 2 ^ 32 := by
  have hhour := c.hour_lt
  have hmin := c.minute_lt
  have hsec := c.second_lt
  have hday := c.day_range
  have hlength := month_length_bounds c.month_range (leap c.year)
  have hbefore := days_before_month_le c.month_range false
  rw [DateTime.seconds_since, number_sub_epoch hyear]
  split_ifs <;> omega

/-- The seconds that are returned are `surplus` days ahead. -/
theorem Shows.rtc_get_time (h : Shows cmos c) (fuel : Nat) :
    ∃ time, rtc_get_time cmos (fuel + 1) = some time ∧
      (time.toNat : Int) = c.seconds_since epoch + surplus c.toDate * 86400 := by
  obtain ⟨hlow, hhigh⟩ := seconds_since_range h.years
  obtain ⟨hleast, hmost⟩ := surplus_range h.years.1
  refine ⟨BitVec.ofInt 32 (c.seconds_since epoch + surplus c.toDate * 86400), ?_, ?_⟩
  · rw [devices.rtc_get_time, h.read_components, Option.bind_eq_bind, Option.bind_some]
    exact h.seconds
  · rw [BitVec.toNat_ofInt, Int.emod_eq_of_lt (by omega) (by omega), Int.toNat_of_nonneg (by omega)]

/-- From January 31 to February 1 the seconds fall. -/
theorem seconds_fall {c c' : DateTime} (hyear : 1970 ≤ c.year ∧ c.year ≤ 2069)
    (hdate : c.month = 1 ∧ c.day = 31) (hdate' : c'.year = c.year ∧ c'.month = 2 ∧ c'.day = 1) :
    c'.seconds_since epoch + surplus c'.toDate * 86400 < c.seconds_since epoch + surplus c.toDate * 86400 := by
  obtain ⟨hmonth, hday⟩ := hdate
  obtain ⟨hyear', hmonth', hday'⟩ := hdate'
  have hhour := c'.hour_lt
  have hmin := c'.minute_lt
  have hsec := c'.second_lt
  have hjanuary : month_length false 1 = 31 := rfl
  have hfebruary : month_length false 2 = 28 := rfl
  have hbefore : days_before_month false 2 = 31 := rfl
  rw [DateTime.seconds_since, DateTime.seconds_since, number_sub_epoch hyear,
    number_sub_epoch (hyear' ▸ hyear), surplus, surplus, hyear', hmonth, hmonth', hday, hday',
    days_before_month_one, hbefore, hjanuary, hfebruary]
  split_ifs <;> omega

/-- The seconds that are returned are never those since the epoch, and in no year do they increase
with the date. -/
theorem rtc_get_time_wrong (h : Shows cmos c) (fuel : Nat) :
    (∃ time, rtc_get_time cmos (fuel + 1) = some time ∧
      (time.toNat : Int) ≠ c.seconds_since epoch % 2 ^ 32) ∧
    ∃ d d' : Date, d.year = c.year ∧ d'.year = c.year ∧ d < d' ∧
      ∀ {cmos₁ cmos₂ : Cmos} {c₁ c₂ : DateTime},
        Shows cmos₁ c₁ → c₁.toDate = d → Shows cmos₂ c₂ → c₂.toDate = d' →
        ∃ time₁ time₂, rtc_get_time cmos₁ (fuel + 1) = some time₁ ∧
          rtc_get_time cmos₂ (fuel + 1) = some time₂ ∧ time₂ < time₁ := by
  constructor
  · obtain ⟨time, htime, hvalue⟩ := h.rtc_get_time fuel
    obtain ⟨hlow, hhigh⟩ := seconds_since_range h.years
    obtain ⟨hleast, hmost⟩ := surplus_range h.years.1
    refine ⟨time, htime, ?_⟩
    rw [hvalue, Int.emod_eq_of_lt hlow (by omega)]
    omega
  · have hfirst : 1 ≤ month_length (leap c.year) 2 :=
      Nat.le_trans (by decide) (month_length_bounds (by decide) _).1
    refine ⟨⟨c.year, 1, 31, by decide, by decide, le_rfl⟩,
      ⟨c.year, 2, 1, by decide, le_rfl, hfirst⟩, rfl, rfl, Or.inr ⟨rfl, Or.inl Nat.one_lt_two⟩, ?_⟩
    intro cmos₁ cmos₂ c₁ c₂ h₁ hdate₁ h₂ hdate₂
    obtain ⟨time₁, htime₁, hvalue₁⟩ := h₁.rtc_get_time fuel
    obtain ⟨time₂, htime₂, hvalue₂⟩ := h₂.rtc_get_time fuel
    refine ⟨time₁, time₂, htime₁, htime₂, ?_⟩
    have hfall := @seconds_fall c₁ c₂ h₁.years (by simp only [hdate₁, and_self])
      (by simp only [hdate₁, hdate₂, and_self])
    rw [← hvalue₁, ← hvalue₂] at hfall
    exact Nat.cast_lt.mp hfall

/-- Midnight of January 1, 1970. -/
def midnight : DateTime := ⟨epoch, 0, 0, 0, by decide, by decide, by decide⟩

theorem rtc_get_time_wrong_midnight : ∃ time, rtc_get_time (registers midnight) 1 = some time ∧
    (time.toNat : Int) ≠ midnight.seconds_since epoch % 2 ^ 32 :=
  (rtc_get_time_wrong (registers_shows (by decide)) 0).1

/-- At the start of the epoch 31 days are returned. -/
theorem rtc_get_time_midnight : Shows (registers midnight) midnight ∧ midnight.seconds_since epoch = 0 ∧
    rtc_get_time (registers midnight) 1 = some (31 * 24 * 60 * 60) := by
  refine ⟨registers_shows (by decide), ?_, by decide⟩
  rw [DateTime.seconds_since, midnight, Int.sub_self]
  rfl

end pintos.devices
