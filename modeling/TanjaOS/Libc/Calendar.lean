import Mathlib

/-!
The calendar of the C library: `gmtime` turns a time into a date, `mktime` a date into a time.
-/

namespace TanjaOS

/--
`struct tm`
-/
structure Tm where
  tmSec : Int
  tmMin : Int
  tmHour : Int
  tmMday : Int
  tmMon : Int
  tmYear : Int
  tmWday : Int
  tmYday : Int
  tmIsdst : Int
  deriving DecidableEq

/--
The year, the month counted from 1 and the day of the day `z` after 1970-01-01.
-/
def civilFromDays (z : Int) : Int × Int × Int :=
  let z := z + 719468
  let era := (if 0 ≤ z then z else z - 146096).tdiv 146097
  -- from here on the source counts in `unsigned long`, nothing below goes under zero
  let doe := (z - era * 146097).toNat
  let yoe := (doe - doe / 1460 + doe / 36524 - doe / 146096) / 365
  let yy : Int := yoe + era * 400
  let doy := doe - (365 * yoe + yoe / 4 - yoe / 100)
  let mp := (5 * doy + 2) / 153
  let dd := doy - (153 * mp + 2) / 5 + 1
  let mm := if mp < 10 then mp + 3 else mp - 9
  (yy + (if mm ≤ 2 then 1 else 0), mm, dd)

def tmFill (t : UInt32) : Tm :=
  let secs := t.toInt32.toInt
  let days := secs.tdiv 86400
  let rem := secs.tmod 86400
  let (rem, days) := if rem < 0 then (rem + 86400, days - 1) else (rem, days)
  let (y, m, d) := civilFromDays days
  {
    tmSec := rem.tmod 60
    tmMin := (rem.tdiv 60).tmod 60
    tmHour := rem.tdiv 3600
    tmMday := d
    tmMon := m - 1
    tmYear := y - 1900
    tmWday := (days + 4).tmod 7
    tmYday := 0
    tmIsdst := 0
  }

def gmtime (t : Option UInt32) : Option Tm :=
  t.map tmFill

def isLeap (y : Int) : Bool :=
  (y.tmod 4 == 0 && y.tmod 100 != 0) || y.tmod 400 == 0

def mdays (y m : Int) : Int :=
  if m = 1 ∧ isLeap y then
    29
  else if m < 0 ∨ m > 11 then
    30
  else
    [31, 28, 31, 30, 31, 30, 31, 31, 30, 31, 30, 31].getD m.toNat 0

/--
`for (int yy = 1970; yy < y; yy++)`, `n` is how many years there are.
-/
def mktime.years (n : Nat) : Int :=
  match n with
  | 0 => 0
  | n + 1 => years n + (if isLeap (1970 + n) then 366 else 365)

/--
`for (int mm = 0; mm < tm->tm_mon; mm++)`
-/
def mktime.months (y : Int) (n : Nat) : Int :=
  match n with
  | 0 => 0
  | n + 1 => months y n + mdays y n

/--
The day count that `mktime` sums up for a date, months are counted from 0.
-/
def mktime.days (y mon mday : Int) : Int :=
  mktime.years (y - 1970).toNat + mktime.months y mon.toNat + (mday - 1)

/--
What `mktime` returns and what it leaves in its argument.
-/
def mktime (tm : Tm) : UInt32 × Tm :=
  let y := tm.tmYear + 1900
  if y < 1970 then
    (-1, tm)
  else
    let days := mktime.days y tm.tmMon tm.tmMday
    let yd := tm.tmMday - 1 + mktime.months y tm.tmMon.toNat
    (.ofInt (days * 86400 + tm.tmHour * 3600 + tm.tmMin * 60 + tm.tmSec),
      { tm with tmWday := (4 + days).tmod 7, tmYday := yd })

/--
A date of the civil calendar from 1970 on, the month is counted from 0.
-/
structure IsDate (y mon mday : Int) : Prop where
  year : 1970 ≤ y
  month : 0 ≤ mon ∧ mon ≤ 11
  day : 1 ≤ mday ∧ mday ≤ mdays y mon

structure Tm.Valid (tm : Tm) : Prop where
  date : IsDate (tm.tmYear + 1900) tm.tmMon tm.tmMday
  hour : 0 ≤ tm.tmHour ∧ tm.tmHour ≤ 23
  min : 0 ≤ tm.tmMin ∧ tm.tmMin ≤ 59
  sec : 0 ≤ tm.tmSec ∧ tm.tmSec ≤ 59
  wday : 0 ≤ tm.tmWday ∧ tm.tmWday ≤ 6

/--
The days before year `n` when years are numbered from 0 and year 0 is no leap year.
-/
def yearStart (n : Nat) : Nat :=
  365 * n + n / 4 - n / 100 + n / 400

section YearStart

theorem isLeap_natCast (n : Nat)
    : isLeap n = decide (n % 4 = 0 ∧ n % 100 ≠ 0 ∨ n % 400 = 0) := by
  unfold isLeap
  rw [Bool.eq_iff_iff]
  simp only [Bool.or_eq_true, Bool.and_eq_true, beq_iff_eq, bne_iff_ne, decide_eq_true_eq]
  rw [Int.tmod_eq_emod_of_nonneg (by omega), Int.tmod_eq_emod_of_nonneg (by omega),
    Int.tmod_eq_emod_of_nonneg (by omega)]
  omega

theorem yearStart_succ (n : Nat)
    : yearStart (n + 1) = yearStart n + (if isLeap (n + 1 : Nat) then 366 else 365) := by
  have h4 : (n + 1) / 4 = n / 4 + if 4 ∣ n + 1 then 1 else 0 := Nat.succ_div
  have h100 : (n + 1) / 100 = n / 100 + if 100 ∣ n + 1 then 1 else 0 := Nat.succ_div
  have h400 : (n + 1) / 400 = n / 400 + if 400 ∣ n + 1 then 1 else 0 := Nat.succ_div
  have hle : n / 100 ≤ n / 4 := Nat.div_le_div_left (by omega) (by omega)
  rw [isLeap_natCast]
  unfold yearStart
  rw [h4, h100, h400]
  simp only [Nat.dvd_iff_mod_eq_zero, decide_eq_true_eq]
  -- a multiple of 400 is one of 100, and that one of 4
  by_cases c400 : (n + 1) % 400 = 0
  . have c100 : (n + 1) % 100 = 0 := by omega
    have c4 : (n + 1) % 4 = 0 := by omega
    rw [if_pos c4, if_pos c100, if_pos c400, if_pos (by omega)]
    omega
  . by_cases c100 : (n + 1) % 100 = 0
    . have c4 : (n + 1) % 4 = 0 := by omega
      rw [if_pos c4, if_pos c100, if_neg c400, if_neg (by omega)]
      omega
    . by_cases c4 : (n + 1) % 4 = 0
      . rw [if_pos c4, if_neg c100, if_neg c400, if_pos (by omega)]
        omega
      . rw [if_neg c4, if_neg c100, if_neg c400, if_neg (by omega)]
        omega

theorem yearStart_mono : Monotone yearStart := by
  apply monotone_nat_of_le_succ
  intro n
  rw [yearStart_succ]
  omega

theorem yearStart_era (e n : Nat) : yearStart (400 * e + n) = 146097 * e + yearStart n := by
  unfold yearStart
  omega

theorem years_eq (n : Nat) : mktime.years n = (yearStart (1969 + n) : Int) - 719162 := by
  induction n with
  | zero => rfl
  | succ n ih =>
    unfold mktime.years
    rw [ih, show 1969 + (n + 1) = 1969 + n + 1 from rfl, yearStart_succ]
    have hcast : (1970 + n : Int) = (1969 + n + 1 : Nat) := by omega
    rw [hcast]
    split <;> omega

theorem exists_year {n d : Nat} (h : d < yearStart n)
    : ∃ k < n, yearStart k ≤ d ∧ d < yearStart (k + 1) := by
  induction n with
  | zero => cases h
  | succ n ih =>
    by_cases hn : d < yearStart n
    . obtain ⟨k, hk, hd⟩ := ih hn
      exact ⟨k, by omega, hd⟩
    . exact ⟨n, by omega, by omega, h⟩

/--
The year of the era that `civil_from_days` computes from the day of the era.
-/
def yearOfEra (doe : Nat) : Nat :=
  (doe - doe / 1460 + doe / 36524 - doe / 146096) / 365

theorem yearOfEra_mono : Monotone yearOfEra := by
  apply monotone_nat_of_le_succ
  intro d
  unfold yearOfEra
  apply Nat.div_le_div_right
  omega

theorem yearOfEra_ends : ∀ k < 400, yearOfEra (yearStart k) = k
    ∧ yearOfEra (yearStart (k + 1) - 1) = k := by
  decide +kernel

theorem yearOfEra_eq {k doe : Nat} (hk : k < 400) (hlo : yearStart k ≤ doe)
    (hhi : doe < yearStart (k + 1))
    : yearOfEra doe = k := by
  have hends := yearOfEra_ends k hk
  have h1 := yearOfEra_mono hlo
  have h2 := yearOfEra_mono (show doe ≤ yearStart (k + 1) - 1 by omega)
  omega

end YearStart

section CivilFromDays

/--
A day by the year that starts with the March before it, and its number in that year.
-/
structure IsMarchDay (z Y doy : Nat) : Prop where
  eq : z + 719468 = yearStart Y + doy
  lt : z + 719468 < yearStart (Y + 1)

theorem exists_marchDay (z : Nat) : ∃ Y doy, IsMarchDay z Y doy := by
  have hlt : z + 719468 < yearStart (z + 719468 + 1) := by
    unfold yearStart
    omega
  obtain ⟨Y, -, hlo, hhi⟩ := exists_year hlt
  exact ⟨Y, z + 719468 - yearStart Y, by omega, hhi⟩

variable {z Y doy : Nat}

theorem IsMarchDay.doy_lt (h : IsMarchDay z Y doy)
    : doy < if isLeap (Y + 1 : Nat) then 366 else 365 := by
  have h1 := h.eq
  have h2 := h.lt
  rw [yearStart_succ] at h2
  omega

theorem civilFromDays_march (h : IsMarchDay z Y doy)
    : civilFromDays z
      = let mp := (5 * doy + 2) / 153
        (if mp < 10 then (Y : Int) else Y + 1, if mp < 10 then (mp : Int) + 3 else mp - 9,
          (doy : Int) - (153 * mp + 2) / 5 + 1) := by
  have hY := Nat.div_add_mod Y 400
  have hk := Nat.mod_lt Y (show 400 > 0 by omega)
  generalize Y / 400 = e at hY
  generalize Y % 400 = k at hY hk
  subst hY
  have heq := h.eq
  have hlt := h.lt
  have hdoy := h.doy_lt
  rw [Nat.add_assoc, yearStart_era] at hlt
  rw [yearStart_era] at heq
  have h400 : yearStart (k + 1) ≤ 146097 := yearStart_mono (show k + 1 ≤ 400 by omega)
  have hdiv : (z + 719468) / 146097 = e := by omega
  have hera : (if 0 ≤ (z : Int) + 719468 then (z : Int) + 719468 else (z : Int) + 719468 - 146096).tdiv
      146097 = e := by
    rw [if_pos (by omega), Int.tdiv_eq_ediv_of_nonneg (by omega)]
    omega
  have hdoe : ((z : Int) + 719468 - e * 146097).toNat = yearStart k + doy := by omega
  have hyoe := yearOfEra_eq hk (show yearStart k ≤ yearStart k + doy by omega) (by omega)
  unfold yearOfEra at hyoe
  have hstart : yearStart k = 365 * k + k / 4 - k / 100 := by
    unfold yearStart
    rw [Nat.div_eq_of_lt hk]
    omega
  unfold civilFromDays
  simp only [hera, hdoe, hyoe]
  rw [← hstart, Nat.add_sub_cancel_left]
  generalize hmp : (5 * doy + 2) / 153 = mp
  have hmp12 : mp < 12 := by
    split at hdoy <;> omega
  by_cases h10 : mp < 10
  . simp only [if_pos h10, Prod.mk.injEq]
    rw [if_neg (by omega)]
    omega
  . simp only [if_neg h10, Prod.mk.injEq]
    rw [if_pos (by omega)]
    omega

end CivilFromDays

section Inverse

/--
The days before month `n` of a year without a leap day.
-/
def monthStart (n : Nat) : Int :=
  [0, 31, 59, 90, 120, 151, 181, 212, 243, 273, 304, 334, 365].getD n 0

theorem months_eq (y : Int) {n : Nat} (h : n ≤ 12)
    : mktime.months y n = monthStart n + if 2 ≤ n ∧ isLeap y then 1 else 0 := by
  unfold monthStart
  interval_cases n <;> cases hy : isLeap y <;> simp [mktime.months, mdays, hy]

theorem mdays_eq (y : Int) {n : Nat} (h : n < 12)
    : mdays y n = monthStart (n + 1) - monthStart n + if n = 1 ∧ isLeap y then 1 else 0 := by
  unfold monthStart
  interval_cases n <;> cases hy : isLeap y <;> simp [mdays, hy]

theorem monthStart_march {mp : Nat} (h : mp < 12)
    : monthStart (if mp < 10 then mp + 2 else mp - 10)
      = (153 * mp + 2) / 5 + if mp < 10 then 59 else -306 := by
  unfold monthStart
  interval_cases mp <;> rfl

theorem days_eq {Y : Nat} (hY : 1970 ≤ Y) {n : Nat} (h : n ≤ 12) (d : Int)
    : mktime.days Y n d = yearStart (Y - 1) - 719162 + monthStart n
      + (if 2 ≤ n ∧ isLeap Y then 1 else 0) + (d - 1) := by
  unfold mktime.days
  have hcast : ((Y : Int) - 1970).toNat = Y - 1970 := by omega
  rw [hcast, years_eq, Int.toNat_natCast, months_eq Y h, show 1969 + (Y - 1970) = Y - 1 by omega]
  omega

theorem IsDate.ofNat {Y n : Nat} {d : Int} (hY : 1970 ≤ Y) (hn : n < 12) (h1 : 1 ≤ d)
    (hd : d ≤ monthStart (n + 1) - monthStart n + if n = 1 ∧ isLeap Y then 1 else 0)
    : IsDate Y n d where
  year := by omega
  month := by omega
  day := ⟨h1, by rw [mdays_eq Y hn]; exact hd⟩

theorem monthEnd_march {mp : Nat} (h : mp < 11)
    : monthStart ((if mp < 10 then mp + 2 else mp - 10) + 1)
      = (153 * (mp + 1) + 2) / 5 + if mp < 10 then 59 else -306 := by
  unfold monthStart
  interval_cases mp <;> rfl

variable {z Y doy : Nat}

theorem IsMarchDay.isDate (h : IsMarchDay z Y doy) {mp : Nat} (hmp : (5 * doy + 2) / 153 = mp)
    : IsDate (Y + if mp < 10 then 0 else 1 : Nat) (if mp < 10 then mp + 2 else mp - 10 : Nat)
        (doy - (153 * mp + 2) / 5 + 1)
      ∧ mktime.days (Y + if mp < 10 then 0 else 1 : Nat) (if mp < 10 then mp + 2 else mp - 10 : Nat)
        (doy - (153 * mp + 2) / 5 + 1) = z := by
  have heq := h.eq
  have hdoy := h.doy_lt
  have hmp12 : mp < 12 := by
    split at hdoy <;> omega
  have hstart := monthStart_march hmp12
  have h1969 : Y ≤ 1969 → yearStart Y ≤ 719162 := fun hle => yearStart_mono hle
  have h1968 : Y ≤ 1968 → yearStart Y ≤ 718797 := fun hle => yearStart_mono hle
  by_cases h10 : mp < 10
  . have hend := monthEnd_march (show mp < 11 by omega)
    have hY : 1970 ≤ Y := by omega
    have hsucc := yearStart_succ (Y - 1)
    rw [show Y - 1 + 1 = Y by omega] at hsucc
    simp only [if_pos h10, Nat.add_zero] at hstart hend ⊢
    constructor
    . apply IsDate.ofNat hY (by omega) (by omega)
      rw [if_neg (by omega)]
      omega
    . rw [days_eq hY (by omega), hstart]
      split at hsucc
      . next hl =>
        rw [if_pos ⟨by omega, hl⟩]
        omega
      . next hl =>
        rw [if_neg (by rintro ⟨-, hl'⟩; exact hl hl')]
        omega
  . have hY : 1970 ≤ Y + 1 := by
      split at hdoy <;> omega
    simp only [if_neg h10] at hstart ⊢
    constructor
    . apply IsDate.ofNat hY (by omega) (by omega)
      by_cases h11 : mp = 10
      . subst h11
        have hend := monthEnd_march (show 10 < 11 by omega)
        simp only [if_neg h10] at hend
        rw [if_neg (by omega), hstart, hend]
        omega
      . obtain rfl : mp = 11 := by omega
        rw [hstart]
        simp only [true_and, show 11 - 10 = 1 from rfl]
        show _ ≤ (59 : Int) - _ + _
        split at hdoy
        . next hl => rw [if_pos hl]; omega
        . next hl => rw [if_neg hl]; omega
    . rw [days_eq hY (by omega), hstart, if_neg (by omega)]
      simp only [Nat.add_sub_cancel]
      omega

theorem mdays_pos (y m : Int) (h : 0 ≤ m ∧ m ≤ 11) : 0 < mdays y m := by
  obtain ⟨n, rfl⟩ := Int.eq_ofNat_of_zero_le h.1
  have hn : n < 12 := by omega
  unfold mdays
  interval_cases n <;> split <;> simp

theorem months_mono (y : Int) {m n : Nat} (h : m ≤ n) (hn : n ≤ 12)
    : mktime.months y m ≤ mktime.months y n := by
  induction n with
  | zero => rw [Nat.le_zero.1 h]
  | succ n ih =>
    rcases Nat.eq_or_lt_of_le h with rfl | hlt
    . exact le_refl _
    . have := mdays_pos y n (by omega)
      have := ih (by omega) (by omega)
      rw [show mktime.months y (n + 1) = mktime.months y n + mdays y n from rfl]
      omega

theorem IsDate.bounds {Y n : Nat} {d : Int} (h : IsDate Y n d)
    : mktime.months Y n + (d - 1) < mktime.months Y (n + 1)
      ∧ (yearStart (Y - 1) : Int) - 719162 ≤ mktime.days Y n d
      ∧ mktime.days Y n d < yearStart Y - 719162 := by
  have hY := h.year
  have hn := h.month
  have hd := h.day
  have hsucc := yearStart_succ (Y - 1)
  rw [show Y - 1 + 1 = Y by omega] at hsucc
  have hlt : mktime.months Y n + (d - 1) < mktime.months Y (n + 1) := by
    rw [mktime.months]
    omega
  have hle := months_mono Y (show n + 1 ≤ 12 by omega) (le_refl _)
  have hge := months_mono Y (Nat.zero_le n) (by omega)
  have h12 : mktime.months Y 12 = 365 + if isLeap Y then 1 else 0 := by
    rw [months_eq Y (le_refl _)]
    simp [monthStart]
  have hdays : mktime.days Y n d
      = (yearStart (Y - 1) : Int) - 719162 + mktime.months Y n + (d - 1) := by
    unfold mktime.days
    have hcast : ((Y : Int) - 1970).toNat = Y - 1970 := by omega
    rw [hcast, years_eq, Int.toNat_natCast, show 1969 + (Y - 1970) = Y - 1 by omega]
  refine ⟨hlt, ?_, ?_⟩
  . rw [hdays]
    simp only [mktime.months] at hge
    omega
  . rw [hdays]
    split at hsucc
    . next hl =>
      rw [if_pos hl] at h12
      omega
    . next hl =>
      rw [if_neg hl] at h12
      omega

theorem IsDate.year_le {Y n Y' n' : Nat} {d d' : Int} (h : IsDate Y n d) (h' : IsDate Y' n' d')
    (heq : mktime.days Y n d = mktime.days Y' n' d')
    : Y ≤ Y' := by
  by_contra hlt
  have hmono := yearStart_mono (show Y' ≤ Y - 1 by omega)
  have hb := h.bounds
  have hb' := h'.bounds
  omega

theorem IsDate.month_le {Y n n' : Nat} {d d' : Int} (h : IsDate Y n d) (h' : IsDate Y n' d')
    (heq : mktime.days Y n d = mktime.days Y n' d')
    : n ≤ n' := by
  by_contra hlt
  have hn := h.month
  have hmono := months_mono Y (show n' + 1 ≤ n by omega) (by omega)
  have hb' := h'.bounds.1
  have hd := h.day
  unfold mktime.days at heq
  rw [Int.toNat_natCast, Int.toNat_natCast] at heq
  omega

theorem IsDate.unique {y mon mday y' mon' mday' : Int} (h : IsDate y mon mday)
    (h' : IsDate y' mon' mday') (heq : mktime.days y mon mday = mktime.days y' mon' mday')
    : y = y' ∧ mon = mon' ∧ mday = mday' := by
  obtain ⟨Y, rfl⟩ := Int.eq_ofNat_of_zero_le (show 0 ≤ y by have := h.year; omega)
  obtain ⟨Y', rfl⟩ := Int.eq_ofNat_of_zero_le (show 0 ≤ y' by have := h'.year; omega)
  obtain ⟨n, rfl⟩ := Int.eq_ofNat_of_zero_le h.month.1
  obtain ⟨n', rfl⟩ := Int.eq_ofNat_of_zero_le h'.month.1
  obtain rfl : Y = Y' := Nat.le_antisymm (h.year_le h' heq) (h'.year_le h heq.symm)
  obtain rfl : n = n' := Nat.le_antisymm (h.month_le h' heq) (h'.month_le h heq.symm)
  refine ⟨rfl, rfl, ?_⟩
  unfold mktime.days at heq
  omega

theorem civilFromDays_spec (z : Nat)
    : IsDate (civilFromDays z).1 ((civilFromDays z).2.1 - 1) (civilFromDays z).2.2
      ∧ mktime.days (civilFromDays z).1 ((civilFromDays z).2.1 - 1) (civilFromDays z).2.2 = z := by
  obtain ⟨Y, doy, h⟩ := exists_marchDay z
  have hspec := h.isDate rfl
  rw [civilFromDays_march h]
  generalize hmp : (5 * doy + 2) / 153 = mp at hspec
  have hY : (if mp < 10 then (Y : Int) else Y + 1) = ((Y + if mp < 10 then 0 else 1 : Nat) : Int) := by
    split <;> simp
  have hmon : (if mp < 10 then (mp : Int) + 3 else mp - 9) - 1
      = ((if mp < 10 then mp + 2 else mp - 10 : Nat) : Int) := by
    have := h.doy_lt
    split at this <;> split <;> omega
  simp only [hY, hmon]
  exact hspec

theorem civilFromDays_days {y mon mday : Int} (h : IsDate y mon mday)
    : civilFromDays (mktime.days y mon mday) = (y, mon + 1, mday) := by
  have hnn : 0 ≤ mktime.days y mon mday := by
    obtain ⟨Y, rfl⟩ := Int.eq_ofNat_of_zero_le (show 0 ≤ y by have := h.year; omega)
    obtain ⟨n, rfl⟩ := Int.eq_ofNat_of_zero_le h.month.1
    have hb := h.bounds.2.1
    have hY := h.year
    have h1969 : yearStart 1969 ≤ yearStart (Y - 1) := yearStart_mono (by omega)
    have heq : yearStart 1969 = 719162 := rfl
    omega
  obtain ⟨z, hz⟩ := Int.eq_ofNat_of_zero_le hnn
  have hspec := civilFromDays_spec z
  rw [hz]
  obtain ⟨h1, h2, h3⟩ := h.unique hspec.1 (by rw [hspec.2, hz])
  apply Prod.ext h1.symm
  apply Prod.ext
  . show _ = mon + 1
    omega
  . exact h3.symm

end Inverse

section Gmtime

theorem secs_eq {t : UInt32} (ht : t.toNat < 2 ^ 31) : t.toInt32.toInt = t.toNat := by
  show t.toBitVec.toInt = t.toNat
  rw [BitVec.toInt_eq_toNat_of_lt]
  . rfl
  . rw [UInt32.toNat_toBitVec]
    omega

theorem tmFill_eq {t : UInt32} (ht : t.toNat < 2 ^ 31)
    : tmFill t = {
        tmSec := (t.toNat % 60 : Nat)
        tmMin := (t.toNat / 60 % 60 : Nat)
        tmHour := (t.toNat / 3600 % 24 : Nat)
        tmMday := (civilFromDays (t.toNat / 86400 : Nat)).2.2
        tmMon := (civilFromDays (t.toNat / 86400 : Nat)).2.1 - 1
        tmYear := (civilFromDays (t.toNat / 86400 : Nat)).1 - 1900
        tmWday := ((t.toNat / 86400 + 4) % 7 : Nat)
        tmYday := 0
        tmIsdst := 0
      } := by
  unfold tmFill
  have hdays : (t.toNat : Int).tdiv 86400 = (t.toNat / 86400 : Nat) := by
    rw [Int.tdiv_eq_ediv_of_nonneg (by omega)]
    omega
  have hrem : (t.toNat : Int).tmod 86400 = (t.toNat % 86400 : Nat) := by
    rw [Int.tmod_eq_emod_of_nonneg (by omega)]
    omega
  rw [secs_eq ht]
  simp only [hdays, hrem]
  rw [if_neg (by omega)]
  generalize civilFromDays (t.toNat / 86400 : Nat) = date
  simp only [Tm.mk.injEq, and_true]
  rw [Int.tmod_eq_emod_of_nonneg (by omega), Int.tdiv_eq_ediv_of_nonneg (by omega),
    Int.tmod_eq_emod_of_nonneg (by omega), Int.tdiv_eq_ediv_of_nonneg (by omega),
    Int.tmod_eq_emod_of_nonneg (by omega)]
  refine ⟨?_, ?_, ?_, trivial, trivial, trivial, ?_⟩ <;> omega

theorem gmtime_mktime_eq (t : UInt32) (ht : t.toNat < 2 ^ 31)
    : ∃ tm, gmtime (some t) = some tm ∧ tm.Valid ∧ (mktime tm).1 = t
      ∧ (mktime tm).2.tmWday = tm.tmWday := by
  refine ⟨tmFill t, rfl, ?_⟩
  obtain ⟨hdate, hdays⟩ := civilFromDays_spec (t.toNat / 86400)
  rw [tmFill_eq ht]
  generalize civilFromDays (t.toNat / 86400 : Nat) = date at hdate hdays ⊢
  have hyear := hdate.year
  have hy : date.1 - 1900 + 1900 = date.1 := by omega
  refine ⟨⟨?_, ?_, ?_, ?_, ?_⟩, ?_⟩
  . show IsDate (date.1 - 1900 + 1900) _ _
    rw [hy]
    exact hdate
  . show (0 : Int) ≤ (t.toNat / 3600 % 24 : Nat) ∧ ((t.toNat / 3600 % 24 : Nat) : Int) ≤ 23
    omega
  . show (0 : Int) ≤ (t.toNat / 60 % 60 : Nat) ∧ ((t.toNat / 60 % 60 : Nat) : Int) ≤ 59
    omega
  . show (0 : Int) ≤ (t.toNat % 60 : Nat) ∧ ((t.toNat % 60 : Nat) : Int) ≤ 59
    omega
  . show (0 : Int) ≤ ((t.toNat / 86400 + 4) % 7 : Nat) ∧ (((t.toNat / 86400 + 4) % 7 : Nat) : Int) ≤ 6
    omega
  . unfold mktime
    simp only [hy]
    rw [if_neg (by omega), hdays]
    constructor
    . show UInt32.ofInt _ = t
      have hsum : ((t.toNat / 86400 : Nat) : Int) * 86400 + (t.toNat / 3600 % 24 : Nat) * 3600
          + (t.toNat / 60 % 60 : Nat) * 60 + (t.toNat % 60 : Nat) = (t.toNat : Int) := by
        omega
      have hmod : ((t.toNat : Int) % 2 ^ 32).toNat = t.toNat := by omega
      unfold UInt32.ofInt
      rw [hsum, hmod, UInt32.ofNat_toNat]
    . show (4 + ((t.toNat / 86400 : Nat) : Int)).tmod 7 = ((t.toNat / 86400 + 4) % 7 : Nat)
      rw [Int.tmod_eq_emod_of_nonneg (by omega)]
      omega

/--
`mktime` is the inverse of `gmtime`, and the day count in it the inverse of `civil_from_days` on all
the days that do not overflow there.
-/
theorem calendar_inverse
    : (∀ t : UInt32, t.toNat < 2 ^ 31 →
        ∃ tm, gmtime (some t) = some tm ∧ tm.Valid ∧ (mktime tm).1 = t
          ∧ (mktime tm).2.tmWday = tm.tmWday)
      ∧ (∀ z : Int, 0 ≤ z → z + 719468 < 2 ^ 31 → ∃ y m d, civilFromDays z = (y, m, d)
          ∧ IsDate y (m - 1) d ∧ mktime.days y (m - 1) d = z)
      ∧ ∀ y mon mday : Int, IsDate y mon mday → mktime.days y mon mday + 719468 < 2 ^ 31 →
          civilFromDays (mktime.days y mon mday) = (y, mon + 1, mday) := by
  refine ⟨gmtime_mktime_eq, ?_, ?_⟩
  . intro z hz _
    obtain ⟨n, rfl⟩ := Int.eq_ofNat_of_zero_le hz
    exact ⟨_, _, _, rfl, civilFromDays_spec n⟩
  . intro y mon mday h _
    exact civilFromDays_days h

theorem calendar_inverse_leap_day
    : ∃ tm, gmtime (some 951782400) = some tm ∧ tm.Valid ∧ (mktime tm).1 = 951782400
      ∧ (mktime tm).2.tmWday = tm.tmWday :=
  calendar_inverse.1 951782400 (by decide)

example : civilFromDays 11016 = (2000, 2, 29) := by decide

end Gmtime

end TanjaOS
