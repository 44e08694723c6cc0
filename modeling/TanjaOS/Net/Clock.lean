import TanjaOS.Lib.Mem
import TanjaOS.Libc.Calendar

/-!
The clock that certificates are checked by: the date in the registers of the CMOS clock as a Unix time.
-/

open Lib

namespace TanjaOS

def daysFromCivil (y : Int) (m d : Nat) : Int :=
  let y := if m ≤ 2 then y - 1 else y
  let era := (if 0 ≤ y then y else y - 399).tdiv 400
  -- from here on the source counts in `unsigned`, nothing below goes under zero
  let yoe := (y - era * 400).toNat
  let doy := (153 * (if 2 < m then m - 3 else m + 9) + 2) / 5 + d - 1
  let doe := yoe * 365 + yoe / 4 - yoe / 100 + doy
  era * 146097 + doe - 719468

/--
What `rtc_unix` keeps of the clock, bytes as it reads them and then numbers.
-/
structure RtcTime where
  sec : Nat
  min : Nat
  hour : Nat
  day : Nat
  mon : Nat
  year : Nat

/--
`while (cmos(0x0A) & 0x80) ;`, over the bytes that the port gives in turn.
-/
def rtcWait (reads : List Byte) : Option (List Byte) :=
  match reads with
  | [] => none
  | a :: reads => if a &&& 0x80 ≠ 0 then rtcWait reads else some reads

/--
The last of `tries` readings, and those before it unless one of them is not met by an update.
-/
def rtcRead (tries : Nat) (reads : List Byte) : Option (RtcTime × List Byte) :=
  match tries with
  | 0 => none
  | tries + 1 =>
    match rtcWait reads with
    | some (sec :: min :: hour :: day :: mon :: year :: status :: reads) =>
      if status &&& 0x80 = 0 ∨ tries = 0 then
        some (⟨sec.toNat, min.toNat, hour.toNat, day.toNat, mon.toNat, year.toNat⟩, reads)
      else
        rtcRead tries reads
    | _ => none

def bcdValue (x : Nat) : Nat :=
  (x &&& 15) + (x >>> 4) * 10

def bcdHour (x : Nat) : Nat :=
  ((x &&& 0x0F) + ((x &&& 0x70) >>> 4) * 10) ||| (x &&& 0x80)

def rtcBcd (t : RtcTime) : RtcTime where
  sec := bcdValue t.sec
  min := bcdValue t.min
  hour := bcdHour t.hour
  day := bcdValue t.day
  mon := bcdValue t.mon
  year := bcdValue t.year

def rtcHour (hour : Nat) : Nat :=
  if hour &&& 0x80 ≠ 0 then ((hour &&& 0x7F) + 12) % 24 else hour

def rtcSeconds (b : Byte) (t : RtcTime) : UInt32 :=
  let t := if b &&& 4 = 0 then rtcBcd t else t
  let hour := if b &&& 2 = 0 then rtcHour t.hour else t.hour
  let year := t.year + 2000
  if t.mon < 1 ∨ 12 < t.mon ∨ t.day < 1 ∨ 31 < t.day ∨ 23 < hour ∨ 59 < t.min ∨ 59 < t.sec then
    0
  else if year < 2024 ∨ 2099 < year then
    0
  else
    .ofInt (daysFromCivil year t.mon t.day) * 86400 + .ofNat hour * 3600 + .ofNat t.min * 60
      + .ofNat t.sec

/--
The Unix time by the bytes that the port gives in turn, nothing while the clock is still waited for.
-/
def rtcUnix (reads : List Byte) : Option UInt32 :=
  match rtcRead 5 reads with
  | some (t, b :: _) => some (rtcSeconds b t)
  | _ => none

section Days

theorem daysFromCivil_march {y : Int} {m d Y : Nat} (hY : (if m ≤ 2 then y - 1 else y) = Y)
    : daysFromCivil y m d
      = yearStart Y + ((153 * (if 2 < m then m - 3 else m + 9) + 2) / 5 + d - 1 : Nat) - 719468 := by
  have hera : (if 0 ≤ (Y : Int) then (Y : Int) else Y - 399).tdiv 400 = (Y / 400 : Nat) := by
    rw [if_pos (by omega), Int.tdiv_eq_ediv_of_nonneg (by omega)]
    rfl
  have hyoe : ((Y : Int) - (Y / 400 : Nat) * 400).toNat = Y % 400 := by omega
  have hsplit := yearStart_era (Y / 400) (Y % 400)
  rw [Nat.div_add_mod] at hsplit
  have hyear : yearStart (Y % 400) = Y % 400 * 365 + Y % 400 / 4 - Y % 400 / 100 := by
    unfold yearStart
    omega
  unfold daysFromCivil
  simp only [hY, hera, hyoe]
  rw [hsplit, hyear]
  omega

theorem daysFromCivil_eq {Y n d : Nat} (h : IsDate Y n d)
    : daysFromCivil Y (n + 1) d = mktime.days Y n d := by
  have hmon := h.month
  have hday := h.day
  have hyear := h.year
  rw [days_eq (by omega) (by omega)]
  by_cases hn : n < 2
  . have hstart := @monthStart_march (n + 10) (by omega)
    rw [if_neg (by omega), if_neg (by omega), Nat.add_sub_cancel] at hstart
    rw [@daysFromCivil_march Y (n + 1) d (Y - 1) (by rw [if_pos (by omega)]; omega), if_neg (by omega),
      hstart, if_neg (by omega)]
    omega
  . have hstart := @monthStart_march (n - 2) (by omega)
    rw [if_pos (by omega), if_pos (by omega), Nat.sub_add_cancel (by omega)] at hstart
    have hsucc := yearStart_succ (Y - 1)
    rw [Nat.sub_add_cancel (by omega)] at hsucc
    rw [@daysFromCivil_march Y (n + 1) d Y (by rw [if_neg (by omega)]), if_pos (by omega), hstart, hsucc]
    by_cases hleap : isLeap Y
    . rw [if_pos hleap, if_pos ⟨by omega, hleap⟩]
      omega
    . rw [if_neg hleap, if_neg (by rintro ⟨-, hl⟩; exact hleap hl)]
      omega

end Days

structure Moment where
  year : Nat
  mon : Nat
  day : Nat
  hour : Nat
  min : Nat
  sec : Nat

structure Moment.Valid (t : Moment) : Prop where
  date : IsDate t.year (t.mon - 1) t.day
  year : 2024 ≤ t.year ∧ t.year ≤ 2099
  hour : t.hour ≤ 23
  min : t.min ≤ 59
  sec : t.sec ≤ 59

def Moment.unix (t : Moment) : Int :=
  mktime.days t.year (t.mon - 1) t.day * 86400 + t.hour * 3600 + t.min * 60 + t.sec

def bcdRegister (v : Nat) : Nat :=
  v / 10 * 16 + v % 10

/--
The register of the clock for a number, its format is in the register B.
-/
def rtcRegister (b : Byte) (v : Nat) : Byte :=
  .ofNat (if b &&& 4 = 0 then bcdRegister v else v)

/--
A clock of twelve hours counts them from 1 to 12, midnight and noon are both at 12.
-/
def hourRegister (b : Byte) (h : Nat) : Byte :=
  if b &&& 2 = 0 then
    rtcRegister b ((h + 11) % 12 + 1) ||| (if h < 12 then 0 else 0x80)
  else
    rtcRegister b h

/--
The bytes of one reading: the status register while there is an update and after it, the registers, the
status register again.
-/
structure RtcReading where
  busy : List Byte
  idle : Byte
  sec : Byte
  min : Byte
  hour : Byte
  day : Byte
  mon : Byte
  year : Byte
  status : Byte

namespace RtcReading

def reads (r : RtcReading) : List Byte :=
  r.busy ++ r.idle :: r.sec :: r.min :: r.hour :: r.day :: r.mon :: r.year :: [r.status]

def time (r : RtcReading) : RtcTime :=
  ⟨r.sec.toNat, r.min.toNat, r.hour.toNat, r.day.toNat, r.mon.toNat, r.year.toNat⟩

structure Waits (r : RtcReading) : Prop where
  busy : ∀ x ∈ r.busy, x &&& 0x80 ≠ 0
  idle : r.idle &&& 0x80 = 0

def Torn (r : RtcReading) : Prop :=
  r.status &&& 0x80 ≠ 0

structure Shows (b : Byte) (t : Moment) (r : RtcReading) : Prop where
  sec : r.sec = rtcRegister b t.sec
  min : r.min = rtcRegister b t.min
  hour : r.hour = hourRegister b t.hour
  day : r.day = rtcRegister b t.day
  mon : r.mon = rtcRegister b t.mon
  year : r.year = rtcRegister b (t.year - 2000)

end RtcReading

section Reading

variable {r : RtcReading} {rest : List Byte}

theorem rtcWait_reads (h : r.Waits)
    : rtcWait (r.reads ++ rest)
      = some (r.sec :: r.min :: r.hour :: r.day :: r.mon :: r.year :: r.status :: rest) := by
  have hwait : ∀ (busy : List Byte), (∀ x ∈ busy, x &&& 0x80 ≠ 0) → ∀ tail,
      rtcWait (busy ++ r.idle :: tail) = some tail := by
    intro busy hbusy tail
    induction busy with
    | nil =>
      rw [List.nil_append, rtcWait, if_neg (not_not_intro h.idle)]
    | cons x busy ih =>
      rw [List.cons_append, rtcWait, if_pos (hbusy x List.mem_cons_self)]
      exact ih (fun y hy => hbusy y (List.mem_cons_of_mem x hy))
  unfold RtcReading.reads
  rw [List.append_assoc]
  exact hwait r.busy h.busy _

theorem rtcRead_last {torn : List RtcReading} {n : Nat} (htorn : ∀ r ∈ torn, r.Waits ∧ r.Torn)
    (hwaits : r.Waits) (hlast : r.Torn → n = 0)
    : rtcRead (torn.length + n + 1) (torn.flatMap RtcReading.reads ++ (r.reads ++ rest))
      = some (r.time, rest) := by
  induction torn with
  | nil =>
    rw [List.length_nil, Nat.zero_add, List.flatMap_nil, List.nil_append, rtcRead, rtcWait_reads hwaits]
    dsimp only
    rw [if_pos]
    . rfl
    . by_cases hr : r.status &&& 0x80 = 0
      . exact .inl hr
      . exact .inr (hlast hr)
  | cons first torn ih =>
    obtain ⟨hfirst, hmid⟩ := htorn first List.mem_cons_self
    rw [List.flatMap_cons, List.append_assoc, List.length_cons,
      show torn.length + 1 + n + 1 = torn.length + n + 1 + 1 by omega, rtcRead, rtcWait_reads hfirst]
    dsimp only
    rw [if_neg]
    . exact ih (fun r hr => htorn r (List.mem_cons_of_mem first hr))
    . rintro (hidle | hzero)
      . exact hmid hidle
      . omega

end Reading

section Registers

theorem bcdValue_register : ∀ v < 100, bcdValue (UInt8.ofNat (bcdRegister v)).toNat = v := by
  decide

theorem toNat_register : ∀ v < 100, (UInt8.ofNat v).toNat = v := by
  decide

theorem rtcRegister_value (b : Byte) {v : Nat} (h : v < 100)
    : (if b &&& 4 = 0 then bcdValue (rtcRegister b v).toNat else (rtcRegister b v).toNat) = v := by
  unfold rtcRegister
  split
  . exact bcdValue_register v h
  . exact toNat_register v h

/--
What `rtc_unix` makes of the hour.
-/
def hourValue (b : Byte) (x : Nat) : Nat :=
  let x := if b &&& 4 = 0 then bcdHour x else x
  if b &&& 2 = 0 then rtcHour x else x

theorem hourValue_register (b : Byte) {h : Nat} (hh : h < 24)
    : hourValue b (hourRegister b h).toNat = if b &&& 2 = 0 ∧ h % 12 = 0 then (h + 12) % 24 else h := by
  unfold hourValue hourRegister rtcRegister
  by_cases hbcd : b &&& 4 = 0
  . by_cases hampm : b &&& 2 = 0
    . simp only [if_pos hbcd, hampm, true_and, if_true]
      revert h
      decide
    . simp only [if_pos hbcd, hampm, false_and, if_false]
      revert h
      decide
  . by_cases hampm : b &&& 2 = 0
    . simp only [if_neg hbcd, hampm, true_and, if_true]
      revert h
      decide
    . simp only [if_neg hbcd, hampm, false_and, if_false]
      revert h
      decide

end Registers

theorem mdays_le (y m : Int) : mdays y m ≤ 31 := by
  have hentry : ∀ n : Nat, [31, 28, 31, 30, 31, 30, 31, 31, 30, 31, 30, 31].getD n 0 ≤ (31 : Int) := by
    intro n
    by_cases hn : n < 12
    . revert n
      decide
    . rw [List.getD_eq_default _ _ (by simpa using hn)]
      decide
  unfold mdays
  split
  . decide
  . split
    . decide
    . exact hentry _

theorem unixSum {d h m s : Nat} (hd : d < 47482) (hh : h ≤ 23) (hm : m ≤ 59) (hs : s ≤ 59)
    : (UInt32.ofInt d * 86400 + UInt32.ofNat h * 3600 + UInt32.ofNat m * 60 + UInt32.ofNat s).toNat
      = d * 86400 + h * 3600 + m * 60 + s := by
  have hday : (UInt32.ofInt d).toNat = d := by
    unfold UInt32.ofInt
    rw [UInt32.toNat_ofNat']
    omega
  simp only [UInt32.toNat_add, UInt32.toNat_mul, hday, UInt32.toNat_ofNat', UInt32.reduceToNat]
  omega

theorem Moment.Valid.days_bounds {t : Moment} (h : t.Valid)
    : 0 ≤ mktime.days t.year (t.mon - 1) t.day ∧ mktime.days t.year (t.mon - 1) t.day < 47482 := by
  obtain ⟨n, hn⟩ := Int.eq_ofNat_of_zero_le h.date.month.1
  have hdate := h.date
  rw [hn] at hdate
  have hbounds := hdate.bounds
  have hlow : yearStart 1969 ≤ yearStart (t.year - 1) := yearStart_mono (by have := h.year; omega)
  have hhigh : yearStart t.year ≤ yearStart 2099 := yearStart_mono h.year.2
  have hlowEq : yearStart 1969 = 719162 := rfl
  have hhighEq : yearStart 2099 = 766644 := rfl
  rw [hn]
  omega

theorem rtcSeconds_shows {b : Byte} {t : Moment} {r : RtcReading} (h : t.Valid) (hr : r.Shows b t)
    : ((rtcSeconds b r.time).toNat : Int)
      = mktime.days t.year (t.mon - 1) t.day * 86400
        + (if b &&& 2 = 0 ∧ t.hour % 12 = 0 then (t.hour + 12) % 24 else t.hour : Nat) * 3600
        + t.min * 60 + t.sec := by
  have hyear := h.year
  have hhour := h.hour
  have hmin := h.min
  have hsec := h.sec
  have hmon := h.date.month
  have hday := h.date.day
  have hdays := h.days_bounds
  have hlast := mdays_le t.year (t.mon - 1)
  have hhourEq := hourValue_register b (show t.hour < 24 by omega)
  rw [← hr.hour] at hhourEq
  unfold hourValue at hhourEq
  have hsecEq := rtcRegister_value b (show t.sec < 100 by omega)
  rw [← hr.sec] at hsecEq
  have hminEq := rtcRegister_value b (show t.min < 100 by omega)
  rw [← hr.min] at hminEq
  have hdayEq := rtcRegister_value b (show t.day < 100 by omega)
  rw [← hr.day] at hdayEq
  have hmonEq := rtcRegister_value b (show t.mon < 100 by omega)
  rw [← hr.mon] at hmonEq
  have hyearEq := rtcRegister_value b (show t.year - 2000 < 100 by omega)
  rw [← hr.year] at hyearEq
  have htime : (if b &&& 4 = 0 then rtcBcd r.time else r.time)
      = ⟨t.sec, t.min, if b &&& 4 = 0 then bcdHour r.hour.toNat else r.hour.toNat, t.day, t.mon,
        t.year - 2000⟩ := by
    rw [← hsecEq, ← hminEq, ← hdayEq, ← hmonEq, ← hyearEq]
    split <;> rfl
  obtain ⟨n, hn⟩ := Int.eq_ofNat_of_zero_le hmon.1
  have hcivil : daysFromCivil t.year t.mon t.day = mktime.days t.year (t.mon - 1) t.day := by
    rw [hn, show t.mon = n + 1 by omega]
    apply daysFromCivil_eq
    rw [← hn]
    exact h.date
  obtain ⟨d, hd⟩ := Int.eq_ofNat_of_zero_le hdays.1
  generalize hval : (if b &&& 2 = 0 ∧ t.hour % 12 = 0 then (t.hour + 12) % 24 else t.hour) = hour at hhourEq ⊢
  have hhour : hour ≤ 23 := by
    rw [← hval]
    split <;> omega
  unfold rtcSeconds
  simp only [htime, hhourEq]
  rw [if_neg (by omega), if_neg (by omega), Nat.sub_add_cancel (by omega), hcivil, hd, unixSum]
  . push_cast
    rfl
  . omega
  . exact hhour
  . exact hmin
  . exact hsec

/--
The two calendars count alike and are inverse to each other on all the dates whose days fit. Here they
count without a bound, and `hfits` says that the sums in the `int` of the code do not overflow.
-/
theorem civil_days_agree (y mon mday : Int) (h : IsDate y mon mday)
    (hfits : mktime.days y mon mday + 719468 < 2 ^ 31)
    : daysFromCivil y (mon + 1).toNat mday.toNat = mktime.days y mon mday
      ∧ civilFromDays (daysFromCivil y (mon + 1).toNat mday.toNat) = (y, mon + 1, mday) := by
  have hyear := h.year
  have hmon := h.month
  have hday := h.day
  obtain ⟨Y, rfl⟩ := Int.eq_ofNat_of_zero_le (show 0 ≤ y by omega)
  obtain ⟨n, rfl⟩ := Int.eq_ofNat_of_zero_le hmon.1
  obtain ⟨d, rfl⟩ := Int.eq_ofNat_of_zero_le (show 0 ≤ mday by omega)
  have heq := daysFromCivil_eq h
  constructor
  . exact heq
  . exact (congrArg civilFromDays heq).trans (civilFromDays_days h)

theorem civil_days_agree_leap_day
    : daysFromCivil 2024 2 29 = mktime.days 2024 1 29
      ∧ civilFromDays (daysFromCivil 2024 2 29) = (2024, 2, 29) :=
  civil_days_agree 2024 1 29 ⟨by decide, by decide, by decide⟩ (by decide)

/--
Whatever readings were torn before, the last one gives its own time. A clock of twelve hours has midnight
and noon changed over, and the date is right even then.
-/
theorem rtcUnix_reads {b : Byte} {t : Moment} {torn : List RtcReading} {last : RtcReading} (rest : List Byte)
    (ht : t.Valid) (htorn : ∀ r ∈ torn, r.Waits ∧ r.Torn) (hcount : torn.length ≤ 4)
    (hwaits : last.Waits) (hlast : last.Torn → torn.length = 4) (hshows : last.Shows b t)
    : ∃ u, rtcUnix (torn.flatMap RtcReading.reads ++ (last.reads ++ b :: rest)) = some u
      ∧ (u.toNat : Int) = t.unix
        + (if b &&& 2 = 0 ∧ t.hour = 0 then 43200 else if b &&& 2 = 0 ∧ t.hour = 12 then -43200 else 0)
      ∧ civilFromDays (u.toNat / 86400 : Nat) = ((t.year : Int), (t.mon : Int), (t.day : Int)) := by
  have hread := @rtcRead_last last (b :: rest) torn (4 - torn.length) htorn hwaits
    (fun h => by rw [hlast h])
  rw [show torn.length + (4 - torn.length) + 1 = 5 by omega] at hread
  have hvalue := rtcSeconds_shows ht hshows
  have hhour := ht.hour
  have hmin := ht.min
  have hsec := ht.sec
  have hdays := ht.days_bounds
  refine ⟨rtcSeconds b last.time, ?_, ?_, ?_⟩
  . unfold rtcUnix
    rw [hread]
  . rw [hvalue]
    unfold Moment.unix
    by_cases hampm : b &&& 2 = 0
    . simp only [hampm, true_and]
      split <;> split <;> omega
    . simp only [hampm, false_and, if_false]
      omega
  . have hdate := civilFromDays_days ht.date
    rw [show (t.mon : Int) - 1 + 1 = t.mon by omega] at hdate
    rw [← hdate]
    congr 1
    split at hvalue <;> omega

section Example

def leapDay : Moment :=
  ⟨2024, 2, 29, 15, 30, 0⟩

/--
A reading in BCD from a clock of twelve hours, an update is waited for once.
-/
def leapDayReading : RtcReading where
  busy := [0x80]
  idle := 0x26
  sec := 0
  min := 0x30
  hour := 0x83
  day := 0x29
  mon := 2
  year := 0x24
  status := 0x26

end Example

theorem rtcUnix_reads_leap_day
    : ∃ u, rtcUnix (leapDayReading.reads ++ [0]) = some u ∧ (u.toNat : Int) = leapDay.unix := by
  have hdate : IsDate 2024 1 29 := ⟨by decide, by decide, by decide⟩
  have hyear : 2024 ≤ 2024 ∧ 2024 ≤ 2099 := by decide
  have hvalid : leapDay.Valid := ⟨hdate, hyear, by decide, by decide, by decide⟩
  have hwaits : leapDayReading.Waits := by
    constructor
    . intro x hx
      obtain rfl := List.mem_singleton.mp hx
      decide
    . decide
  have hshows : leapDayReading.Shows 0 leapDay :=
    ⟨by decide, by decide, by decide, by decide, by decide, by decide⟩
  obtain ⟨u, hu, hunix, _⟩ := @rtcUnix_reads 0 leapDay [] leapDayReading [] hvalid
    (fun r hr => by cases hr) (by decide) hwaits (fun h => absurd h (by unfold RtcReading.Torn; decide)) hshows
  rw [if_neg (by decide), if_neg (by decide), Int.add_zero] at hunix
  exact ⟨u, hu, hunix⟩

end TanjaOS
