import Mathlib.Data.Rat.Floor
import Mathlib.Tactic.NormNum
import SleepyPenguin.Foundation.Rounding
import SleepyPenguin.Runtime.Clock
import SleepyPenguin.Runtime.Value

-- A number of seconds as a `struct timespec`.
namespace SleepyPenguin

open Foundation

-- What Ruby code passes for a number of seconds. A finite Float is the
-- rational number it stands for.
inductive Num
  | integer (n : Int)
  | float (q : ℚ)
  | other
  deriving DecidableEq

namespace Timespec

-- The range of a time_t of `w` bits.
def InTimeT (w : Nat) (n : Int) : Prop := -2 ^ (w - 1) ≤ n ∧ n < 2 ^ (w - 1)

instance (w : Nat) (n : Int) : Decidable (InTimeT w n) := inferInstanceAs (Decidable (_ ∧ _))

-- modf(3): both parts have the sign of the number.
def modf (q : ℚ) : Int × ℚ :=
  let f := if 0 ≤ q then ⌊q⌋ else ⌈q⌉
  (f, q - f)

-- `(long)(d * 1e9 + 0.5)` of a `d` that is not negative.
def toNsec (d : ℚ) : Int := ⌊d * 1000000000 + 1 / 2⌋

-- The two branches on the sign of the fraction. Only the second one carries.
def split (f : Int) (d : ℚ) : Timespec :=
  if 0 ≤ d then ⟨f, toNsec d⟩
  else
    let nsec := toNsec (-d)
    if nsec > 0 then ⟨f - 1, nanoPerSec - nsec⟩ else ⟨f, nsec⟩

def value2timespec (w : Nat) : Num → Except Err Timespec
  | .integer num => if InTimeT w num then .ok ⟨num, 0⟩ else .error .rangeError
  | .float orig =>
      let (f, d) := modf orig
      let ts := split f d
      if InTimeT w ts.sec then .ok ts else .error .rangeError
  | .other => .error .typeError

-- The double nearest to a number that is neither too large nor too small for one.
def double (q : ℚ) : ℚ := roundBits 53 q

def timespec2num (ts : Timespec) : Num :=
  if ts.nsec = 0 then .integer ts.sec
  else .float (double (double ts.sec + double (double ts.nsec / 1000000000)))

def seconds (ts : Timespec) : ℚ := ts.sec + ts.nsec / 1000000000

theorem seconds_eq (ts : Timespec) : ts.seconds = ts.nanos / 1000000000 := by
  rw [seconds, nanos, nanoPerSec]
  push_cast
  ring

end Timespec

namespace Num

open Timespec

def value : Num → ℚ
  | .integer n => n
  | .float q => q
  | .other => 0

-- The nearest number of nanoseconds.
def nanos (x : Num) : Int := roundAway (x.value * 1000000000)

-- The timespec of that many nanoseconds whose `nsec` is less than a second.
def timespec (x : Num) : Timespec := ⟨x.nanos / nanoPerSec, x.nanos % nanoPerSec⟩

-- The seconds fit, rounded down and of the nearest nanoseconds.
def Fits (w : Nat) : Num → Prop
  | .integer n => InTimeT w n
  | .float q => InTimeT w ⌊q⌋ ∧ InTimeT w (Num.float q).timespec.sec
  | .other => False

-- Up from zero and at most half a nanosecond short of a whole second.
def NearWhole : Num → Prop
  | .float q => 0 ≤ q ∧ 1 - 1 / 2000000000 ≤ Int.fract q
  | _ => False

instance (w : Nat) : (x : Num) → Decidable (x.Fits w)
  | .integer n => inferInstanceAs (Decidable (InTimeT w n))
  | .float _ => inferInstanceAs (Decidable (_ ∧ _))
  | .other => inferInstanceAs (Decidable False)

instance : (x : Num) → Decidable x.NearWhole
  | .integer _ => inferInstanceAs (Decidable False)
  | .float _ => inferInstanceAs (Decidable (_ ∧ _))
  | .other => inferInstanceAs (Decidable False)

theorem timespec_normal (x : Num) : x.timespec.Normal := by
  simp only [timespec, Timespec.Normal, nanoPerSec]
  omega

theorem nanos_timespec (x : Num) : x.timespec.nanos = x.nanos := by
  simp only [timespec, Timespec.nanos, nanoPerSec]
  omega

theorem abs_nanos_sub (x : Num) : |(x.nanos : ℚ) / 1000000000 - x.value| ≤ 1 / 2000000000 := by
  have h := abs_sub_roundAway (x.value * 1000000000)
  rw [← nanos, abs_le] at h
  rw [abs_le]
  constructor <;> linarith [h.1, h.2]

end Num

namespace Timespec

-- One timespec has so many nanoseconds and is normal.
theorem eq_timespec_iff {ts : Timespec} {x : Num} (h : ts.nanos = x.nanos) :
    ts = x.timespec ↔ ts.Normal := by
  constructor
  · intro he
    rw [he]
    exact x.timespec_normal
  · intro ⟨h0, h1⟩
    have hn := x.nanos_timespec
    obtain ⟨hx0, hx1⟩ := x.timespec_normal
    cases ts with
    | mk sec nsec =>
        generalize hts : x.timespec = other at *
        cases other with
        | mk osec onsec =>
            simp only [nanos, nanoPerSec] at *
            rw [Timespec.mk.injEq]
            omega

theorem toNsec_eq (d : ℚ) : toNsec d = round (d * 1000000000) := (round_eq _).symm

theorem toNsec_nonneg {d : ℚ} (h : 0 ≤ d) : 0 ≤ toNsec d := by
  apply Int.floor_nonneg.mpr
  linarith

theorem toNsec_le {d : ℚ} (h : d < 1) : toNsec d ≤ nanoPerSec := by
  apply Int.le_of_lt_add_one
  apply Int.floor_lt.mpr
  simp only [nanoPerSec]
  push_cast
  linarith

-- The one fraction range that rounds to a whole second.
theorem toNsec_eq_iff {d : ℚ} (h : d < 1) : toNsec d = nanoPerSec ↔ 1 - 1 / 2000000000 ≤ d := by
  have hle := toNsec_le h
  have hfloor : nanoPerSec ≤ toNsec d ↔ ((nanoPerSec : Int) : ℚ) ≤ d * 1000000000 + 1 / 2 := Int.le_floor
  simp only [nanoPerSec] at *
  push_cast at hfloor
  constructor
  · intro he
    have := hfloor.mp he.ge
    linarith
  · intro hd
    exact le_antisymm hle (hfloor.mpr (by linarith))

theorem modf_of_nonneg {q : ℚ} (h : 0 ≤ q) : modf q = (⌊q⌋, Int.fract q) := by
  simp only [modf, if_pos h]
  rfl

theorem modf_of_neg {q : ℚ} (h : q < 0) : modf q = (⌈q⌉, q - ⌈q⌉) := by
  simp only [modf, if_neg (not_le.mpr h)]

-- What the two branches come to, up from zero and below it.
structure Splits (q : ℚ) (ts : Timespec) : Prop where
  nanos : ts.nanos = (Num.float q).nanos
  nonneg : 0 ≤ ts.nsec
  carried : ts.nsec < nanoPerSec ↔ ¬(Num.float q).NearWhole
  sec : ts.sec = ⌊q⌋ ∨ ts.Normal

theorem splits_of_nonneg {q : ℚ} (hq : 0 ≤ q) : Splits q (split ⌊q⌋ (Int.fract q)) := by
  have hd0 := Int.fract_nonneg q
  have hd1 := Int.fract_lt_one q
  have hsplit : split ⌊q⌋ (Int.fract q) = ⟨⌊q⌋, toNsec (Int.fract q)⟩ := if_pos hd0
  rw [hsplit]
  refine ⟨?_, toNsec_nonneg hd0, ?_, Or.inl rfl⟩
  · have hwhole : (0 : ℚ) ≤ ((⌊q⌋ * 1000000000 : Int) : ℚ) := by
      have := Int.floor_nonneg.mpr hq
      exact_mod_cast (by omega : (0 : Int) ≤ ⌊q⌋ * 1000000000)
    have hparts : q * 1000000000 = ((⌊q⌋ * 1000000000 : Int) : ℚ) + Int.fract q * 1000000000 := by
      have := Int.floor_add_fract q
      push_cast
      linarith
    simp only [Num.nanos, Num.value, Timespec.nanos, nanoPerSec]
    rw [hparts, roundAway_add_of_nonneg hwhole (by linarith), toNsec_eq]
  · have hle := toNsec_le hd1
    have heq := toNsec_eq_iff hd1
    show toNsec (Int.fract q) < nanoPerSec ↔ _
    constructor
    · intro hlt ⟨_, hnear⟩
      have := heq.mpr hnear
      omega
    · intro hno
      apply lt_of_le_of_ne hle
      intro he
      exact hno ⟨hq, heq.mp he⟩

theorem nanos_of_neg {q : ℚ} (hq : q < 0) :
    (Num.float q).nanos = ⌈q⌉ * nanoPerSec - toNsec (-(q - ⌈q⌉)) := by
  have hnonpos : ⌈q⌉ ≤ 0 := Int.ceil_le.mpr (by exact_mod_cast hq.le)
  have hwhole : ((⌈q⌉ * 1000000000 : Int) : ℚ) ≤ 0 := by
    exact_mod_cast (by omega : ⌈q⌉ * 1000000000 ≤ (0 : Int))
  simp only [Num.nanos, Num.value, nanoPerSec]
  by_cases hd : q - ⌈q⌉ = 0
  · have hint : q * 1000000000 = ((⌈q⌉ * 1000000000 : Int) : ℚ) := by
      push_cast
      linarith
    rw [hint, roundAway_intCast, hd, toNsec_eq]
    simp
  · have hneg : q - ⌈q⌉ < 0 := lt_of_le_of_ne (by linarith [Int.le_ceil q]) hd
    have hparts : q * 1000000000 =
        ((⌈q⌉ * 1000000000 : Int) : ℚ) - -(q - ⌈q⌉) * 1000000000 := by
      push_cast
      ring
    rw [hparts, roundAway_sub_of_nonpos hwhole (by linarith), toNsec_eq]

-- The complement carries, so that nothing below zero is denormal.
theorem splits_of_neg {q : ℚ} (hq : q < 0) : Splits q (split ⌈q⌉ (q - ⌈q⌉)) := by
  have hd0 : q - ⌈q⌉ ≤ 0 := by linarith [Int.le_ceil q]
  have hd1 : -(q - ⌈q⌉) < 1 := by linarith [Int.ceil_lt_add_one q]
  have hfar : ¬(Num.float q).NearWhole := fun h => absurd h.1 (not_le.mpr hq)
  have hnsec0 := toNsec_nonneg (neg_nonneg.mpr hd0)
  have hnsec1 := toNsec_le hd1
  have hnanos := nanos_of_neg hq
  suffices h : (split ⌈q⌉ (q - ⌈q⌉)).nanos = (Num.float q).nanos ∧ (split ⌈q⌉ (q - ⌈q⌉)).Normal from
    ⟨h.1, h.2.1, ⟨fun _ => hfar, fun _ => h.2.2⟩, Or.inr h.2⟩
  rw [hnanos]
  by_cases hd : 0 ≤ q - ⌈q⌉
  · have hzero : q - ⌈q⌉ = 0 := le_antisymm hd0 hd
    have hsplit : split ⌈q⌉ (q - ⌈q⌉) = ⟨⌈q⌉, toNsec (q - ⌈q⌉)⟩ := if_pos hd
    rw [hsplit, hzero, neg_zero, show toNsec 0 = 0 by simp [toNsec_eq]]
    simp [Timespec.nanos, Timespec.Normal, nanoPerSec]
  · have hsplit : split ⌈q⌉ (q - ⌈q⌉) =
        if toNsec (-(q - ⌈q⌉)) > 0 then ⟨⌈q⌉ - 1, nanoPerSec - toNsec (-(q - ⌈q⌉))⟩
        else ⟨⌈q⌉, toNsec (-(q - ⌈q⌉))⟩ := if_neg hd
    rw [hsplit]
    generalize toNsec (-(q - ⌈q⌉)) = nsec at *
    split <;> simp only [Timespec.nanos, Timespec.Normal, nanoPerSec] at * <;> omega

theorem splits_modf (q : ℚ) : Splits q (split (modf q).1 (modf q).2) := by
  by_cases hq : 0 ≤ q
  · rw [modf_of_nonneg hq]
    exact splits_of_nonneg hq
  · rw [modf_of_neg (not_le.mp hq)]
    exact splits_of_neg (not_le.mp hq)

-- What an accepted number becomes: the nearest nanoseconds, and a whole second
-- of them in the one range where nothing carries.
theorem value2timespec_ok {w : Nat} {x : Num} (hfits : x.Fits w) :
    ∃ ts, value2timespec w x = .ok ts ∧ ts.nanos = x.nanos ∧ (ts.Normal ↔ ¬x.NearWhole) := by
  cases x with
  | integer n =>
      refine ⟨⟨n, 0⟩, if_pos hfits, ?_, fun _ h => h,
        fun _ => ⟨Int.le_refl 0, (by decide : 0 < nanoPerSec)⟩⟩
      simp only [Num.nanos, Num.value, nanos, nanoPerSec]
      have hcast : (n : ℚ) * 1000000000 = ((n * 1000000000 : Int) : ℚ) := by push_cast; rfl
      rw [hcast, roundAway_intCast, add_zero]
  | float q =>
      obtain ⟨hfloor, hround⟩ := hfits
      have hs := splits_modf q
      generalize hts : split (modf q).1 (modf q).2 = ts at hs
      have hsec : InTimeT w ts.sec := by
        rcases hs.sec with hsec | hnormal
        · rwa [hsec]
        · rwa [(eq_timespec_iff hs.nanos).mpr hnormal]
      refine ⟨ts, ?_, hs.nanos, ?_⟩
      · simp only [value2timespec, hts, if_pos hsec]
      · exact ⟨fun h => hs.carried.mp h.2, fun h => ⟨hs.nonneg, hs.carried.mpr h⟩⟩
  | other => exact False.elim hfits

theorem value2timespec_normal {w : Nat} {x : Num} (hfits : x.Fits w) (hfar : ¬x.NearWhole) :
    value2timespec w x = .ok x.timespec := by
  obtain ⟨ts, hok, hnanos, hnormal⟩ := value2timespec_ok hfits
  rw [hok, (eq_timespec_iff hnanos).mpr (hnormal.mpr hfar)]

-- Every operation on doubles is off by at most so much of its result.
theorem double_near {q : ℚ} (h : 0 ≤ q) : |double q - q| ≤ q / 2 ^ 53 := by
  have hround := abs_roundBits_sub_le 53 q
  rwa [abs_of_nonneg h] at hround

theorem double_nonneg {q : ℚ} (h : 0 ≤ q) : 0 ≤ double q := by
  have hnear := abs_le.mp (double_near h)
  have hsmall : q / 2 ^ 53 ≤ q := div_le_self h (by norm_num)
  linarith [hnear.1]

-- Two conversions, a division and an addition.
theorem timespec2num_near {ts : Timespec} (hsec : 0 ≤ ts.sec) (hnsec : 0 ≤ ts.nsec) :
    |(timespec2num ts).value - ts.seconds| ≤ ts.seconds / 2 ^ 51 := by
  have hs : (0 : ℚ) ≤ ts.sec := by exact_mod_cast hsec
  have hn : (0 : ℚ) ≤ ts.nsec := by exact_mod_cast hnsec
  have hseconds : 0 ≤ ts.seconds := add_nonneg hs (div_nonneg hn (by norm_num))
  unfold timespec2num
  split
  · rename_i hzero
    have heq : ts.seconds = ts.sec := by simp [seconds, hzero]
    simp only [Num.value, heq, sub_self, abs_zero]
    exact div_nonneg hs (by norm_num)
  · have hfirst := abs_le.mp (double_near hs)
    have hconvert := abs_le.mp (double_near hn)
    have hdivide := abs_le.mp (double_near
      (div_nonneg (double_nonneg hn) (by norm_num : (0 : ℚ) ≤ 1000000000)))
    have hadd := abs_le.mp (double_near (add_nonneg (double_nonneg hs)
      (double_nonneg (div_nonneg (double_nonneg hn) (by norm_num : (0 : ℚ) ≤ 1000000000)))))
    simp only [Num.value, seconds, abs_le] at *
    constructor <;> linarith [hadd.1, hadd.2, hdivide.1, hdivide.2, hconvert.1, hconvert.2,
      hfirst.1, hfirst.2]

-- A second has more digits than a nanosecond by then.
example : timespec2num ⟨2 ^ 24, 1⟩ = .float (2 ^ 24) := by decide +kernel

-- Less than 2 ^ 20 seconds.
def Short (ts : Timespec) : Prop := ts.Normal ∧ 0 ≤ ts.sec ∧ ts.sec < 2 ^ 20

instance (ts : Timespec) : Decidable ts.Short := inferInstanceAs (Decidable (_ ∧ _ ∧ _))

theorem Short.inTimeT {w : Nat} {ts : Timespec} (h : ts.Short) (hw : 32 ≤ w) : InTimeT w ts.sec := by
  have hpow : (2 : Int) ^ 31 ≤ 2 ^ (w - 1) := pow_le_pow_right₀ (by norm_num) (by omega)
  obtain ⟨_, h0, h1⟩ := h
  constructor <;> omega

-- Of a short time the nanoseconds can be told from the number.
theorem nanos_timespec2num {ts : Timespec} (hshort : ts.Short) :
    (timespec2num ts).nanos = ts.nanos ∧ |(timespec2num ts).value - ts.seconds| < 1 / 2000000000 := by
  obtain ⟨⟨h0, h1⟩, hsec, hlimit⟩ := hshort
  have hbound : ts.seconds < 2 ^ 20 := by
    have hs : (ts.sec : ℚ) ≤ 2 ^ 20 - 1 := by exact_mod_cast (by omega : ts.sec ≤ 2 ^ 20 - 1)
    have hn : (ts.nsec : ℚ) < 1000000000 := by exact_mod_cast h1
    rw [seconds]
    linarith
  have hnear : |(timespec2num ts).value - ts.seconds| < 1 / 2000000000 := by
    apply lt_of_le_of_lt (timespec2num_near hsec h0)
    linarith
  refine ⟨roundAway_eq ?_, hnear⟩
  have hnanos : (ts.nanos : ℚ) = ts.seconds * 1000000000 := by
    rw [seconds_eq]
    ring
  rw [hnanos, ← sub_mul, abs_mul, abs_of_pos (by norm_num : (0 : ℚ) < 1000000000)]
  linarith

-- What the kernel answers comes back as the timespec it was.
theorem value2timespec_timespec2num {w : Nat} {ts : Timespec} (hshort : ts.Short)
    (hsec : InTimeT w ts.sec) :
    value2timespec w (timespec2num ts) = .ok ts := by
  obtain ⟨hnanos, hnear⟩ := nanos_timespec2num hshort
  obtain ⟨⟨hn0, hn1⟩, _, _⟩ := hshort
  by_cases hzero : ts.nsec = 0
  · have hts : (⟨ts.sec, 0⟩ : Timespec) = ts := by rw [← hzero]
    simp only [timespec2num, if_pos hzero, value2timespec, if_pos hsec, hts]
  · obtain ⟨q, hq⟩ : ∃ q, timespec2num ts = .float q := ⟨_, if_neg hzero⟩
    rw [hq] at hnanos hnear
    have heq := (eq_timespec_iff hnanos.symm).mpr ⟨hn0, hn1⟩
    have hlow : (1 : ℚ) ≤ ts.nsec := by exact_mod_cast (by omega : 1 ≤ ts.nsec)
    have hhigh : (ts.nsec : ℚ) ≤ 999999999 := by
      simp only [nanoPerSec] at hn1
      exact_mod_cast (by omega : ts.nsec ≤ 999999999)
    rw [Num.value, seconds, abs_lt] at hnear
    have hfloor : ⌊q⌋ = ts.sec := by
      rw [Int.floor_eq_iff]
      constructor <;> linarith [hnear.1, hnear.2]
    have hfar : ¬(Num.float q).NearWhole := by
      intro ⟨_, hwhole⟩
      rw [Int.fract, hfloor] at hwhole
      linarith [hnear.2]
    have hfits : (Num.float q).Fits w := by
      constructor
      · rwa [hfloor]
      · rwa [← heq]
    rw [hq, value2timespec_normal hfits hfar, ← heq]

end Timespec

end SleepyPenguin
