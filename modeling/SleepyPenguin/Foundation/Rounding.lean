import Mathlib.Algebra.Order.Round
import Mathlib.Data.Int.Log
import Mathlib.Tactic.FieldSimp
import Mathlib.Tactic.Linarith
import Mathlib.Tactic.Ring

-- Rounding to the nearest integer, a halfway number away from zero or to an even
-- one, and to so many binary digits.
namespace Foundation

section RoundAway

variable {α : Type*} [Field α] [LinearOrder α] [IsStrictOrderedRing α] [FloorRing α]

def roundAway (x : α) : Int := if 0 ≤ x then round x else -round (-x)

omit [IsStrictOrderedRing α] in
theorem roundAway_of_nonneg {x : α} (h : 0 ≤ x) : roundAway x = round x := if_pos h

omit [IsStrictOrderedRing α] in
theorem roundAway_of_neg {x : α} (h : x < 0) : roundAway x = -round (-x) := if_neg (not_le.mpr h)

theorem abs_sub_roundAway (x : α) : |x - roundAway x| ≤ 1 / 2 := by
  by_cases h : 0 ≤ x
  · rw [roundAway_of_nonneg h]
    exact abs_sub_round x
  · rw [roundAway_of_neg (not_le.mp h)]
    have hround := abs_sub_round (-x)
    rw [← abs_neg] at hround
    have heq : -(-x - (round (-x) : α)) = x - ((-round (-x) : Int) : α) := by
      push_cast
      ring
    rwa [heq] at hround

@[simp] theorem roundAway_intCast (n : Int) : roundAway (n : α) = n := by
  by_cases h : 0 ≤ (n : α)
  · rw [roundAway_of_nonneg h, round_intCast]
  · rw [roundAway_of_neg (not_le.mp h), ← Int.cast_neg, round_intCast, neg_neg]

-- A whole part of the same sign is rounded apart.
theorem roundAway_add_of_nonneg {n : Int} {x : α} (hn : 0 ≤ (n : α)) (hx : 0 ≤ x) :
    roundAway ((n : α) + x) = n + round x := by
  rw [roundAway_of_nonneg (add_nonneg hn hx), round_intCast_add]

theorem roundAway_sub_of_nonpos {n : Int} {x : α} (hn : (n : α) ≤ 0) (hx : 0 < x) :
    roundAway ((n : α) - x) = n - round x := by
  have hneg : (n : α) - x < 0 := by linarith
  have hflip : -((n : α) - x) = ((-n : Int) : α) + x := by
    push_cast
    ring
  rw [roundAway_of_neg hneg, hflip, round_intCast_add]
  ring

-- An integer that is nearer than a half.
theorem roundAway_eq {n : Int} {x : α} (h : |x - n| < 1 / 2) : roundAway x = n := by
  have hround := abs_sub_roundAway x
  rw [abs_le] at hround
  rw [abs_lt] at h
  have hlow : (n : α) - 1 < roundAway x := by linarith [h.1, hround.2]
  have hhigh : (roundAway x : α) < n + 1 := by linarith [h.2, hround.1]
  have hlow' : n - 1 < roundAway x := by exact_mod_cast hlow
  have hhigh' : roundAway x < n + 1 := by exact_mod_cast hhigh
  omega

end RoundAway

section RoundBits

variable {α : Type*} [Field α] [LinearOrder α] [IsStrictOrderedRing α] [FloorRing α]

def roundEven (x : α) : Int :=
  if Int.fract x < 1 / 2 then ⌊x⌋
  else if 1 / 2 < Int.fract x then ⌊x⌋ + 1
  else if ⌊x⌋ % 2 = 0 then ⌊x⌋ else ⌊x⌋ + 1

theorem abs_sub_roundEven (x : α) : |x - roundEven x| ≤ 1 / 2 := by
  have hsplit := Int.floor_add_fract x
  have hlow := Int.fract_nonneg x
  have hhigh := Int.fract_lt_one x
  have hdown : Int.fract x ≤ 1 / 2 → |x - ⌊x⌋| ≤ 1 / 2 := by
    intro h
    rw [abs_le]
    constructor <;> linarith
  have hup : 1 / 2 ≤ Int.fract x → |x - ((⌊x⌋ + 1 : Int) : α)| ≤ 1 / 2 := by
    intro h
    push_cast
    rw [abs_le]
    constructor <;> linarith
  unfold roundEven
  split
  · rename_i h
    exact hdown h.le
  split
  · rename_i h
    exact hup h.le
  split
  · rename_i h _
    exact hdown (not_lt.mp h)
  · rename_i h _ _
    exact hup (not_lt.mp h)

-- The weight of the last of `p` binary digits.
def lastPlace (p : Nat) (x : α) : α := (2 : α) ^ (Int.log 2 |x| + 1 - p)

def roundBits (p : Nat) (x : α) : α := roundEven (x / lastPlace p x) * lastPlace p x

theorem lastPlace_pos (p : Nat) (x : α) : 0 < lastPlace p x := zpow_pos (by norm_num) _

theorem lastPlace_le (p : Nat) {x : α} (hx : x ≠ 0) : lastPlace p x / 2 ≤ |x| / 2 ^ p := by
  have htwo : (2 : α) ≠ 0 := by norm_num
  have hlog : ((2 : Nat) : α) ^ Int.log 2 |x| ≤ |x| := Int.zpow_log_le_self (by norm_num) (abs_pos.mpr hx)
  have hplace : lastPlace p x / 2 = (2 : α) ^ Int.log 2 |x| / 2 ^ p := by
    rw [lastPlace, zpow_sub₀ htwo, zpow_add_one₀ htwo, zpow_natCast]
    ring
  rw [hplace]
  gcongr
  exact_mod_cast hlog

-- Half a unit in the last place.
theorem abs_roundBits_sub_le (p : Nat) (x : α) : |roundBits p x - x| ≤ |x| / 2 ^ p := by
  by_cases hx : x = 0
  · subst hx
    simp [roundBits, roundEven]
  · have hpos := lastPlace_pos p x
    have hround := abs_sub_roundEven (x / lastPlace p x)
    have hscale : roundBits p x - x =
        (roundEven (x / lastPlace p x) - x / lastPlace p x) * lastPlace p x := by
      rw [roundBits, sub_mul, div_mul_cancel₀ _ hpos.ne']
    calc |roundBits p x - x|
        = |x / lastPlace p x - roundEven (x / lastPlace p x)| * lastPlace p x := by
          rw [hscale, abs_mul, abs_of_pos hpos, abs_sub_comm]
      _ ≤ 1 / 2 * lastPlace p x := by gcongr
      _ = lastPlace p x / 2 := by ring
      _ ≤ |x| / 2 ^ p := lastPlace_le p hx

end RoundBits

end Foundation
