import Mathlib.Algebra.GroupWithZero.Nat
import Mathlib.Data.List.Basic

namespace Foundation

-- Numbers as bytes, the least significant first.
def toLe : Nat → Nat → List Nat
  | 0, _ => []
  | width + 1, n => n % 256 :: toLe width (n / 256)

def ofLe : List Nat → Nat
  | [] => 0
  | byte :: rest => byte + 256 * ofLe rest

@[simp] theorem length_toLe (width n : Nat) : (toLe width n).length = width := by
  induction width generalizing n with
  | zero => rfl
  | succ width ih => simp only [toLe, List.length_cons, ih]

theorem ofLe_toLe {width n : Nat} (h : n < 256 ^ width) : ofLe (toLe width n) = n := by
  induction width generalizing n with
  | zero =>
      have hzero : n = 0 := by simpa using h
      rw [hzero]
      rfl
  | succ width ih =>
      have hdiv : n / 256 < 256 ^ width := by
        rw [Nat.pow_succ] at h
        exact Nat.div_lt_of_lt_mul (by omega)
      simp only [toLe, ofLe, ih hdiv]
      omega

-- Two's complement on 32 bits.
def ofInt32 (n : Int) : Nat := (n % 0x100000000).toNat

def toInt32 (n : Nat) : Int := if n < 0x80000000 then n else (n : Int) - 0x100000000

theorem toInt32_ofInt32 {n : Int} (h : -0x80000000 ≤ n ∧ n < 0x80000000) : toInt32 (ofInt32 n) = n := by
  unfold toInt32 ofInt32
  split <;> omega

theorem ofInt32_lt (n : Int) : ofInt32 n < 0x100000000 := by
  unfold ofInt32
  omega

end Foundation
