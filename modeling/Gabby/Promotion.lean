import Mathlib.Tactic.NormNum

/-! Shifts of operands that are narrower than `int`. The operand is promoted to the signed type
before the shift, and its sign is extended when the result goes into a wider accumulator. -/
namespace Gabby

variable {v w n k : ℕ}

/-- An unsigned operand promoted to a signed type of width `w`, shifted to the left there, and
converted to an unsigned type of width `n`. A shift by `w` or more is undefined, and `wide` is
what it gives. -/
def promotedShl (n : ℕ) (wide : BitVec w → ℕ → BitVec w) (b : BitVec v) (k : ℕ) : BitVec n :=
  (if k < w then b.setWidth w <<< k else wide (b.setWidth w) k).signExtend n

variable {wide : BitVec w → ℕ → BitVec w} {b : BitVec v}

theorem toNat_promoted_shift (hv : v ≤ w) (hfit : b.toNat * 2^k < 2^w) :
    (b.setWidth w <<< k).toNat = b.toNat * 2^k := by
  rw [BitVec.toNat_shiftLeft,BitVec.toNat_setWidth_of_le hv,Nat.shiftLeft_eq,
    Nat.mod_eq_of_lt hfit]

/-- A result below the sign bit keeps its value. -/
theorem toNat_promotedShl (hv : v ≤ w) (hn : w ≤ n) (hk : k < w)
    (hfit : b.toNat * 2^k < 2^(w-1)) : (promotedShl n wide b k).toNat = b.toNat * 2^k := by
  have hlt : 2^(w-1) ≤ 2^w := Nat.pow_le_pow_right (by norm_num) (Nat.sub_le w 1)
  have hval := toNat_promoted_shift hv (hfit.trans_le hlt)
  have hmsb : (b.setWidth w <<< k).msb = false := by
    rw [BitVec.msb_eq_decide,hval]
    exact decide_eq_false (not_le.mpr hfit)
  rw [promotedShl,if_pos hk,BitVec.signExtend_eq_setWidth_of_msb_false hmsb,
    BitVec.toNat_setWidth_of_le hn,hval]

/-- A result that reaches the sign bit gets ones above it. -/
theorem toNat_promotedShl_neg (hv : v ≤ w) (hn : w ≤ n) (hk : k < w)
    (hlow : 2^(w-1) ≤ b.toNat * 2^k) (hfit : b.toNat * 2^k < 2^w) :
    (promotedShl n wide b k).toNat = b.toNat * 2^k + (2^n - 2^w) := by
  have hval := toNat_promoted_shift hv hfit
  have hmsb : (b.setWidth w <<< k).msb = true := by
    rw [BitVec.msb_eq_decide,hval]
    exact decide_eq_true hlow
  rw [promotedShl,if_pos hk,BitVec.toNat_signExtend,BitVec.toNat_setWidth_of_le hn,hval,hmsb,
    if_pos rfl]

theorem toNat_or_of_lt {x y : BitVec n} (hx : x.toNat < 2^k) (hy : 2^k ∣ y.toNat) :
    (x ||| y).toNat = x.toNat + y.toNat := by
  obtain ⟨c,hc⟩ := hy
  rw [BitVec.toNat_or,hc,Nat.or_comm,← Nat.two_pow_add_eq_or_of_lt hx,Nat.add_comm]

theorem le_toNat_or (x y : BitVec n) : x.toNat ≤ (x ||| y).toNat := by
  rw [BitVec.toNat_or]
  exact Nat.left_le_or

end Gabby
