import Gabby.Double
import Mathlib.Algebra.Order.Field.Power
import Mathlib.Data.Rat.Cast.Order
import Mathlib.Tactic.FieldSimp

/-! The rationals that magnitudes stand for. A magnitude is determined by its value, and a
fraction that is the value of a magnitude is converted without rounding. -/
namespace Gabby

theorem zpow_eq_div (e : ℤ) : (2:ℚ)^e = 2^e.toNat / 2^(-e).toNat := by
  rcases Int.le_total 0 e with he | he
  · obtain ⟨k,rfl⟩ := Int.eq_ofNat_of_zero_le he
    simp
  · obtain ⟨k,hk⟩ := Int.eq_ofNat_of_zero_le (Int.neg_nonneg.mpr he)
    obtain rfl : e = -(k : ℤ) := by omega
    simp

/-- A comparison of fractions in units of a power of two, without division. -/
theorem cross_lt (num : ℕ) {den : ℕ} (hden : 0 < den) (e : ℤ) (k : ℕ) :
    num * 2^(-e).toNat < den * 2^e.toNat * k ↔ (num/den : ℚ) < 2^e * k := by
  have hd : (0:ℚ) < den := by exact_mod_cast hden
  rw [zpow_eq_div,div_lt_iff₀ hd,div_mul_eq_mul_div,div_mul_eq_mul_div,
    lt_div_iff₀ (by positivity)]
  rw [← Nat.cast_lt (α:=ℚ)]
  push_cast
  rw [show (den:ℚ) * 2^e.toNat * k = 2^e.toNat * k * den by ring]

namespace Magnitude

def value (m : Magnitude) : ℚ := m.mant * 2^m.exp

theorem value_eq_div (m : Magnitude) : m.value = m.num / m.den := by
  rw [value,zpow_eq_div,num,den]
  push_cast
  ring

theorem value_pos {m : Magnitude} (h : m.mant ≠ 0) : 0 < m.value := by
  have : (0:ℚ) < m.mant := by exact_mod_cast Nat.pos_of_ne_zero h
  exact mul_pos this (by positivity)

theorem value_lt (m : Magnitude) : m.value < 2^(m.exp+53) := by
  have : (m.mant : ℚ) < 2^53 := by exact_mod_cast m.mant_lt
  rw [value,zpow_add₀ (by norm_num),mul_comm]
  exact mul_lt_mul_of_pos_left this (by positivity)

theorem le_value {m : Magnitude} (h : 2^52 ≤ m.mant) : 2^(m.exp+52) ≤ m.value := by
  have : (2:ℚ)^52 ≤ m.mant := by exact_mod_cast h
  rw [value,zpow_add₀ (by norm_num),mul_comm]
  exact mul_le_mul_of_nonneg_right this (by positivity)

/-- The binade of the value fixes the exponent, unless the least exponent was reached. -/
theorem exp_eq {m : Magnitude} {e : ℤ} (h₁ : 2^(e+52) ≤ m.value) (h₂ : m.value < 2^(e+53)) :
    max e (-1074) = m.exp := by
  have hlt : e+52 < m.exp+53 :=
    (zpow_lt_zpow_iff_right₀ (by norm_num)).mp (h₁.trans_lt m.value_lt)
  have hge := m.exp_ge
  rcases m.normal with h | h
  · have : m.exp+52 < e+53 :=
      (zpow_lt_zpow_iff_right₀ (by norm_num)).mp ((le_value h).trans_lt h₂)
    omega
  · omega

theorem value_eq_zero {m : Magnitude} : m.value = 0 ↔ m = zero := by
  constructor
  · intro h
    have hm : m.mant = 0 := by
      by_contra hm
      exact (value_pos hm).ne' h
    rcases m with ⟨mant,exp,hmant,hge,hle,hnorm⟩
    obtain rfl : mant = 0 := hm
    obtain rfl : exp = -1074 := hnorm.resolve_left (by omega)
    rfl
  · rintro rfl
    simp [value,zero]

end Magnitude

namespace Double

theorem normalExp_spec {num den : ℕ} (hn : 0 < num) (hd : 0 < den) :
    2^(normalExp num den + 52) ≤ (num/den : ℚ) ∧ (num/den : ℚ) < 2^(normalExp num den + 53) := by
  have hd' : (0:ℚ) < den := by exact_mod_cast hd
  have pow : ∀ k : ℕ, (2:ℚ)^(k:ℤ) = 2^k := fun k => zpow_natCast 2 k
  have hnum : (2:ℚ)^num.log2 ≤ num ∧ (num:ℚ) < 2^(num.log2+1) :=
    ⟨by exact_mod_cast Nat.log2_self_le hn.ne',by exact_mod_cast Nat.lt_log2_self⟩
  have hden : (2:ℚ)^den.log2 ≤ den ∧ (den:ℚ) < 2^(den.log2+1) :=
    ⟨by exact_mod_cast Nat.log2_self_le hd.ne',by exact_mod_cast Nat.lt_log2_self⟩
  -- the logarithms fix the binade up to one
  have hlow : (2:ℚ)^((num.log2:ℤ) - den.log2 - 1) ≤ num/den := by
    rw [le_div_iff₀ hd']
    calc (2:ℚ)^((num.log2:ℤ) - den.log2 - 1) * den
        ≤ 2^((num.log2:ℤ) - den.log2 - 1) * 2^(den.log2+1) :=
          mul_le_mul_of_nonneg_left hden.2.le (by positivity)
      _ = 2^num.log2 := by
          rw [← pow,← pow,← zpow_add₀ (by norm_num)]
          congr 1
          push_cast
          ring
      _ ≤ num := hnum.1
  have hhigh : (num/den : ℚ) < 2^((num.log2:ℤ) - den.log2 + 1) := by
    rw [div_lt_iff₀ hd']
    calc (num:ℚ) < 2^(num.log2+1) := hnum.2
      _ = 2^((num.log2:ℤ) - den.log2 + 1) * 2^den.log2 := by
          rw [← pow,← pow,← zpow_add₀ (by norm_num)]
          congr 1
          push_cast
          ring
      _ ≤ 2^((num.log2:ℤ) - den.log2 + 1) * den :=
          mul_le_mul_of_nonneg_left hden.1 (by positivity)
  have hcross := cross_lt num hd ((num.log2:ℤ) - den.log2 - 52) (2^52)
  have hpow : (2:ℚ)^((num.log2:ℤ) - den.log2 - 52) * ((2^52 : ℕ) : ℚ) =
      2^((num.log2:ℤ) - den.log2) := by
    rw [show ((2^52 : ℕ) : ℚ) = 2^(52:ℤ) by norm_num,← zpow_add₀ (by norm_num)]
    congr 1
    ring
  rw [hpow] at hcross
  simp only [normalExp]
  generalize (num.log2:ℤ) - den.log2 = x at hlow hhigh hcross ⊢
  split
  · rename_i h
    rw [show x - 52 - 1 + 52 = x - 1 by ring,show x - 52 - 1 + 53 = x by ring]
    exact ⟨hlow,hcross.mp h⟩
  · rename_i h
    rw [show x - 52 + 52 = x by ring,show x - 52 + 53 = x + 1 by ring]
    exact ⟨not_lt.mp fun h' => h (hcross.mpr h'),hhigh⟩

/-- A fraction that a magnitude stands for is not rounded. -/
theorem round_exact {m : Magnitude} {num den : ℕ} (hd : 0 < den) (h : m.value = num/den) :
    round num den = some m := by
  rcases Nat.eq_zero_or_pos num with rfl | hn
  · have : m.value = 0 := by simpa using h
    rw [Magnitude.value_eq_zero.mp this]
    rfl
  · obtain ⟨h₁,h₂⟩ := normalExp_spec hn hd
    rw [← h] at h₁ h₂
    have he := Magnitude.exp_eq h₁ h₂
    have hat : mantissaAt num den m.exp = m.mant := by
      have hd' : (den:ℚ) ≠ 0 := by exact_mod_cast hd.ne'
      have : num * 2^(-m.exp).toNat = m.mant * (den * 2^m.exp.toNat) := by
        have hq := h
        rw [Magnitude.value,zpow_eq_div] at hq
        field_simp at hq
        rw [← Nat.cast_inj (R:=ℚ)]
        push_cast
        linarith
      rw [mantissaAt,this,roundHalfEven_mul _ (by positivity)]
    rw [round,if_neg hn.ne']
    simp only [he,hat]
    rw [if_neg m.mant_lt.ne,Magnitude.mk?,
      dif_pos ⟨m.mant_lt,m.exp_ge,m.exp_le,m.normal⟩]

theorem ofFraction_exact {m : Magnitude} {num den : ℕ} (hd : 0 < den) (h : m.value = num/den)
    (neg : Bool) : ofFraction neg num den = some (finite neg m) := by
  have hr := round_exact hd h
  have hu : underflows num den = false := by
    have hc : m.num * den = num * m.den := by
      have hd' : (den:ℚ) ≠ 0 := by exact_mod_cast hd.ne'
      have hm' : (m.den:ℚ) ≠ 0 := by exact_mod_cast m.den_pos.ne'
      rw [Magnitude.value_eq_div,div_eq_div_iff hm' hd'] at h
      exact_mod_cast h
    simp only [underflows,hr,hc]
    simp
  rw [ofFraction,hu,hr]
  rfl

end Double

namespace Magnitude

theorem value_inj {m n : Magnitude} (h : m.value = n.value) : m = n := by
  have hm := Double.round_exact m.den_pos m.value_eq_div
  have hn := Double.round_exact m.den_pos (m.value_eq_div ▸ h.symm)
  rw [hm] at hn
  exact Option.some.inj hn

theorem exists_value {a : ℕ} (ha : a < 2^53) {e : ℤ} (hge : -1022 ≤ e) (hle : e ≤ 971) :
    ∃ m : Magnitude, m.value = a * 2^e := by
  rcases Nat.eq_zero_or_pos a with rfl | hpos
  · exact ⟨zero,by simp [value,zero]⟩
  · have hlog : a.log2 < 53 := (Nat.log2_lt hpos.ne').mpr ha
    have hsplit : a.log2 + (52 - a.log2) = 52 := by omega
    -- the bits are shifted up to the leading place
    have hlow : 2^52 ≤ a * 2^(52 - a.log2) := by
      calc 2^52 = 2^a.log2 * 2^(52 - a.log2) := by rw [← pow_add,hsplit]
        _ ≤ a * 2^(52 - a.log2) := Nat.mul_le_mul_right _ (Nat.log2_self_le hpos.ne')
    have hhigh : a * 2^(52 - a.log2) < 2^53 := by
      calc a * 2^(52 - a.log2) < 2^(a.log2+1) * 2^(52 - a.log2) :=
            Nat.mul_lt_mul_of_pos_right Nat.lt_log2_self (by positivity)
        _ = 2^53 := by rw [← pow_add]; congr 1; omega
    refine ⟨⟨a * 2^(52 - a.log2),e - (52 - a.log2 : ℕ),hhigh,by omega,by omega,.inl hlow⟩,?_⟩
    simp only [value]
    push_cast
    rw [mul_assoc,← zpow_natCast,← zpow_add₀ (by norm_num)]
    congr 2
    omega

theorem exists_integer {n : ℕ} (h : n ≤ 2^53) : ∃ m : Magnitude, m.value = n := by
  rcases Nat.lt_or_eq_of_le h with h | rfl
  · simpa using exists_value h (e:=0) (by decide) (by decide)
  · obtain ⟨m,hm⟩ := exists_value (a:=2^52) (by decide) (e:=1) (by decide) (by decide)
    exact ⟨m,hm.trans (by norm_num)⟩

end Magnitude

namespace Double

variable {m : Magnitude} {n : ℕ}

theorem ofInteger_exact (h : m.value = n) (neg : Bool) : ofInteger neg n = finite neg m := by
  rw [ofInteger,round_exact (m:=m) (by decide) (by simpa using h)]
  rfl

theorem ofFraction_ofInteger (h : n ≤ 2^53) (neg : Bool) :
    ofFraction neg n 1 = some (ofInteger neg n) := by
  obtain ⟨m,hm⟩ := Magnitude.exists_integer h
  rw [ofInteger_exact hm,ofFraction_exact (by decide) (by simpa using hm)]

end Double
end Gabby
