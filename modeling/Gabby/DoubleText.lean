import Gabby.DoubleExact
import Gabby.Numeral

/-! Integers of up to six digits are printed as their decimal digits, and the digits are read
back as the same double. -/
namespace Gabby.Double

/-! ## Printing -/

def IsInteger (d : Double) (n : ℕ) : Prop := ∃ neg m, d = finite neg m ∧ m.num = n * m.den

theorem stripZeros_replicate (k : ℕ) : stripZeros (List.replicate k (chr '0')) = [] := by
  simp [stripZeros]

theorem sixDigits_integer {m : Magnitude} {n : ℕ} (hm : m.num = n * m.den) (hn : 0 < n)
    (hlt : n < 10^6) : sixDigits m.num m.den =
      (n * 10^(6 - (decimal n).length),((decimal n).length : ℤ) - 1) := by
  have hden := m.den_pos
  have hlen : (decimal n).length ≤ 6 := (length_decimal_le (by decide)).mpr hlt
  have hpos : 0 < (decimal n).length := List.length_pos_of_ne_nil (decimal_ne_nil n)
  have hx : decimalExp m.num m.den = (decimal n).length - 1 := by
    have hle : m.den ≤ m.num := by
      rw [hm]
      exact Nat.le_mul_of_pos_left _ hn
    rw [decimalExp,if_pos hle,hm,Nat.mul_div_cancel _ hden]
  have hd : roundHalfEven (m.num * 10^(6 - (decimal n).length)) m.den =
      n * 10^(6 - (decimal n).length) := by
    rw [hm,Nat.mul_right_comm,roundHalfEven_mul _ hden]
  have hne : n * 10^(6 - (decimal n).length) < 10^6 := by
    have h₁ : n < 10^(decimal n).length := (length_decimal_le hpos).mp (le_refl _)
    calc n * 10^(6 - (decimal n).length)
        < 10^(decimal n).length * 10^(6 - (decimal n).length) :=
          Nat.mul_lt_mul_of_pos_right h₁ (by positivity)
      _ = 10^6 := by rw [← pow_add,Nat.add_sub_cancel' hlen]
  simp only [sixDigits,hx]
  rw [show (5 - (((decimal n).length : ℤ) - 1)).toNat = 6 - (decimal n).length by omega,
    show (((decimal n).length : ℤ) - 1 - 5).toNat = 0 by omega,pow_zero,Nat.mul_one,hd,
    if_neg hne.ne]

theorem showMagnitude_integer {m : Magnitude} {n : ℕ} (hm : m.num = n * m.den) (hlt : n < 10^6) :
    showMagnitude m = decimal n := by
  rcases Nat.eq_zero_or_pos n with rfl | hn
  · have : m.mant = 0 := by simpa [Magnitude.num] using hm
    rw [showMagnitude,if_pos this]
    rfl
  · have hmant : m.mant ≠ 0 := by
      intro h
      have h₀ : m.num = 0 := by simp [Magnitude.num,h]
      have := Nat.mul_pos hn m.den_pos
      omega
    have hlen : (decimal n).length ≤ 6 := (length_decimal_le (by decide)).mpr hlt
    have hpos : 0 < (decimal n).length := List.length_pos_of_ne_nil (decimal_ne_nil n)
    rw [showMagnitude,if_neg hmant]
    simp only [sixDigits_integer hm hn hlt]
    rw [if_pos (by omega),if_pos (by omega),
      show (((decimal n).length : ℤ) - 1).toNat + 1 = (decimal n).length by omega,
      decimal_mul_pow hn,List.take_left,List.drop_left,withFraction,stripZeros_replicate]
    rfl

/-! ## Reading -/

theorem value_of_integer {m : Magnitude} {n : ℕ} (hm : m.num = n * m.den) : m.value = n := by
  have hd : (m.den : ℚ) ≠ 0 := by exact_mod_cast m.den_pos.ne'
  rw [m.value_eq_div,hm,Nat.cast_mul,mul_div_cancel_right₀ _ hd]

theorem ofFraction_integer {m : Magnitude} {n : ℕ} (hm : m.num = n * m.den) (neg : Bool) :
    ofFraction neg n 1 = some (finite neg m) :=
  ofFraction_exact (by decide) (by simpa using value_of_integer hm) neg

theorem stod_digits {ds : Bytes} (hne : ds ≠ []) (hds : ds.all isdigit) (neg : Bool) :
    stod ((if neg then [chr '-'] else []) ++ ds) = ofFraction neg (ofDigits 10 ds) 1 := by
  rw [← Numeral.double_integral,← Numeral.stod_text,Numeral.text_integral]
  exacts [hne,hds]

theorem stod_decimal (neg : Bool) (n : ℕ) :
    stod (if neg then chr '-' :: decimal n else decimal n) = ofFraction neg n 1 := by
  have h := stod_digits (decimal_ne_nil n) (isdigit_decimal n) neg
  rw [ofDigits_decimal] at h
  rw [← h]
  cases neg <;> rfl

theorem stod_print_integer {d : Double} {n : ℕ} (h : d.IsInteger n) (hlt : n < 10^6) :
    stod d.print = some d := by
  obtain ⟨neg,m,rfl,hm⟩ := h
  rw [← ofFraction_integer hm,← stod_decimal,print,showMagnitude_integer hm hlt]

end Gabby.Double
