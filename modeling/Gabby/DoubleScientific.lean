import Gabby.DoubleText

/-! Integers of more than six digits. They are printed in scientific notation with six
significant digits, and the text is read as the integer rounded to these. -/
namespace Gabby

/-! ## Digits -/

theorem ofDigits_append_zeros (ds : Bytes) (z : ℕ) :
    ofDigits 10 (ds ++ List.replicate z (chr '0')) = ofDigits 10 ds * 10^z := by
  induction z with
  | zero => simp
  | succ z ih =>
    rw [List.replicate_succ',← List.append_assoc,ofDigits_snoc,ih,pow_succ,← Nat.mul_assoc]
    rfl

theorem ofDigits_zero_cons (ds : Bytes) : ofDigits 10 (chr '0' :: ds) = ofDigits 10 ds := rfl

theorem length_decimal_eq {n k : ℕ} : (decimal n).length = k+1 ↔
    (n < 10^(k+1) ∧ (k = 0 ∨ 10^k ≤ n)) := by
  have h₁ := length_decimal_le (n:=n) (k:=k+1) (by omega)
  rcases Nat.eq_zero_or_pos k with rfl | hk
  · have := List.length_pos_of_ne_nil (decimal_ne_nil n)
    omega
  · have h₂ := length_decimal_le (n:=n) hk
    omega

namespace Double

theorem stripZeros_spec (ds : Bytes) :
    ∃ z, ds = stripZeros ds ++ List.replicate z (chr '0') := by
  refine ⟨(ds.reverse.takeWhile (· == chr '0')).length,?_⟩
  have h := List.takeWhile_append_dropWhile (p:=(· == chr '0')) (l:=ds.reverse)
  have ht : ds.reverse.takeWhile (· == chr '0') =
      List.replicate (ds.reverse.takeWhile (· == chr '0')).length (chr '0') :=
    List.eq_replicate_iff.mpr ⟨rfl,fun b hb => by
      simpa using List.mem_takeWhile_imp hb⟩
  have := congrArg List.reverse h
  rw [List.reverse_append,List.reverse_reverse] at this
  rw [stripZeros]
  conv_lhs => rw [← this,ht,List.reverse_replicate]

/-! ## Rounding to six digits -/

theorem roundHalfEven_mul_right (n d : ℕ) {k : ℕ} (hk : 0 < k) :
    roundHalfEven (n*k) (d*k) = roundHalfEven n d := by
  have hmod : n*k % (d*k) = n % d * k := Nat.mul_mod_mul_right k n d
  have hdiv : n*k / (d*k) = n / d := Nat.mul_div_mul_right n d hk
  have h₁ : 2*(n % d * k) < d*k ↔ 2*(n % d) < d := by
    rw [← Nat.mul_assoc]
    exact Nat.mul_lt_mul_right hk
  have h₂ : d*k < 2*(n % d * k) ↔ d < 2*(n % d) := by
    rw [← Nat.mul_assoc]
    exact Nat.mul_lt_mul_right hk
  simp only [roundHalfEven,hmod,hdiv,h₁,h₂]

theorem roundHalfEven_bounds (n d : ℕ) :
    n / d ≤ roundHalfEven n d ∧ roundHalfEven n d ≤ n / d + 1 := by
  have := Nat.mod_lt (n / d) (y:=2) (by decide)
  unfold roundHalfEven
  split_ifs <;> omega

/-- A natural rounded to six significant digits, halves to the even neighbour. -/
def roundSix (n : ℕ) : ℕ :=
  roundHalfEven n (10^((decimal n).length-6)) * 10^((decimal n).length-6)

def HasSixDigits (n : ℕ) : Prop := ∃ d k, d < 10^6 ∧ n = d*10^k

theorem roundSix_div_lt (n : ℕ) : n / 10^((decimal n).length-6) < 10^6 := by
  have hpos := List.length_pos_of_ne_nil (decimal_ne_nil n)
  have hlt : n < 10^(decimal n).length := (length_decimal_le hpos).mp (le_refl _)
  rw [Nat.div_lt_iff_lt_mul (by positivity),← pow_add]
  exact hlt.trans_le (Nat.pow_le_pow_right (by decide) (by omega))

theorem roundSix_eq_iff (n : ℕ) : roundSix n = n ↔ HasSixDigits n := by
  have hdiv := roundSix_div_lt n
  have hle := (roundHalfEven_bounds n (10^((decimal n).length-6))).2
  constructor
  · intro h
    rw [roundSix] at h
    generalize roundHalfEven n (10^((decimal n).length-6)) = d at h hle
    generalize (decimal n).length-6 = j at h hdiv hle
    rcases Nat.lt_or_eq_of_le (show d ≤ 10^6 by omega) with hd | rfl
    · exact ⟨d,j,hd,h.symm⟩
    · exact ⟨1,6+j,by decide,by rw [← h,pow_add,Nat.one_mul]⟩
  · rintro ⟨d,k,hd,rfl⟩
    have hlen : (decimal (d*10^k)).length ≤ 6+k := by
      rw [length_decimal_le (by omega),pow_add]
      exact Nat.mul_lt_mul_of_pos_right hd (by positivity)
    have hj : (decimal (d*10^k)).length-6 ≤ k := by omega
    rw [roundSix]
    generalize (decimal (d*10^k)).length-6 = j at hj
    obtain ⟨i,rfl⟩ := Nat.exists_eq_add_of_le hj
    rw [pow_add,Nat.mul_comm (10^j),← Nat.mul_assoc,roundHalfEven_mul _ (by positivity)]

/-- The digits and the exponent that are printed, for an integer of more than six digits. -/
theorem sixDigits_large {m : Magnitude} {n : ℕ} (hm : m.num = n * m.den) (hn : 10^6 ≤ n)
    (hlt : n < 10^16) : ∃ d x : ℕ, sixDigits m.num m.den = (d,(x : ℤ)) ∧ 10^5 ≤ d ∧ d < 10^6 ∧
      6 ≤ x ∧ x ≤ 16 ∧ d * 10^(x-5) = roundSix n := by
  have hden := m.den_pos
  obtain ⟨j,hj⟩ : ∃ j, (decimal n).length = j+7 := by
    have : ¬ (decimal n).length ≤ 6 := by
      rw [length_decimal_le (by decide)]
      omega
    exact ⟨_,(Nat.sub_add_cancel (by omega : 7 ≤ (decimal n).length)).symm⟩
  have hj16 : j+7 ≤ 16 := hj ▸ (length_decimal_le (by decide)).mpr hlt
  have hlow : 10^(j+6) ≤ n := by
    have := length_decimal_eq.mp hj
    omega
  have hx : decimalExp m.num m.den = (j+6 : ℕ) := by
    have hle : m.den ≤ m.num := by
      rw [hm]
      exact Nat.le_mul_of_pos_left _ (by omega)
    rw [decimalExp,if_pos hle,hm,Nat.mul_div_cancel _ hden,hj]
    omega
  have hd : roundHalfEven (m.num * 10^(5-((j+6 : ℕ) : ℤ)).toNat)
      (m.den * 10^(((j+6 : ℕ) : ℤ)-5).toNat) = roundHalfEven n (10^(j+1)) := by
    rw [show (5-((j+6 : ℕ) : ℤ)).toNat = 0 by omega,
      show (((j+6 : ℕ) : ℤ)-5).toNat = j+1 by omega,pow_zero,Nat.mul_one,hm,Nat.mul_comm m.den,
      roundHalfEven_mul_right _ _ hden]
  have hround : roundSix n = roundHalfEven n (10^(j+1)) * 10^(j+1) := by
    rw [roundSix,hj]
    rfl
  have hdiv : n / 10^(j+1) < 10^6 := by
    have := roundSix_div_lt n
    rwa [hj] at this
  have hge : 10^5 ≤ n / 10^(j+1) := by
    rw [Nat.le_div_iff_mul_le (by positivity),← pow_add]
    exact (Nat.pow_le_pow_right (by decide) (by omega)).trans hlow
  obtain ⟨h₁,h₂⟩ := roundHalfEven_bounds n (10^(j+1))
  simp only [sixDigits,hx,hd]
  split
  · rename_i hc
    refine ⟨10^5,j+7,by push_cast; rfl,by decide,by decide,by omega,by omega,?_⟩
    rw [hround,hc,show j+7-5 = j+1+1 by omega,pow_succ]
    ring
  · refine ⟨_,j+6,rfl,by omega,by omega,by omega,by omega,?_⟩
    rw [hround,show j+6-5 = j+1 by omega]

end Double

/-! ## Scientific notation -/

namespace Numeral

def printedExponent (x : ℕ) : Exponent where
  upper := false
  sign := some false
  digits := if (decimal x).length < 2 then chr '0' :: decimal x else decimal x
  ne_nil := by
    split
    · exact List.cons_ne_nil _ _
    · exact decimal_ne_nil x
  isdigit_digits := by
    have := isdigit_decimal x
    split
    · rw [List.all_cons,this]
      decide
    · exact this

theorem text_printedExponent (x : ℕ) : (printedExponent x).text = Double.showExponent x := by
  have hx : ¬ (x : ℤ) < 0 := by omega
  simp [Exponent.text,Exponent.mark,Exponent.signText,printedExponent,Double.showExponent,hx]

theorem value_printedExponent (x : ℕ) : (printedExponent x).value = x := by
  have hd : ofDigits 10 (printedExponent x).digits = x := by
    simp only [printedExponent]
    split
    · rw [ofDigits_zero_cons,ofDigits_decimal]
    · exact ofDigits_decimal x
  rw [Exponent.value,hd]
  rfl

theorem length_printedExponent {x : ℕ} (hx : x < 100) : (printedExponent x).digits.length = 2 := by
  have h₁ : (decimal x).length ≤ 2 := (length_decimal_le (by decide)).mpr hx
  have h₂ := List.length_pos_of_ne_nil (decimal_ne_nil x)
  simp only [printedExponent]
  split
  · rw [List.length_cons]
    omega
  · omega

/-- A numeral in the notation of the printer: no capital mark, and not long. -/
structure IsPrinted (n : Numeral) : Prop where
  lower : ∀ e ∈ n.exponent, e.upper = false
  length_le : n.text.length ≤ 17

/-- Six digits and an exponent in scientific notation, without trailing zeros. -/
theorem exists_scientific (neg : Bool) {d x : ℕ} (hge : 10^5 ≤ d) (hlt : d < 10^6) (hx : 6 ≤ x)
    (hx' : x < 100) : ∃ n : Numeral, n.IsPrinted ∧ n.neg = neg ∧
      n.body = Double.withFraction ((decimal d).take 1) ((decimal d).drop 1) ++
        Double.showExponent x ∧ n.double = Double.ofFraction neg (d * 10^(x-5)) 1 := by
  have hlen : (decimal d).length = 6 := length_decimal_eq.mpr ⟨hlt,.inr hge⟩
  have hds := isdigit_decimal d
  have hval := ofDigits_decimal d
  cases hd : decimal d with
  | nil => simp [hd] at hlen
  | cons c f =>
    rw [hd] at hlen hds hval
    obtain ⟨z,hz⟩ := Double.stripZeros_spec f
    generalize hf : Double.stripZeros f = g at hz
    rw [List.all_cons,Bool.and_eq_true,hz,List.all_append,Bool.and_eq_true] at hds
    have hgz : g.length + z = 5 := by
      have : f.length = 5 := by simpa using hlen
      rwa [hz,List.length_append,List.length_replicate] at this
    refine ⟨⟨neg,[c],g,some (printedExponent x),by simp,by simpa using hds.1,hds.2.1⟩,
      ⟨?_,?_⟩,rfl,?_,?_⟩
    · rintro e ⟨⟩
      rfl
    · have he := length_printedExponent hx'
      have hfr : (if g.isEmpty then [] else chr '.' :: g : Bytes).length ≤ 6 := by
        split
        · simp
        · rw [List.length_cons]
          omega
      cases neg <;> simp [text,sign,body,fraction,exponentText,Exponent.text,Exponent.signText,
        he] at hfr ⊢ <;> simp [printedExponent] <;> omega
    · simp only [body,fraction,exponentText,Option.map_some,Option.getD_some,
        text_printedExponent,Double.withFraction,List.take_succ_cons,List.take_zero,
        List.drop_succ_cons,List.drop_zero,hf]
      split <;> simp
    · -- the zeros that are not printed make up for the shorter fraction
      have hd' : ofDigits 10 (c::g) * 10^(x - g.length) = d * 10^(x-5) := by
        rw [← hval,hz,← List.cons_append,ofDigits_append_zeros,Nat.mul_assoc,← pow_add]
        congr 2
        omega
      have hs : (x : ℤ) - g.length = ((x - g.length : ℕ) : ℤ) := by omega
      simp only [double,shift,Option.map_some,Option.getD_some,value_printedExponent,
        Double.ofParts,List.singleton_append,hs,Int.toNat_natCast,hd']
      congr 1
      rw [show (-((x - g.length : ℕ) : ℤ)).toNat = 0 by omega,pow_zero]

theorem isPrinted_integral (neg : Bool) {n : ℕ} (h : n < 10^16) :
    (integral neg (decimal n) (decimal_ne_nil n) (isdigit_decimal n)).IsPrinted := by
  refine ⟨by simp [integral],?_⟩
  have := (length_decimal_le (n:=n) (k:=16) (by decide)).mpr h
  rw [text_integral]
  cases neg <;> simp <;> omega

end Numeral

namespace Double

open Numeral

/-! ## Rereading -/

theorem roundSix_small {n : ℕ} (h : n < 10^6) : roundSix n = n :=
  (roundSix_eq_iff n).mpr ⟨n,0,h,by simp⟩

/-- Six digits and a power of ten fit into 53 bits and a power of two. -/
theorem exists_roundSix {n : ℕ} (h : n < 10^16) : ∃ m : Magnitude, m.value = roundSix n := by
  have hj : (decimal n).length - 6 ≤ 10 := by
    have := (length_decimal_le (n:=n) (k:=16) (by decide)).mpr h
    omega
  have hd := (roundHalfEven_bounds n (10^((decimal n).length-6))).2
  have hdiv := roundSix_div_lt n
  rw [roundSix]
  generalize roundHalfEven n (10^((decimal n).length-6)) = d at hd
  generalize (decimal n).length - 6 = j at hj hd hdiv
  have hbits : d * 5^j < 2^53 := by
    calc d * 5^j ≤ 10^6 * 5^10 :=
          Nat.mul_le_mul (by omega) (Nat.pow_le_pow_right (by decide) hj)
      _ < 2^53 := by decide
  obtain ⟨m,hm⟩ := Magnitude.exists_value hbits (e:=j) (by omega) (by omega)
  refine ⟨m,hm.trans ?_⟩
  push_cast
  rw [zpow_natCast,mul_assoc,← mul_pow]
  norm_num

/-- What is printed for an integer is a numeral that is read as the rounded integer. -/
theorem exists_print {n : ℕ} (h : n ≤ 2^53) (neg : Bool) : ∃ N : Numeral, N.IsPrinted ∧
    N.text = (ofInteger neg n).print ∧ N.double = some (ofInteger neg (roundSix n)) := by
  have hlt : n < 10^16 := h.trans_lt (by decide)
  obtain ⟨m,hm⟩ := Magnitude.exists_integer h
  obtain ⟨r,hr⟩ := exists_roundSix hlt
  have hread : ofFraction neg (roundSix n) 1 = some (ofInteger neg (roundSix n)) := by
    rw [ofInteger_exact hr,ofFraction_exact (by decide) (by simpa using hr)]
  have hnum : m.num = n * m.den := by
    have hd : (m.den:ℚ) ≠ 0 := by exact_mod_cast m.den_pos.ne'
    rw [m.value_eq_div,div_eq_iff hd] at hm
    exact_mod_cast hm
  rw [ofInteger_exact hm,← hread]
  rcases Nat.lt_or_ge n (10^6) with hs | hs
  · refine ⟨_,isPrinted_integral neg hlt,?_,?_⟩
    · rw [text_integral,print,showMagnitude_integer hnum hs]
      cases neg <;> rfl
    · rw [double_integral,ofDigits_decimal,roundSix_small hs]
  · obtain ⟨d,x,hd,hd₁,hd₂,hx₁,hx₂,hx⟩ := sixDigits_large hnum hs hlt
    obtain ⟨N,hN,hneg,hbody,hdouble⟩ := exists_scientific neg hd₁ hd₂ hx₁ (by omega)
    refine ⟨N,hN,?_,by rw [hdouble,hx]⟩
    have hmant : m.mant ≠ 0 := by
      intro hm₀
      have h₀ : m.num = 0 := by simp [Magnitude.num,hm₀]
      have := Nat.mul_pos (show 0 < n by omega) m.den_pos
      omega
    have hshow : showMagnitude m = N.body := by
      rw [showMagnitude,if_neg hmant,hbody]
      simp only [hd]
      rw [if_neg (by omega)]
    rw [print,hshow,text,sign,hneg]
    cases neg <;> rfl

/-- Integers that doubles hold exactly are equal as doubles when they are equal. -/
theorem eq_ofInteger {a b : ℕ} {m k : Magnitude} (hm : m.value = a) (hk : k.value = b)
    (neg : Bool) : (ofInteger neg a).eq (ofInteger neg b) = true ↔ a = b := by
  rw [ofInteger_exact hm,ofInteger_exact hk]
  simp only [eq,beq_self_eq_true,Bool.true_or,Bool.and_true,beq_iff_eq]
  constructor
  · rintro rfl
    exact_mod_cast hm.symm.trans hk
  · rintro rfl
    exact Magnitude.value_inj (hm.trans hk.symm)

end Double
end Gabby
