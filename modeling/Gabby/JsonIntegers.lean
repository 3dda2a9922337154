import Gabby.DoubleScientific
import Gabby.JsonRoundTrip

/-! Integers that are printed and read back. The printer keeps six significant digits; what
it drops is lost. -/
namespace Gabby.Json

/-- `Value::Number` of an integer. -/
def ofInt (n : ℤ) : Value := .number (.ofInteger (decide (n < 0)) n.natAbs)

/-- What is printed for an integer is parsed as the integer of its six digits. -/
theorem parse_ofInteger {n : ℕ} (h : n ≤ 2^53) (neg : Bool) :
    parseString (Value.toString (.number (.ofInteger neg n))) =
      .ok (.number (.ofInteger neg (Double.roundSix n))) := by
  obtain ⟨N,hN,htext,hdouble⟩ := Double.exists_print h neg
  have hreads : RereadsNumber (.ofInteger neg n) (.ofInteger neg (Double.roundSix n)) := by
    refine ⟨htext ▸ .numeral N fun e he hu => ?_,by rw [← htext,N.stod_text,hdouble]⟩
    simp [hN.lower e he] at hu
  have hlen : (Value.toString (.number (.ofInteger neg n))).length < 2^31 := by
    have := hN.length_le
    rw [Value.toString,Value.print,← htext]
    omega
  exact (parseString_eq_ok hlen).mpr (denotes_print (.number hreads))

theorem hasSixDigits_natAbs (n : ℤ) :
    Double.HasSixDigits n.natAbs ↔ ∃ (d : ℤ) (k : ℕ), d.natAbs < 10^6 ∧ n = d*10^k := by
  constructor
  · rintro ⟨d,k,hd,hn⟩
    rcases Int.natAbs_eq n with h | h
    · exact ⟨d,k,by simpa using hd,by rw [h,hn]; push_cast; rfl⟩
    · exact ⟨-d,k,by simpa using hd,by rw [h,hn]; push_cast; ring⟩
  · rintro ⟨d,k,hd,rfl⟩
    exact ⟨d.natAbs,k,hd,by rw [Int.natAbs_mul,Int.natAbs_pow]; rfl⟩

/-- An integer that a double holds survives printing when it has at most six significant
digits, and then only. -/
theorem parse_toString_ofInt_iff {n : ℤ} (h : n.natAbs ≤ 2^53) :
    (∃ v, parseString (ofInt n).toString = .ok v ∧ v.eq (ofInt n) = true) ↔
      ∃ (d : ℤ) (k : ℕ), d.natAbs < 10^6 ∧ n = d*10^k := by
  obtain ⟨m,hm⟩ := Magnitude.exists_integer h
  obtain ⟨r,hr⟩ := Double.exists_roundSix (h.trans_lt (by decide : 2^53 < 10^16))
  have heq := Double.eq_ofInteger hm hr (decide (n < 0))
  have hparse := parse_ofInteger h (decide (n < 0))
  rw [← hasSixDigits_natAbs,← Double.roundSix_eq_iff,eq_comm,← heq]
  constructor
  · rintro ⟨v,hv,hn⟩
    obtain rfl := Except.ok.inj (hparse.symm.trans hv)
    simpa [ofInt,Value.eq] using hn
  · intro hn
    exact ⟨_,hparse,by simpa [ofInt,Value.eq] using hn⟩

theorem parse_toString_ofInt_iff_million :
    (∃ v, parseString (ofInt 1000000).toString = .ok v ∧ v.eq (ofInt 1000000) = true) ↔
      ∃ (d : ℤ) (k : ℕ), d.natAbs < 10^6 ∧ 1000000 = d*10^k :=
  parse_toString_ofInt_iff (by decide)

/-- The time of creation in `StubResponse`. -/
theorem parse_toString_ofInt_created :
    ¬ ∃ v, parseString (ofInt 1111111111).toString = .ok v ∧ v.eq (ofInt 1111111111) = true := by
  rintro ⟨v,hv,hn⟩
  have hparse := parse_ofInteger (n:=1111111111) (by decide) false
  obtain rfl := Except.ok.inj (hparse.symm.trans hv)
  revert hn
  have : Double.roundSix 1111111111 = 1111110000 := by decide +kernel
  rw [this,ofInt,Value.eq]
  decide +kernel

end Gabby.Json
