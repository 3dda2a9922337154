import Gabby.Bytes
import Mathlib.Data.List.TakeWhile
import Mathlib.Data.Nat.Digits.Defs
import Mathlib.Tactic.Positivity

/-! Numerals: reading digits, printing naturals, and the integers that `std::stoi` accepts. -/
namespace Gabby

def splitSign : Bytes → Bool × Bytes
  | c::s => if c = chr '-' then (true,s) else if c = chr '+' then (false,s) else (false,c::s)
  | [] => (false,[])

def digitVal (b : UInt8) : ℕ := if isdigit b then b.toNat - 48 else (tolower b).toNat - 87

def ofDigits (base : ℕ) (ds : Bytes) : ℕ := ds.foldl (fun n d => n*base + digitVal d) 0

def decimal (n : ℕ) : Bytes := (Nat.toDigits 10 n).map chr

/-- `std::stoi`; none stands for the exception thrown when the text does not begin with a
numeral or its value is not an `int`. -/
def stoi (text : Bytes) : Option ℤ :=
  let p := splitSign (text.dropWhile isspace)
  let ds := p.2.takeWhile isdigit
  let n : ℤ := if p.1 then -(ofDigits 10 ds : ℤ) else ofDigits 10 ds
  if ds.isEmpty then none
  else if -2147483648 ≤ n ∧ n ≤ 2147483647 then some n
  else none

theorem stoi_range {text : Bytes} {n : ℤ} (h : stoi text = some n) :
    -2147483648 ≤ n ∧ n ≤ 2147483647 := by
  unfold stoi at h
  extract_lets p ds m at h
  by_cases hds : ds.isEmpty
  · simp [hds] at h
  · by_cases hm : -2147483648 ≤ m ∧ m ≤ 2147483647
    · rw [if_neg hds,if_pos hm] at h
      exact Option.some.inj h ▸ hm
    · rw [if_neg hds,if_neg hm] at h
      cases h

theorem isdigit_chr {c : Char} (h : c.isDigit = true) :
    isdigit (chr c) = true ∧ digitVal (chr c) = c.toNat - '0'.toNat := by
  have h' : 48 ≤ c.toNat ∧ c.toNat ≤ 57 := Char.isDigit_iff_toNat.mp h
  have hn : (chr c).toNat = c.toNat := by
    rw [chr,Nat.toUInt8,UInt8.toNat_ofNat']
    omega
  have hd : isdigit (chr c) = true := by
    rw [isdigit,Bool.and_eq_true,decide_eq_true_iff,decide_eq_true_iff,UInt8.le_iff_toNat_le,
      UInt8.le_iff_toNat_le,hn]
    exact h'
  exact ⟨hd,by rw [digitVal,if_pos hd,hn]; rfl⟩

theorem isdigit_decimal (n : ℕ) : (decimal n).all isdigit := by
  rw [List.all_eq_true]
  intro b hb
  obtain ⟨c,hc,rfl⟩ := List.mem_map.mp hb
  exact (isdigit_chr (Nat.isDigit_of_mem_toDigits (by decide) (by decide) hc)).1

theorem decimal_ne_nil (n : ℕ) : decimal n ≠ [] := by
  simp [decimal]

theorem ofDigits_decimal (n : ℕ) : ofDigits 10 (decimal n) = n := by
  have key : ∀ (cs : List Char) (a : ℕ), (∀ c ∈ cs, c.isDigit = true) →
      (cs.map chr).foldl (fun n d => n*10 + digitVal d) a = Nat.ofDigitChars 10 cs a := by
    intro cs
    induction cs with
    | nil => simp
    | cons c cs ih =>
      intro a h
      rw [List.map_cons,List.foldl_cons,Nat.ofDigitChars_cons,ih _ fun d hd => h d (by simp [hd]),
        (isdigit_chr (h c (by simp))).2,Nat.mul_comm]
  rw [ofDigits,decimal,key _ 0 fun c hc => Nat.isDigit_of_mem_toDigits (by decide) (by decide) hc,
    Nat.ofDigitChars_ten_toDigits]

theorem digitVal_lt {b : UInt8} : isdigit b = true → digitVal b < 10 :=
  forall_byte (p := fun b => isdigit b = true → digitVal b < 10) (by decide +kernel) b

theorem ofDigits_snoc (base : ℕ) (ds : Bytes) (d : UInt8) :
    ofDigits base (ds ++ [d]) = ofDigits base ds * base + digitVal d := by
  simp [ofDigits]

theorem ofDigits_lt {ds : Bytes} (h : ds.all isdigit) : ofDigits 10 ds < 10^ds.length := by
  induction ds using List.reverseRecOn with
  | nil => simp [ofDigits]
  | append_singleton ds d ih =>
    simp only [List.all_append,List.all_cons,List.all_nil,Bool.and_true,Bool.and_eq_true] at h
    have h₁ := ih h.1
    have h₂ := digitVal_lt h.2
    rw [ofDigits_snoc,List.length_append,List.length_singleton,pow_succ]
    omega

theorem decimal_mul_pow {n : ℕ} (hn : 0 < n) (k : ℕ) :
    decimal (n * 10^k) = decimal n ++ List.replicate k (chr '0') := by
  induction k with
  | zero => simp
  | succ k ih =>
    have h := Nat.toDigits_append_toDigits (b:=10) (n:=n*10^k) (d:=0) (by decide)
      (by positivity) (by decide)
    rw [Nat.add_zero] at h
    rw [List.replicate_succ',← List.append_assoc,← ih,pow_succ,← Nat.mul_assoc,Nat.mul_comm _ 10]
    simp only [decimal]
    rw [← h,List.map_append]
    rfl

theorem length_decimal_le {n k : ℕ} (hk : 0 < k) : (decimal n).length ≤ k ↔ n < 10^k := by
  rw [decimal,List.length_map,Nat.length_toDigits_le_iff (by decide) hk]

theorem digit_ne {c : UInt8} :
    isdigit c = true → isspace c = false ∧ c ≠ chr '-' ∧ c ≠ chr '+' :=
  forall_byte (p := fun c => isdigit c = true → isspace c = false ∧ c ≠ chr '-' ∧ c ≠ chr '+')
    (by decide +kernel) c

theorem splitSign_decimal (n : ℕ) :
    splitSign ((decimal n).dropWhile isspace) = (false,decimal n) := by
  cases hd : decimal n with
  | nil => exact absurd hd (decimal_ne_nil n)
  | cons c ds =>
    have hc : isdigit c = true := by
      have := isdigit_decimal n
      rw [hd,List.all_cons,Bool.and_eq_true] at this
      exact this.1
    obtain ⟨h₁,h₂,h₃⟩ := digit_ne hc
    rw [List.dropWhile_cons_of_neg (by simp [h₁]),splitSign,if_neg h₂,if_neg h₃]

theorem stoi_decimal {n : ℕ} (h : n < 2147483648) : stoi (decimal n) = some (n : ℤ) := by
  have htake : (decimal n).takeWhile isdigit = decimal n :=
    List.takeWhile_eq_self_iff.mpr (List.all_eq_true.mp (isdigit_decimal n))
  simp only [stoi,splitSign_decimal,htake,ofDigits_decimal]
  rw [if_neg (by simpa using decimal_ne_nil n)]
  simp only [Bool.false_eq_true,if_false]
  rw [if_pos (by omega)]

end Gabby
