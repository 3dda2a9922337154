import Gabby.Double

/-! Decimal notation: an optional minus sign, digits, a fraction and an exponent. `std::stod`
reads all of such a text. -/
namespace Gabby

section Runs

variable {p : UInt8 → Bool} {u r : Bytes}

theorem takeWhile_run (hu : u.all p) (hr : r.head?.any p = false) :
    (u ++ r).takeWhile p = u := by
  rw [List.takeWhile_append_of_pos (List.all_eq_true.mp hu)]
  cases r with
  | nil => simp
  | cons c r => simp [show p c = false by simpa using hr]

theorem dropWhile_run (hu : u.all p) (hr : r.head?.any p = false) :
    (u ++ r).dropWhile p = r := by
  rw [List.dropWhile_append_of_pos (List.all_eq_true.mp hu)]
  cases r with
  | nil => rfl
  | cons c r => simp [show p c = false by simpa using hr]

end Runs

/-- The exponent of a numeral; `sign` says whether a sign is written and whether it is `-`. -/
structure Exponent where
  upper : Bool
  sign : Option Bool
  digits : Bytes
  ne_nil : digits ≠ []
  isdigit_digits : digits.all isdigit

namespace Exponent

def mark (e : Exponent) : UInt8 := if e.upper then chr 'E' else chr 'e'

def signText (e : Exponent) : Bytes := match e.sign with
  | none => []
  | some neg => [if neg then chr '-' else chr '+']

def text (e : Exponent) : Bytes := e.mark :: (e.signText ++ e.digits)

def value (e : Exponent) : ℤ :=
  if e.sign = some true then -(ofDigits 10 e.digits : ℤ) else ofDigits 10 e.digits

theorem tolower_mark (e : Exponent) : tolower e.mark = chr 'e' := by
  unfold mark
  cases e.upper <;> decide

theorem splitSign_text (e : Exponent) :
    splitSign (e.signText ++ e.digits) = (e.sign == some true,e.digits) := by
  rcases e with ⟨upper,sign,digits,hne,hd⟩
  cases sign with
  | some neg => cases neg <;> rfl
  | none =>
    cases digits with
    | nil => exact absurd rfl hne
    | cons c ds =>
      simp only [List.all_cons,Bool.and_eq_true] at hd
      obtain ⟨-,h₁,h₂⟩ := digit_ne hd.1
      simp [signText,splitSign,h₁,h₂]

end Exponent

/-- A number in decimal notation; the point is written when there is a fraction. -/
structure Numeral where
  neg : Bool
  int : Bytes
  frac : Bytes
  exponent : Option Exponent
  ne_nil : int ≠ []
  isdigit_int : int.all isdigit
  isdigit_frac : frac.all isdigit

namespace Numeral

def sign (n : Numeral) : Bytes := if n.neg then [chr '-'] else []

def fraction (n : Numeral) : Bytes := if n.frac.isEmpty then [] else chr '.' :: n.frac

def exponentText (n : Numeral) : Bytes := (n.exponent.map Exponent.text).getD []

def body (n : Numeral) : Bytes := n.int ++ n.fraction ++ n.exponentText

def text (n : Numeral) : Bytes := n.sign ++ n.body

/-- The power of ten that scales the digits of the numeral, read as one integer. -/
def shift (n : Numeral) : ℤ := (n.exponent.map Exponent.value).getD 0 - n.frac.length

def double (n : Numeral) : Option Double := Double.ofParts n.neg 10 10 n.shift (n.int ++ n.frac)

def integral (neg : Bool) (ds : Bytes) (hne : ds ≠ []) (hds : ds.all isdigit) : Numeral :=
  ⟨neg,ds,[],none,hne,hds,rfl⟩

section Integral

variable {neg : Bool} {ds : Bytes} {hne : ds ≠ []} {hds : ds.all isdigit}

@[simp] theorem text_integral :
    (integral neg ds hne hds).text = (if neg then [chr '-'] else []) ++ ds := by
  cases neg <;> simp [integral,text,sign,body,fraction,exponentText]

@[simp] theorem double_integral :
    (integral neg ds hne hds).double = Double.ofFraction neg (ofDigits 10 ds) 1 := by
  simp [integral,double,shift,Double.ofParts]

end Integral

/-- The characters of numerals; none of them stands in `inf`, `nan` and `0x`. -/
def isNumeralChar (b : UInt8) : Bool :=
  isdigit b || b == chr '.' || b == chr '+' || b == chr '-' || b == chr 'e'

theorem isNumeralChar_tolower {b : UInt8} (h : isNumeralChar b = true) :
    isNumeralChar (tolower b) = true :=
  forall_byte (p := fun b => isNumeralChar b = true → isNumeralChar (tolower b) = true)
    (by decide +kernel) b h

theorem isNumeralChar_of_isdigit {b : UInt8} (h : isdigit b = true) : isNumeralChar b = true := by
  simp [isNumeralChar,h]

theorem isPrefixOf_eq_false {p : UInt8 → Bool} {pat s : Bytes} {c : UInt8} (hc : c ∈ pat)
    (hn : p c = false) (hs : ∀ b ∈ s, p b = true) : pat.isPrefixOf s = false := by
  cases h : pat.isPrefixOf s with
  | false => rfl
  | true =>
    have := hs c ((List.isPrefixOf_iff_prefix.mp h).mem hc)
    simp [hn] at this

variable (n : Numeral)

theorem isNumeralChar_body : ∀ b ∈ n.body.map tolower, isNumeralChar b = true := by
  have digit : ∀ {ds : Bytes}, ds.all isdigit → ∀ b ∈ ds, isNumeralChar (tolower b) = true :=
    fun h b hb => isNumeralChar_tolower (isNumeralChar_of_isdigit (List.all_eq_true.mp h b hb))
  intro b hb
  obtain ⟨a,ha,rfl⟩ := List.mem_map.mp hb
  simp only [body,List.mem_append,or_assoc] at ha
  rcases ha with ha | ha | ha
  · exact digit n.isdigit_int a ha
  · unfold fraction at ha
    split at ha
    · simp at ha
    · rcases List.mem_cons.mp ha with rfl | ha
      · decide
      · exact digit n.isdigit_frac a ha
  · unfold exponentText at ha
    cases he : n.exponent with
    | none => simp [he] at ha
    | some e =>
      rw [he,Option.map_some,Option.getD_some,Exponent.text,List.mem_cons,List.mem_append] at ha
      rcases ha with rfl | ha | ha
      · rw [e.tolower_mark]
        decide
      · unfold Exponent.signText at ha
        split at ha
        · simp at ha
        · rename_i neg _
          cases neg <;> simp at ha <;> subst ha <;> decide
      · exact digit e.isdigit_digits a ha

theorem int_eq_cons : ∃ c ds, n.int = c::ds ∧ isdigit c ∧ ds.all isdigit := by
  have h := n.isdigit_int
  cases hi : n.int with
  | nil => exact absurd hi n.ne_nil
  | cons c ds =>
    rw [hi,List.all_cons,Bool.and_eq_true] at h
    exact ⟨c,ds,rfl,h⟩

theorem splitSign_text (rest : Bytes) : splitSign (n.text ++ rest) = (n.neg,n.body ++ rest) := by
  obtain ⟨c,ds,hi,hc,-⟩ := n.int_eq_cons
  obtain ⟨-,h₂,h₃⟩ := digit_ne hc
  cases hn : n.neg with
  | true => simp [text,sign,hn,splitSign]
  | false => simp [text,sign,hn,body,hi,splitSign,h₂,h₃]

theorem dropWhile_text : n.text.dropWhile isspace = n.text := by
  obtain ⟨c,ds,hi,hc,-⟩ := n.int_eq_cons
  cases hn : n.neg with
  | true =>
    have : isspace (chr '-') = false := by decide
    simp [text,sign,hn,this]
  | false => simp [text,sign,hn,body,hi,(digit_ne hc).1]

theorem splitPoint_body : Double.splitPoint isdigit n.body = (n.int,n.frac,n.exponentText) := by
  -- the mark of the exponent is not a digit and not the point
  have hexp : ∀ c ∈ n.exponentText.head?, isdigit c = false ∧ c ≠ chr '.' := by
    unfold exponentText
    cases n.exponent with
    | none => simp
    | some e =>
      rintro c ⟨⟩
      unfold Exponent.mark
      cases e.upper <;> decide
  have hend : n.exponentText.head?.any isdigit = false := by
    cases he : n.exponentText.head? with
    | none => rfl
    | some c => exact (hexp c he).1
  have hpoint : (n.fraction ++ n.exponentText).head?.any isdigit = false := by
    unfold fraction
    split
    · simpa using hend
    · rfl
  simp only [Double.splitPoint,body,List.append_assoc]
  rw [takeWhile_run n.isdigit_int hpoint,dropWhile_run n.isdigit_int hpoint]
  unfold fraction
  by_cases hf : n.frac.isEmpty
  · rw [if_pos hf,List.isEmpty_iff.mp hf,List.nil_append]
    cases he : n.exponentText with
    | nil => rfl
    | cons c s => exact if_neg (hexp c (by rw [he]; rfl)).2
  · rw [if_neg hf,List.cons_append]
    simp only [if_true]
    rw [takeWhile_run n.isdigit_frac hend,dropWhile_run n.isdigit_frac hend]

theorem exponentPart_text : Double.exponentPart (chr 'e') n.exponentText =
    (n.exponent.map Exponent.value).getD 0 := by
  unfold exponentText
  cases n.exponent with
  | none => rfl
  | some e =>
    have hd : e.digits.takeWhile isdigit = e.digits :=
      List.takeWhile_eq_self_iff.mpr (List.all_eq_true.mp e.isdigit_digits)
    simp only [Option.map_some,Option.getD_some,Exponent.text,Double.exponentPart,
      e.tolower_mark,if_true,e.splitSign_text,hd,Exponent.value,beq_iff_eq]

theorem stod_text : Double.stod n.text = n.double := by
  have hne : (n.int ++ n.frac).isEmpty = false := by simpa using fun h => absurd h n.ne_nil
  have hs : splitSign n.text = (n.neg,n.body) := by simpa using n.splitSign_text []
  simp only [Double.stod,n.dropWhile_text,hs]
  rw [isPrefixOf_eq_false (c:=chr 'i') (by decide) (by decide) n.isNumeralChar_body,
    isPrefixOf_eq_false (c:=chr 'n') (by decide) (by decide) n.isNumeralChar_body,
    isPrefixOf_eq_false (c:=chr 'x') (by decide) (by decide) n.isNumeralChar_body]
  simp only [Bool.false_eq_true,if_false,Double.strtodDecimal,n.splitPoint_body,
    n.exponentPart_text,hne]
  rfl

end Numeral
end Gabby
