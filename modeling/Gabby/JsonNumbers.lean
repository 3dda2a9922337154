import Gabby.DoubleText
import Gabby.JsonText

/-! The numbers of the JSON standard (RFC 8259) against the number scanner, which collects
more than numbers and leaves the rest to `stod`. -/
namespace Gabby

namespace Numeral

/-- The integral part has no superfluous leading zero. -/
def IsJson (n : Numeral) : Prop := n.int = [chr '0'] ∨ n.int.head? ≠ some (chr '0')

def signedCapital (n : Numeral) : Bool := n.exponent.any fun e => e.upper && e.sign.isSome

theorem numberText {n : Numeral} (h : n.signedCapital = false) : Json.NumberText n.text := by
  refine .numeral n fun e he hu => ?_
  cases hs : e.sign with
  | none => rfl
  | some b =>
    have he : n.exponent = some e := he
    simp [signedCapital,he,hu,hs] at h

end Numeral

namespace Json

open Exec

/-- The text begins with a JSON number in the range of doubles, and the number ends there. -/
structure NumberAt (n : Numeral) (text rest : Bytes) : Prop where
  text : text = n.text ++ rest
  json : n.IsJson
  inRange : n.double ≠ none
  ends : Tape.Ends rest

theorem NumberAt.int_eq {n : Numeral} {text rest : Bytes} (h : NumberAt n text rest) :
    n.int = (splitSign text).2.takeWhile isdigit := by
  have hrest : rest.head?.any isdigit = false := by
    cases hr : rest.head? with
    | none => rfl
    | some c =>
      cases hc : isdigit c with
      | false => exact hc
      | true => simpa [isalnum_of_isdigit hc] using (h.ends c hr).1
  have hend : (n.fraction ++ n.exponentText ++ rest).head?.any isdigit = false := by
    unfold Numeral.fraction
    split
    · unfold Numeral.exponentText
      cases n.exponent with
      | none => exact hrest
      | some e =>
        rw [Option.map_some,Option.getD_some,Exponent.text,Exponent.mark]
        cases e.upper <;> rfl
    · rfl
  rw [h.text,n.splitSign_text,Numeral.body,List.append_assoc,List.append_assoc,
    ← List.append_assoc n.fraction,takeWhile_run n.isdigit_int hend]

def Takes (s : Scanner) (n : Numeral) (rest : Bytes) : Prop :=
  ∃ d t, Scan.scan.run s = (.ok (some (.num d)),t) ∧ t.tape.At rest ∧
    t.pos = s.pos + n.text.length

def Throws (s : Scanner) : Prop :=
  ∃ w t, Scan.scan.run s = (.error (.throw (.parsingError w)),t)

def ScansNumber (s : Scanner) (text : Bytes) : Prop :=
  (∃ n rest, NumberAt n text rest ∧ Takes s n rest) ∨
    (∀ n rest, ¬ NumberAt n text rest) ∧ Throws s

/-! ## What the scanner collects -/

/-- The scanner collects `raw` where `raw ++ rest` is the text. -/
inductive Collected : Bytes → Bytes → Prop
  | mk (sign : Bytes) (first : UInt8) (int frac exp rest : Bytes)
      (hsign : sign = [] ∧ isdigit first ∨ sign = [chr '-']) (hint : int.all isDigitChar)
      (hfrac : frac = [] ∨ ∃ ds, frac = chr '.'::ds ∧ ds.all isDigitChar)
      (hexp : exp = [] ∨ ∃ c ds, exp = chr 'e'::c::ds ∧ ds.all isalnum)
      (hr : rest.head?.any isalnum = false)
      (hdot : frac = [] → exp = [] → rest.head? ≠ some (chr '.')) :
      Collected (sign ++ first::int ++ frac ++ exp) rest

inductive CutOff : Bytes → Prop
  | mk (sign : Bytes) (first : UInt8) (int frac : Bytes)
      (hsign : sign = [] ∧ isdigit first ∨ sign = [chr '-']) (hint : int.all isDigitChar)
      (hfrac : frac = [] ∨ ∃ ds, frac = chr '.'::ds ∧ ds.all isDigitChar) :
      CutOff (sign ++ first::int ++ frac ++ [chr 'e'])

theorem head_dropWhile (p : UInt8 → Bool) (u : Bytes) :
    (u.dropWhile p).head?.any p = false := by
  cases h : u.dropWhile p with
  | nil => rfl
  | cons c r =>
    have := List.head_dropWhile_not p (l:=u) (by simp [h])
    simpa [h] using this

theorem exists_fraction {u : Bytes} (hu : u.head?.any isDigitChar = false) : ∃ frac r,
    u = frac ++ r ∧ (frac = [] ∨ ∃ ds, frac = chr '.'::ds ∧ ds.all isDigitChar) ∧
      r.head?.any isDigitChar = false ∧ (frac = [] → r.head? ≠ some (chr '.')) := by
  by_cases h : u.head? = some (chr '.')
  · cases u with
    | nil => cases h
    | cons c r =>
      cases h
      refine ⟨chr '.'::r.takeWhile isDigitChar,r.dropWhile isDigitChar,?_,
        .inr ⟨_,rfl,List.all_takeWhile⟩,head_dropWhile _ _,by simp⟩
      rw [List.cons_append,List.takeWhile_append_dropWhile]
  · exact ⟨[],u,rfl,.inl rfl,hu,fun _ => h⟩

theorem exists_exponent {u : Bytes} (hu : u.head?.any isDigitChar = false) : u = [chr 'e'] ∨
    ∃ exp r, u = exp ++ r ∧ (exp = [] ∨ ∃ c ds, exp = chr 'e'::c::ds ∧ ds.all isalnum) ∧
      r.head?.any isalnum = false := by
  rcases u with _ | ⟨e,_ | ⟨c,r⟩⟩
  · exact .inr ⟨[],[],rfl,.inl rfl,rfl⟩
  · by_cases he : e = chr 'e'
    · exact .inl (by rw [he])
    · exact .inr ⟨[],_,rfl,.inl rfl,by simpa [isDigitChar,he] using hu⟩
  · by_cases he : e = chr 'e'
    · subst he
      refine .inr ⟨chr 'e'::c::r.takeWhile isalnum,r.dropWhile isalnum,?_,
        .inr ⟨c,_,rfl,List.all_takeWhile⟩,head_dropWhile _ _⟩
      rw [List.cons_append,List.cons_append,List.takeWhile_append_dropWhile]
    · exact .inr ⟨[],_,rfl,.inl rfl,by simpa [isDigitChar,he] using hu⟩

/-- Every text with a minus sign or a digit at its front is of one of three kinds. -/
theorem collected_or_cut {text : Bytes} {c : UInt8} (hc : text.head? = some c)
    (hd : c = chr '-' ∨ isdigit c) : text = [chr '-'] ∨ CutOff text ∨
      ∃ raw rest, Collected raw rest ∧ text = raw ++ rest := by
  obtain ⟨sign,u,rfl,hsign⟩ : ∃ sign u, text = sign ++ u ∧
      (sign = [] ∧ u.head?.any isdigit ∨ sign = [chr '-']) := by
    cases text with
    | nil => cases hc
    | cons b u =>
      cases hc
      rcases hd with rfl | hd
      · exact ⟨[chr '-'],u,rfl,.inr rfl⟩
      · exact ⟨[],c::u,rfl,.inl ⟨rfl,by simpa using hd⟩⟩
  cases u with
  | nil =>
    rcases hsign with ⟨-,h⟩ | rfl
    · cases h
    · exact .inl rfl
  | cons first u =>
    have hsign' : sign = [] ∧ isdigit first ∨ sign = [chr '-'] := by simpa using hsign
    obtain ⟨int,u,rfl,hint,hu⟩ : ∃ int v, u = int ++ v ∧ int.all isDigitChar ∧
        v.head?.any isDigitChar = false :=
      ⟨u.takeWhile isDigitChar,u.dropWhile isDigitChar,List.takeWhile_append_dropWhile.symm,
        List.all_takeWhile,head_dropWhile _ _⟩
    obtain ⟨frac,r,rfl,hfrac,hr,hdot⟩ := exists_fraction hu
    rcases exists_exponent hr with rfl | ⟨exp,rest,rfl,hexp,hre⟩
    · refine .inr (.inl ?_)
      simpa using CutOff.mk sign first int frac hsign' hint hfrac
    · refine .inr (.inr ⟨_,rest,.mk sign first int frac exp rest hsign' hint hfrac hexp hre ?_,
        by simp⟩)
      rintro hf rfl
      simpa using hdot hf

/-! ## When the scanner throws -/

def startsNumeral (s : Bytes) : Bool :=
  s.head?.any isdigit || (s.head? == some (chr '.') && s.tail.head?.any isdigit) ||
    (ascii "inf").isPrefixOf (s.map tolower) || (ascii "nan").isPrefixOf (s.map tolower)

/-- The texts at which the scanner throws: nothing like a number follows the minus sign, the
input ends after the mark of an exponent, or the number is out of range. -/
inductive Refused : Bytes → Prop
  | noNumeral (r : Bytes) (h : startsNumeral r = false) : Refused (chr '-'::r)
  | cutOff {text : Bytes} (h : CutOff text) : Refused text
  | outOfRange {raw rest : Bytes} (h : Collected raw rest)
      (hn : startsNumeral (splitSign raw).2 = true) (hd : Double.stod raw = none) :
      Refused (raw ++ rest)

theorem startsNumeral_takeWhile (c : UInt8) (u : Bytes) :
    startsNumeral (c::u.takeWhile isDigitChar) = startsNumeral (c::u) := by
  have other : ∀ b : UInt8, isDigitChar b = false → isdigit b = false ∧
      (chr 'n' == tolower b) = false ∧ (chr 'a' == tolower b) = false ∧
      (chr 'f' == tolower b) = false := forall_byte (by decide +kernel)
  rcases u with _ | ⟨a,u⟩
  · rfl
  cases ha : isDigitChar a with
  | false =>
    obtain ⟨h₁,h₂,h₃,-⟩ := other a ha
    simp [startsNumeral,ha,h₁,ascii,h₂,h₃,List.isPrefixOf]
  | true =>
    rcases u with _ | ⟨b,u⟩
    · simp [ha]
    cases hb : isDigitChar b with
    | false =>
      obtain ⟨-,h₂,-,h₄⟩ := other b hb
      simp [startsNumeral,ha,hb,ascii,h₂,h₄,List.isPrefixOf]
    | true => simp [startsNumeral,ha,hb,ascii,List.isPrefixOf]

theorem stod_of_not_startsNumeral {b : Bytes} (h : startsNumeral b = false) :
    Double.stod (chr '-'::b) = none := by
  have zero : ∀ c : UInt8, isdigit c = false → (chr '0' == tolower c) = false :=
    forall_byte (by decide +kernel)
  simp only [startsNumeral,Bool.or_eq_false_iff] at h
  obtain ⟨⟨⟨hd,hp⟩,hi⟩,hn⟩ := h
  have hs : splitSign ((chr '-'::b).dropWhile isspace) = (true,b) := rfl
  cases b with
  | nil => rfl
  | cons c r =>
    have hc : isdigit c = false := by simpa using hd
    have h0 : (chr '0' == tolower c) = false := zero c hc
    have hx : (ascii "0x").isPrefixOf ((c::r).map tolower) = false := by
      simp [ascii,List.isPrefixOf,h0]
    have hint : (c::r).takeWhile isdigit = [] := by simp [hc]
    have hdrop : (c::r).dropWhile isdigit = c::r := by simp [hc]
    simp only [Double.stod,hs,hi,hn,hx,Double.strtodDecimal,Double.splitPoint,hint,hdrop,
      Bool.false_eq_true,if_false]
    split
    · rename_i hcp
      -- no digit follows the point
      have hr : r.takeWhile isdigit = [] := by
        cases r with
        | nil => rfl
        | cons d r => simpa [hcp] using hp
      simp [hr]
    · rfl

theorem Collected.numberText {raw rest : Bytes} (h : Collected raw rest) : NumberText raw := by
  obtain ⟨sign,first,int,frac,exp,_,hsign,hint,hfrac,hexp,-,-⟩ := h
  exact .mk sign first int frac exp hsign hint hfrac hexp

theorem Collected.head {raw rest : Bytes} (h : Collected raw rest) :
    ∃ c, raw.head? = some c ∧ (c = chr '-' ∨ isdigit c) := by
  cases hr : raw.head? with
  | none =>
    obtain ⟨sign,first,int,frac,exp,_,hsign,-⟩ := h
    rcases hsign with ⟨rfl,-⟩ | rfl <;> cases hr
  | some c => exact ⟨c,rfl,h.numberText.head hr⟩

/-- A number without sign starts a numeral, and after a minus sign what was collected does
when the text does. -/
theorem Collected.startsNumeral {raw rest : Bytes} (h : Collected raw rest) :
    raw.head?.any isdigit ∧ startsNumeral (splitSign raw).2 = true ∨
      ∃ b, raw = chr '-'::b ∧ startsNumeral (b ++ rest) = startsNumeral b := by
  obtain ⟨sign,first,int,frac,exp,_,hsign,hint,hfrac,hexp,hr,hdot⟩ := h
  rcases hsign with ⟨rfl,hf⟩ | rfl
  · obtain ⟨-,h₁,h₂⟩ := digit_ne hf
    exact .inl ⟨hf,by simp [splitSign,h₁,h₂,Json.startsNumeral,hf]⟩
  · refine .inr ⟨first::int ++ frac ++ exp,by simp,?_⟩
    have hend : ∀ r : Bytes, r.head?.any isalnum = false →
        (frac ++ exp ++ r).head?.any isDigitChar = false := by
      intro r hr
      rcases hfrac with rfl | ⟨ds,rfl,-⟩
      · rcases hexp with rfl | ⟨b,ds,rfl,-⟩
        · exact Tape.not_isDigitChar_of_not_isalnum hr
        · rfl
      · rfl
    have hrun : ∀ r : Bytes, r.head?.any isalnum = false →
        Json.startsNumeral (first::int ++ frac ++ exp ++ r) = Json.startsNumeral (first::int) := by
      intro r hr
      have h := startsNumeral_takeWhile first (int ++ (frac ++ exp ++ r))
      rw [takeWhile_run hint (hend r hr)] at h
      rw [h]
      simp
    rw [hrun rest hr,← hrun [] rfl,List.append_nil]

section Runs

variable {s : Scanner} {raw rest text : Bytes}

theorem throws_of_tape {e : Bytes} {t : Tape}
    (h : Scan.scan.run s.tape = (.error (.throw (.parsingError e)),t)) : Throws s := by
  obtain ⟨ho,-⟩ := Scanner.simReads.scannerRel.scan s s.tape s.reads_tape
  rw [h] at ho
  exact ⟨e,_,Prod.ext ho rfl⟩

theorem run_scanLexeme_collected {t : Tape} {c : UInt8} (h : Collected raw rest)
    (hc : raw.head? = some c) (ht : t.At (raw ++ rest)) :
    ∃ t', (Scan.scanLexeme c).run t = (.ok raw,t') ∧ t'.At rest := by
  obtain ⟨sign,first,int,frac,exp,_,hsign,hint,hfrac,hexp,hr,hdot⟩ := h
  exact Tape.run_scanLexeme_at hsign hint hfrac hexp hr hdot hc ht

theorem takes_of_collected {d : Double} (h : Collected raw rest)
    (hd : Double.stod raw = some d) (hs : s.tape.At (raw ++ rest)) :
    ∃ t, Scan.scan.run s = (.ok (some (.num d)),t) ∧ t.tape.At rest ∧
      t.pos = s.pos + raw.length := by
  obtain ⟨c,hc,hcd⟩ := h.head
  obtain ⟨t₁,ht₁,hr₁⟩ := Tape.run_scan_number (by rw [List.head?_append,hc]; rfl) hcd hs
  obtain ⟨t₂,hr₂,ht₂⟩ := run_scanLexeme_collected h hc ht₁
  refine Scanner.run_scan_of_tape (t:=t₂) hs (hr₁.trans ((run_bind_ok hr₂).trans ?_)) ht₂
  rw [hd]
  rfl

theorem throws_of_collected (h : Collected raw rest) (hd : Double.stod raw = none)
    (hs : s.tape.At (raw ++ rest)) : Throws s := by
  obtain ⟨c,hc,hcd⟩ := h.head
  obtain ⟨t₁,ht₁,hr₁⟩ := Tape.run_scan_number (by rw [List.head?_append,hc]; rfl) hcd hs
  obtain ⟨t₂,hr₂,-⟩ := run_scanLexeme_collected h hc ht₁
  refine throws_of_tape (e:=ascii "bad number: " ++ raw) (t:=t₂)
    (hr₁.trans ((run_bind_ok hr₂).trans ?_))
  rw [hd]
  rfl

theorem throws_of_cutOff (h : CutOff text) (hs : s.tape.At text) : Throws s := by
  obtain ⟨sign,first,int,frac,hsign,hint,hfrac⟩ := h
  have hhead : ∃ c, (sign ++ first::int ++ frac ++ [chr 'e']).head? = some c ∧
      (c = chr '-' ∨ isdigit c) := by
    rcases hsign with ⟨rfl,hf⟩ | rfl
    · exact ⟨first,rfl,.inr hf⟩
    · exact ⟨chr '-',rfl,.inl rfl⟩
  obtain ⟨c,hc,hcd⟩ := hhead
  obtain ⟨t₁,ht₁,hr₁⟩ := Tape.run_scan_number hc hcd hs
  obtain ⟨t₂,hr₂⟩ := Tape.run_scanLexeme_cut hsign hint hfrac hc ht₁
  exact throws_of_tape (hr₁.trans (run_bind_error hr₂))

theorem throws_of_minus (hs : s.tape.At [chr '-']) : Throws s := by
  obtain ⟨t₁,ht₁,hr₁⟩ := Tape.run_scan_number rfl (.inl rfl) hs
  obtain ⟨t₂,hr₂,ht₂⟩ := Tape.run_push_at ht₁ []
  obtain ⟨t₃,hr₃⟩ := Tape.run_push_end ht₂ [chr '-']
  have hlex : (Scan.scanLexeme (chr '-')).run t₁ =
      (.error (.throw (.parsingError (ascii "unexpected eof"))),t₃) :=
    (run_bind_ok hr₂).trans (run_bind_error hr₃)
  exact throws_of_tape (hr₁.trans (run_bind_error hlex))

theorem not_throws {tok : Option Token} {t : Scanner} (h : Scan.scan.run s = (.ok tok,t)) :
    ¬ Throws s := by
  rintro ⟨w,t',h'⟩
  rw [h] at h'
  cases h'

theorem throws_iff_refused {c : UInt8} (hs : s.tape.At text) (hc : text.head? = some c)
    (hd : c = chr '-' ∨ isdigit c) : Throws s ↔ Refused text := by
  constructor
  · intro ht
    rcases collected_or_cut hc hd with rfl | hcut | ⟨raw,rest,h,rfl⟩
    · exact .noNumeral [] rfl
    · exact .cutOff hcut
    · cases hst : Double.stod raw with
      | some d =>
        obtain ⟨t,hr,-⟩ := takes_of_collected h hst hs
        exact absurd ht (not_throws hr)
      | none =>
        cases hn : startsNumeral (splitSign raw).2 with
        | true => exact .outOfRange h hn hst
        | false =>
          rcases h.startsNumeral with ⟨-,hn'⟩ | ⟨b,rfl,hb⟩
          · exact absurd hn' (by simp [hn])
          · exact .noNumeral (b ++ rest) (hb.trans hn)
  · intro hr
    cases hr with
    | noNumeral r h =>
      rcases collected_or_cut hc hd with hm | hcut | ⟨raw,rest,hcol,hm⟩
      · exact throws_of_minus (hm ▸ hs)
      · exact throws_of_cutOff hcut hs
      · rw [hm] at hs
        refine throws_of_collected hcol ?_ hs
        rcases hcol.startsNumeral with ⟨hdigit,-⟩ | ⟨b,rfl,hb⟩
        · have hm := congrArg List.head? hm
          cases raw with
          | nil => cases hdigit
          | cons b raw =>
            cases hm
            cases hdigit
        · obtain rfl : r = b ++ rest := by simpa using hm
          exact stod_of_not_startsNumeral (hb ▸ h)
    | cutOff h => exact throws_of_cutOff h hs
    | outOfRange h _ hst => exact throws_of_collected h hst hs

variable {n : Numeral}

theorem takes_number (h : NumberAt n text rest) (hn : n.signedCapital = false)
    (hs : s.tape.At text) : Takes s n rest := by
  obtain ⟨d,hd⟩ := Option.ne_none_iff_exists'.mp h.inRange
  have hl : Lexeme n.text (.num d) := .num (Numeral.numberText hn) (n.stod_text.trans hd)
  obtain ⟨t,hr,ht,hp⟩ := Scanner.run_scan_lexeme hl (fun _ => h.ends) (h.text ▸ hs)
  exact ⟨d,t,hr,ht,hp⟩

/-- The scanner stops between a capital mark and the sign after it. -/
theorem not_takes_signedCapital (h : NumberAt n text rest) (hn : n.signedCapital = true)
    (hs : s.tape.At text) : ¬ Takes s n rest := by
  obtain ⟨e,he,hu,b,hb⟩ : ∃ e, n.exponent = some e ∧ e.upper = true ∧ ∃ b, e.sign = some b := by
    cases he : n.exponent with
    | none => simp [Numeral.signedCapital,he] at hn
    | some e =>
      simp only [Numeral.signedCapital,he,Option.any_some,Bool.and_eq_true] at hn
      exact ⟨e,rfl,hn.1,Option.isSome_iff_exists.mp hn.2⟩
  have hmark : [chr 'E'].all isDigitChar := rfl
  obtain ⟨first,int,frac,hsign,hint,hfrac,hp⟩ := numeral_parts n hmark
  obtain ⟨x,hx,hxa,hxp⟩ : ∃ x, e.signText = [x] ∧ isalnum x = false ∧ x ≠ chr '.' := by
    rw [Exponent.signText,hb]
    cases b <;> exact ⟨_,rfl,by decide,by decide⟩
  have hcol : Collected (n.sign ++ first::int ++ frac ++ []) (e.signText ++ e.digits ++ rest) :=
    .mk _ first int frac [] _ hsign hint hfrac (.inl rfl) (by simpa [hx] using hxa)
      fun _ _ => by simpa [hx] using hxp
  have htext : text = n.sign ++ first::int ++ frac ++ [] ++ (e.signText ++ e.digits ++ rest) := by
    have hp : n.int ++ (n.fraction ++ [chr 'E']) = first::int ++ frac := by simpa using hp
    rw [List.append_nil,List.append_assoc n.sign,← hp,h.text]
    simp [Numeral.text,Numeral.body,Numeral.exponentText,he,Exponent.text,Exponent.mark,hu]
  rintro ⟨d,t,hr,ht,-⟩
  rw [htext] at hs
  cases hst : Double.stod (n.sign ++ first::int ++ frac ++ []) with
  | none => exact not_throws hr (throws_of_collected hcol hst hs)
  | some d' =>
    obtain ⟨t',hr',ht',-⟩ := takes_of_collected hcol hst hs
    rw [hr] at hr'
    cases hr'
    have hlen := congrArg List.length (ht.input.symm.trans ht'.input)
    have hpos := List.length_pos_of_ne_nil e.ne_nil
    simp only [List.length_map,List.length_append] at hlen
    omega

/-- A scanner does what the standard asks exactly at the JSON numbers in range without a sign
after a capital mark, and at the texts without such a number that it refuses. -/
theorem scan_number_iff (s : Scanner) (text : Bytes) (c : UInt8) (hs : s.tape.At text)
    (hc : text.head? = some c) (hd : c = chr '-' ∨ isdigit c) : ScansNumber s text ↔
      (∃ n rest, NumberAt n text rest ∧ n.signedCapital = false) ∨
        (∀ n rest, ¬ NumberAt n text rest) ∧ Refused text := by
  rw [ScansNumber,throws_iff_refused hs hc hd]
  constructor
  · rintro (⟨n,rest,h,ht⟩ | h)
    · refine .inl ⟨n,rest,h,?_⟩
      by_contra hn
      exact not_takes_signedCapital h (by simpa using hn) hs ht
    · exact .inr h
  · rintro (⟨n,rest,h,hn⟩ | h)
    · exact .inl ⟨n,rest,h,takes_number h hn hs⟩
    · exact .inr h

end Runs

theorem scan_number_iff_seventeen :
    ScansNumber (Scanner.init (.ofBytes (ascii "17,")) 3) (ascii "17,") ↔
      (∃ n rest, NumberAt n (ascii "17,") rest ∧ n.signedCapital = false) ∨
        (∀ n rest, ¬ NumberAt n (ascii "17,") rest) ∧ Refused (ascii "17,") :=
  scan_number_iff _ _ (chr '1') (Scanner.at_init _ _) rfl (.inr rfl)

/-- A superfluous zero is accepted. -/
theorem scan_number_leadingZero : ¬ ∀ (s : Scanner) (text : Bytes) (c : UInt8),
    s.tape.At text → text.head? = some c → c = chr '-' ∨ isdigit c → ScansNumber s text := by
  intro h
  have hat : (Scanner.init (.ofBytes (ascii "01")) 2).tape.At (ascii "01") := Scanner.at_init _ _
  rcases h _ _ (chr '0') hat rfl (.inr rfl) with ⟨n,rest,hn,-⟩ | ⟨-,ht⟩
  · have hi : n.int = ascii "01" := hn.int_eq
    rcases hn.json with hj | hj <;> rw [hi] at hj
    · exact absurd hj (by decide)
    · exact hj rfl
  · have hcol : Collected (ascii "01") [] :=
      .mk [] (chr '0') (ascii "1") [] [] [] (.inl ⟨rfl,rfl⟩) rfl (.inl rfl) (.inl rfl) rfl (by simp)
    have hst : Double.stod (ascii "01") = some (.ofInteger false 1) :=
      (Double.stod_digits (by decide) (by decide) false).trans
        (Double.ofFraction_ofInteger (by decide) false)
    obtain ⟨t,hr,-⟩ := takes_of_collected hcol hst hat
    exact not_throws hr ht

end Json
end Gabby
