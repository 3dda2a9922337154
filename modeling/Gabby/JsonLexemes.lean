import Gabby.JsonGrammar
import Gabby.Numeral
import Mathlib.Data.List.TakeWhile

/-! The texts of JSON tokens, and texts spelled by a sequence of tokens. A lexeme says what
the scanner may have read when it delivers a token, wherever it stopped reading. -/
namespace Gabby.Json

/-! ## Lexemes -/

/-- The body of a string and the characters it stands for: a backslash is dropped and the
character after it kept, whichever it is; there is no newline. -/
inductive StringBody : Bytes → Bytes → Prop
  | nil : StringBody [] []
  | plain {raw s : Bytes} (c : UInt8) (hq : c ≠ chr '"') (hb : c ≠ chr '\\') (hn : c ≠ chr '\n')
      (h : StringBody raw s) : StringBody (c::raw) (c::s)
  | escape {raw s : Bytes} (c : UInt8) (hn : c ≠ chr '\n') (h : StringBody raw s) :
      StringBody (chr '\\'::c::raw) (c::s)

namespace StringBody

variable {raw s : Bytes}

theorem plain_end (h : StringBody raw s) {c : UInt8} (hq : c ≠ chr '"') (hb : c ≠ chr '\\')
    (hn : c ≠ chr '\n') : StringBody (raw ++ [c]) (s ++ [c]) := by
  induction h with
  | nil => exact .plain c hq hb hn .nil
  | plain d hq' hb' hn' _ ih => exact .plain d hq' hb' hn' ih
  | escape d hn' _ ih => exact .escape d hn' ih

theorem escape_end (h : StringBody raw s) {c : UInt8} (hn : c ≠ chr '\n') :
    StringBody (raw ++ [chr '\\',c]) (s ++ [c]) := by
  induction h with
  | nil => exact .escape c hn .nil
  | plain d hq' hb' hn' _ ih => exact .plain d hq' hb' hn' ih
  | escape d hn' _ ih => exact .escape d hn' ih

end StringBody

def isDigitChar (c : UInt8) : Bool := isalnum c && c != chr 'e'

/-- The parts of the text of a number, as far as the scanner looks at them: what follows a
minus sign or the mark of an exponent may be any character. -/
inductive NumberText : Bytes → Prop
  | mk (sign : Bytes) (first : UInt8) (int frac exp : Bytes)
      (hsign : sign = [] ∧ isdigit first ∨ sign = [chr '-']) (hint : int.all isDigitChar)
      (hfrac : frac = [] ∨ ∃ ds, frac = chr '.'::ds ∧ ds.all isDigitChar)
      (hexp : exp = [] ∨ ∃ c ds, exp = chr 'e'::c::ds ∧ ds.all isalnum) :
      NumberText (sign ++ first::int ++ frac ++ exp)

theorem NumberText.head {raw : Bytes} (h : NumberText raw) {c : UInt8} (hc : raw.head? = some c) :
    c = chr '-' ∨ isdigit c := by
  obtain ⟨sign,first,int,frac,exp,hsign,-⟩ := h
  rcases hsign with ⟨rfl,hf⟩ | rfl
  · simp at hc
    exact .inr (hc ▸ hf)
  · simp at hc
    exact .inl hc.symm

theorem isDigitChar_of_isdigit {c : UInt8} : isdigit c = true → isDigitChar c = true :=
  forall_byte (p := fun c => isdigit c = true → isDigitChar c = true) (by decide +kernel) c

/-- A numeral before its exponent, as the scanner looks at it; more characters of the runs of
digits may follow. -/
theorem numeral_parts (n : Numeral) {tail : Bytes} (ht : tail.all isDigitChar) :
    ∃ first int frac, (n.sign = [] ∧ isdigit first ∨ n.sign = [chr '-']) ∧
      int.all isDigitChar ∧ (frac = [] ∨ ∃ ds, frac = chr '.'::ds ∧ ds.all isDigitChar) ∧
      n.int ++ n.fraction ++ tail = first::int ++ frac := by
  have digits : ∀ {ds : Bytes}, ds.all isdigit → ds.all isDigitChar := fun h =>
    List.all_eq_true.mpr fun b hb => isDigitChar_of_isdigit (List.all_eq_true.mp h b hb)
  obtain ⟨c,ds,hi,hc,hds⟩ := n.int_eq_cons
  have hs : n.sign = [] ∧ isdigit c ∨ n.sign = [chr '-'] := by
    unfold Numeral.sign
    cases n.neg
    · exact .inl ⟨rfl,hc⟩
    · exact .inr rfl
  rw [hi]
  unfold Numeral.fraction
  by_cases hf : n.frac.isEmpty
  · exact ⟨c,ds ++ tail,[],hs,by rw [List.all_append,digits hds,ht]; rfl,.inl rfl,by simp [hf]⟩
  · exact ⟨c,ds,chr '.'::(n.frac ++ tail),hs,digits hds,
      .inr ⟨_,rfl,by rw [List.all_append,digits n.isdigit_frac,ht]; rfl⟩,by simp [hf]⟩

/-- A numeral is looked at as a whole, unless a sign follows a capital mark. -/
theorem NumberText.numeral (n : Numeral) (h : ∀ e ∈ n.exponent, e.upper → e.sign = none) :
    NumberText n.text := by
  -- a capital mark and its digits belong to the run of digits before it
  obtain ⟨tail,exp,ht,hexp,htext⟩ : ∃ tail exp, tail.all isDigitChar ∧
      (exp = [] ∨ ∃ c ds, exp = chr 'e'::c::ds ∧ ds.all isalnum) ∧
      n.exponentText = tail ++ exp := by
    unfold Numeral.exponentText
    cases he : n.exponent with
    | none => exact ⟨[],[],rfl,.inl rfl,rfl⟩
    | some e =>
      have hd := e.isdigit_digits
      cases hu : e.upper with
      | true =>
        refine ⟨chr 'E'::e.digits,[],?_,.inl rfl,?_⟩
        · rw [List.all_cons,Bool.and_eq_true,List.all_eq_true]
          exact ⟨by decide,fun b hb => isDigitChar_of_isdigit (List.all_eq_true.mp hd b hb)⟩
        · simp [Exponent.text,Exponent.mark,Exponent.signText,hu,h e he hu]
      | false =>
        -- the sign, or else the first digit, is the character after the mark
        obtain ⟨b,r,hb,hr⟩ : ∃ b r, e.signText ++ e.digits = b::r ∧ r.all isdigit := by
          unfold Exponent.signText
          split
          · cases hds : e.digits with
            | nil => exact absurd hds e.ne_nil
            | cons b r =>
              rw [hds,List.all_cons,Bool.and_eq_true] at hd
              exact ⟨b,r,rfl,hd.2⟩
          · exact ⟨_,_,rfl,hd⟩
        refine ⟨[],chr 'e'::b::r,rfl,.inr ⟨b,r,rfl,?_⟩,?_⟩
        · exact List.all_eq_true.mpr fun b hb =>
            isalnum_of_isdigit (List.all_eq_true.mp hr b hb)
        · simp [Exponent.text,Exponent.mark,hu,hb]
  obtain ⟨first,int,frac,hs,hint,hfrac,hp⟩ := numeral_parts n ht
  have hn := NumberText.mk n.sign first int frac exp hs hint hfrac hexp
  have hbody : n.text = n.sign ++ first::int ++ frac ++ exp := by
    rw [Numeral.text,Numeral.body,htext,← List.append_assoc (n.int ++ n.fraction),hp]
    simp
  rwa [hbody]

inductive Lexeme : Bytes → Token → Prop
  | lbrace : Lexeme [chr '{'] .lbrace
  | rbrace : Lexeme [chr '}'] .rbrace
  | lbracket : Lexeme [chr '['] .lbracket
  | rbracket : Lexeme [chr ']'] .rbracket
  | comma : Lexeme [chr ','] .comma
  | colon : Lexeme [chr ':'] .colon
  | str {raw s : Bytes} (h : StringBody raw s) : Lexeme (chr '"'::raw ++ [chr '"']) (.str s)
  | num {raw : Bytes} {d : Double} (h : NumberText raw) (hd : Double.stod raw = some d) :
      Lexeme raw (.num d)
  | bool (b : Bool) : Lexeme (if b then ascii "true" else ascii "false") (.bool b)
  | nil : Lexeme (ascii "null") .nil

/-- A text made of the lexemes of some tokens, with white space around them. -/
inductive Spelled : Bytes → List Token → Prop
  | nil {ws : Bytes} (hws : ws.all isspace) : Spelled ws []
  | cons {ws raw rest : Bytes} {tok : Token} {ts : List Token} (hws : ws.all isspace)
      (hraw : Lexeme raw tok) (h : Spelled rest ts) : Spelled (ws ++ raw ++ rest) (tok::ts)

/-- A JSON text with this value. -/
def Denotes (text : Bytes) (v : Value) : Prop := ∃ ts, Spelled text ts ∧ Derives ts v

theorem Lexeme.wf {raw : Bytes} {tok : Token} (h : Lexeme raw tok) : tok.WF := by
  cases h <;> constructor

theorem Lexeme.ne_nil {raw : Bytes} {tok : Token} (h : Lexeme raw tok) : raw ≠ [] := by
  cases h with
  | num h _ => cases h; simp
  | bool b => cases b <;> simp [ascii]
  | _ => simp [ascii]

/-- No lexeme begins with white space, so the scanner finds where it begins. -/
theorem Lexeme.head {raw : Bytes} {tok : Token} (h : Lexeme raw tok) :
    ∃ c raw', raw = c::raw' ∧ isspace c = false := by
  cases h with
  | str h => exact ⟨_,_,rfl,by decide⟩
  | @num raw d h hd =>
    cases hr : raw with
    | nil => cases h; simp at hr
    | cons c raw' =>
      refine ⟨c,raw',rfl,?_⟩
      rcases h.head (by rw [hr]; rfl) with rfl | hc
      · decide
      · cases hs : isspace c with
        | false => rfl
        | true =>
          have := not_isalnum_of_isspace hs
          simp [isalnum_of_isdigit hc] at this
  | bool b => cases b <;> exact ⟨_,_,rfl,by decide⟩
  | _ => exact ⟨_,_,rfl,by decide⟩

namespace Spelled

variable {ws text text' : Bytes} {ts ts' : List Token}

theorem empty : Spelled [] [] := .nil rfl

theorem first {raw rest : Bytes} {tok : Token} (hraw : Lexeme raw tok) (h : Spelled rest ts) :
    Spelled (raw ++ rest) (tok::ts) := .cons (List.all_nil : List.all [] isspace = true) hraw h

theorem space (hws : ws.all isspace) (h : Spelled text ts) : Spelled (ws ++ text) ts := by
  cases h with
  | nil h => exact .nil (by simp [hws,h])
  | cons hws' hraw h =>
    simp only [← List.append_assoc]
    exact .cons (by simp [hws,hws']) hraw h

theorem of_space (hws : ws.all isspace) (h : Spelled (ws ++ text) ts) : Spelled text ts := by
  induction ws with
  | nil => exact h
  | cons c ws ih =>
    simp only [List.all_cons,Bool.and_eq_true] at hws
    refine ih hws.2 ?_
    generalize hs : c :: ws ++ text = s at h
    cases h with
    | nil h =>
      subst hs
      simp only [List.cons_append,List.all_cons,Bool.and_eq_true] at h
      exact .nil h.2
    | @cons ws' raw rest tok ts hws' hraw h =>
      cases ws' with
      | nil =>
        obtain ⟨d,raw',rfl,hd⟩ := hraw.head
        simp only [List.cons_append,List.nil_append,List.cons.injEq] at hs
        rw [← hs.1,hws.1] at hd
        cases hd
      | cons d ws' =>
        simp only [List.cons_append,List.cons.injEq] at hs
        simp only [List.all_cons,Bool.and_eq_true] at hws'
        rw [hs.2]
        exact .cons hws'.2 hraw h

theorem append (h : Spelled text ts) (h' : Spelled text' ts') :
    Spelled (text ++ text') (ts ++ ts') := by
  induction h with
  | nil hws => exact h'.space hws
  | cons hws hraw _ ih =>
    rw [List.append_assoc]
    exact .cons hws hraw ih

theorem length_le (h : Spelled text ts) : ts.length ≤ text.length := by
  induction h with
  | nil => simp
  | cons _ hraw _ ih =>
    have := List.length_pos_of_ne_nil hraw.ne_nil
    simp only [List.length_cons,List.length_append]
    omega

theorem lexeme {raw : Bytes} {tok : Token} (h : Lexeme raw tok) : Spelled raw [tok] := by
  simpa using first h empty

theorem mem (h : Spelled text ts) {tok : Token} (ht : tok ∈ ts) :
    ∃ raw, Lexeme raw tok ∧ ∀ c ∈ raw, c ∈ text := by
  induction h with
  | nil _ => simp at ht
  | cons _ hraw _ ih =>
    rcases List.mem_cons.mp ht with rfl | ht
    · exact ⟨_,hraw,fun c hc => by simp [hc]⟩
    · obtain ⟨raw,hl,hc⟩ := ih ht
      exact ⟨raw,hl,fun c h => by simp [hc c h]⟩

theorem of_append (h : Spelled text (ts ++ ts')) :
    ∃ u u', text = u ++ u' ∧ Spelled u ts ∧ Spelled u' ts' := by
  induction ts generalizing text with
  | nil => exact ⟨[],text,rfl,empty,h⟩
  | cons tok ts ih =>
    cases h with
    | @cons ws raw rest _ _ hws hraw h =>
      obtain ⟨u,u',rfl,hu,hu'⟩ := ih h
      exact ⟨_,u',by simp,.cons hws hraw hu,hu'⟩

theorem of_cons {tok : Token} (h : Spelled text (tok::ts))
    (hc : ∀ c ∈ text.head?, isspace c = false) :
    ∃ raw rest, text = raw ++ rest ∧ Lexeme raw tok ∧ Spelled rest ts := by
  cases h with
  | @cons ws raw rest _ _ hws hraw h =>
    cases ws with
    | nil => exact ⟨raw,rest,rfl,hraw,h⟩
    | cons w ws =>
      simp only [List.all_cons,Bool.and_eq_true] at hws
      simpa [hws.1] using hc w rfl

theorem of_nil (h : Spelled text []) (hc : ∀ c ∈ text.head?, isspace c = false) : text = [] := by
  cases h with
  | nil hws =>
    cases text with
    | nil => rfl
    | cons w ws =>
      simp only [List.all_cons,Bool.and_eq_true] at hws
      simpa [hws.1] using hc w rfl

end Spelled

end Gabby.Json
