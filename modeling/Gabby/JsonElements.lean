import Gabby.DoubleReading
import Gabby.JsonNumbers
import Mathlib.Data.List.Forall2

/-! Arrays of words and numbers as texts. The scanner takes the character after the mark of an
exponent, whatever it is; where that is a comma, two elements are read as one. -/
namespace Gabby.Json

/-! ## Texts of arrays -/

def commaTail (ts : List Bytes) : Bytes := ts.flatMap (chr ',' :: ·)

def commaJoin : List Bytes → Bytes
  | [] => []
  | t::ts => t ++ commaTail ts

def arrayText (ts : List Bytes) : Bytes := chr '[' :: commaJoin ts ++ [chr ']']

def isElementChar (c : UInt8) : Bool := isalnum c || c == chr '.' || c == chr '+' || c == chr '-'

@[simp] theorem commaTail_nil : commaTail [] = [] := rfl
@[simp] theorem commaTail_cons (t : Bytes) (ts : List Bytes) :
    commaTail (t::ts) = chr ',' :: (t ++ commaTail ts) := rfl
@[simp] theorem commaJoin_cons (t : Bytes) (ts : List Bytes) :
    commaJoin (t::ts) = t ++ commaTail ts := rfl

theorem head_commaTail (ts : List Bytes) :
    (commaTail ts).head?.any (fun c => c != chr ',') = false := by
  cases ts <;> rfl

/-- The first text ends at the first comma. -/
theorem commaJoin_inj {t u : Bytes} {ts us : List Bytes} (ht : chr ',' ∉ t) (hu : chr ',' ∉ u)
    (h : t ++ commaTail ts = u ++ commaTail us) : t = u ∧ commaTail ts = commaTail us := by
  have all : ∀ {s : Bytes}, chr ',' ∉ s → s.all fun c => c != chr ',' := fun hs =>
    List.all_eq_true.mpr fun c hc => by
      rw [bne_iff_ne]
      rintro rfl
      exact hs hc
  have h₁ := congrArg (List.takeWhile fun c => c != chr ',') h
  rw [takeWhile_run (all ht) (head_commaTail ts),takeWhile_run (all hu) (head_commaTail us)] at h₁
  subst h₁
  exact ⟨rfl,List.append_cancel_left h⟩

/-! ## Merged elements -/

inductive WordOf : Bytes → Value → Prop
  | num {raw : Bytes} {d : Double} (h : NumberText raw) (hd : Double.stod raw = some d) :
      WordOf raw (.number d)
  | bool (b : Bool) : WordOf (if b then ascii "true" else ascii "false") (.boolean b)
  | nil : WordOf (ascii "null") .nil

theorem WordOf.denotes {raw : Bytes} {v : Value} (h : WordOf raw v) : Denotes raw v := by
  cases h with
  | num h hd => exact ⟨_,.lexeme (.num h hd),.num _⟩
  | bool b => exact ⟨_,.lexeme (.bool b),.bool b⟩
  | nil => exact ⟨_,.lexeme .nil,.nil⟩

/-- A number that ends with the mark of an exponent. -/
inductive Dangling : Bytes → Prop
  | mk (sign : Bytes) (first : UInt8) (int frac : Bytes)
      (hsign : sign = [] ∧ isdigit first ∨ sign = [chr '-']) (hint : int.all isDigitChar)
      (hfrac : frac = [] ∨ ∃ ds, frac = chr '.'::ds ∧ ds.all isDigitChar)
      (hd : Double.stod (sign ++ first::int ++ frac ++ [chr 'e']) ≠ none) :
      Dangling (sign ++ first::int ++ frac ++ [chr 'e'])

/-- The texts as the scanner takes them: one by one, or a number that ends with the mark of an
exponent together with the letters and digits after the next comma. -/
inductive Groups : List Bytes → List Bytes → Prop
  | nil : Groups [] []
  | one {t : Bytes} {ts ls : List Bytes} {v : Value} (h : WordOf t v) (hg : Groups ts ls) :
      Groups (t::ts) (t::ls)
  | two {t u : Bytes} {ts ls : List Bytes} (h : Dangling t) (hu : u.all isalnum)
      (hg : Groups ts ls) : Groups (t::u::ts) ((t ++ chr ',' :: u)::ls)

/-- All texts are taken, and somewhere two of them are taken as one. -/
def Merged (ts : List Bytes) : Prop := ∃ ls, Groups ts ls ∧ ls.length < ts.length

namespace Groups

variable {ts ls : List Bytes}

theorem commaTail_eq (h : Groups ts ls) : commaTail ts = commaTail ls := by
  induction h with
  | nil => rfl
  | one _ _ ih => rw [commaTail_cons,commaTail_cons,ih]
  | two _ _ _ ih => simp [ih]

theorem commaJoin_eq (h : Groups ts ls) : commaJoin ts = commaJoin ls := by
  cases h with
  | nil => rfl
  | one _ h => rw [commaJoin_cons,commaJoin_cons,h.commaTail_eq]
  | two _ _ h => simp [h.commaTail_eq]

theorem length_le (h : Groups ts ls) : ls.length ≤ ts.length := by
  induction h with
  | nil => exact le_refl 0
  | one _ _ ih => simpa using ih
  | two _ _ _ ih =>
    simp only [List.length_cons]
    omega

theorem eq_of_length (h : Groups ts ls) (hlen : ls.length = ts.length) : ts = ls := by
  induction h with
  | nil => rfl
  | one _ _ ih => rw [ih (by simpa using hlen)]
  | two _ _ h ih =>
    have := h.length_le
    simp only [List.length_cons] at hlen
    omega

theorem words (h : Groups ts ls) : ∃ vs, List.Forall₂ WordOf ls vs := by
  induction h with
  | nil => exact ⟨[],.nil⟩
  | one h _ ih =>
    obtain ⟨vs,hvs⟩ := ih
    exact ⟨_,.cons h hvs⟩
  | @two t u ts ls h hu _ ih =>
    obtain ⟨vs,hvs⟩ := ih
    obtain ⟨sign,first,int,frac,hsign,hint,hfrac,hd⟩ := h
    obtain ⟨d,hd⟩ := Option.ne_none_iff_exists'.mp hd
    have hn : NumberText (sign ++ first::int ++ frac ++ [chr 'e'] ++ chr ',' :: u) := by
      have := NumberText.mk sign first int frac (chr 'e'::chr ','::u) hsign hint hfrac
        (.inr ⟨chr ',',u,rfl,hu⟩)
      simpa using this
    exact ⟨_,.cons (.num hn ((Double.stod_stop Double.stops_comma _ _).trans hd)) hvs⟩

end Groups

/-! ## Reading arrays -/

/-- A comma, a word or a number: the only tokens whose lexemes have no other characters. -/
def IsElementToken (tok : Token) : Prop := tok.type = .comma ∨ tok.type.isWord

def isBodyChar (c : UInt8) : Bool := isElementChar c || c == chr ','

theorem isElementToken_of_lexeme {raw : Bytes} {tok : Token} (h : Lexeme raw tok)
    (hc : ∀ c ∈ raw, isBodyChar c = true) : IsElementToken tok := by
  cases h with
  | comma => exact .inl rfl
  | num _ _ => exact .inr rfl
  | bool _ => exact .inr rfl
  | nil => exact .inr rfl
  | str _ => exact absurd (hc (chr '"') (by simp)) (by decide)
  | lbrace => exact absurd (hc (chr '{') (by simp)) (by decide)
  | rbrace => exact absurd (hc (chr '}') (by simp)) (by decide)
  | lbracket => exact absurd (hc (chr '[') (by simp)) (by decide)
  | rbracket => exact absurd (hc (chr ']') (by simp)) (by decide)
  | colon => exact absurd (hc (chr ':') (by simp)) (by decide)

theorem Derives.word {ts : List Token} {v : Value} (h : Derives ts v)
    (ht : ∀ tok ∈ ts, IsElementToken tok) :
    ∃ tok, ts = [tok] ∧ ∀ raw, Lexeme raw tok → WordOf raw v := by
  cases h with
  | num d =>
    refine ⟨_,rfl,fun raw h => ?_⟩
    cases h with
    | num h hd => exact .num h hd
  | bool b =>
    refine ⟨_,rfl,fun raw h => ?_⟩
    cases h with
    | bool => exact .bool b
  | nil =>
    refine ⟨_,rfl,fun raw h => ?_⟩
    cases h with
    | nil => exact .nil
  | str s => simpa [IsElementToken,TokenType.isWord] using ht (.str s) (by simp)
  | array => simpa [IsElementToken,TokenType.isWord] using ht .lbracket (by simp)
  | object => simpa [IsElementToken,TokenType.isWord] using ht .lbrace (by simp)

theorem eq_of_lexeme_comma {raw : Bytes} (h : Lexeme raw .comma) : raw = [chr ','] := by
  cases h
  rfl

/-- Elements spelled after one another are words and numbers with commas before them. -/
theorem commaTail_of_spelled {text : Bytes} {items : List (List Token × Value)}
    (h : Spelled text ((items.map Prod.fst).flatMap (Token.comma :: ·)))
    (hd : ∀ i ∈ items, Derives i.1 i.2) (ht : ∀ i ∈ items, ∀ tok ∈ i.1, IsElementToken tok)
    (hc : ∀ c ∈ text, isspace c = false) :
    ∃ ls, text = commaTail ls ∧ List.Forall₂ WordOf ls (items.map Prod.snd) := by
  have head : ∀ {u : Bytes}, (∀ c ∈ u, isspace c = false) →
      ∀ c ∈ u.head?, isspace c = false := fun h c hc => h c (List.mem_of_mem_head? hc)
  induction items generalizing text with
  | nil => exact ⟨[],h.of_nil (head hc),.nil⟩
  | cons i items ih =>
    obtain ⟨tok,hi,hw⟩ := (hd i (by simp)).word (ht i (by simp))
    simp only [List.map_cons,List.flatMap_cons,hi,List.cons_append,List.nil_append] at h
    obtain ⟨comma,r₁,rfl,hl₁,h₁⟩ := h.of_cons (head hc)
    obtain ⟨raw,r₂,rfl,hl₂,h₂⟩ := h₁.of_cons (head fun c h => hc c (by simp [h]))
    obtain ⟨ls,rfl,hls⟩ := ih h₂ (fun i hi => hd i (by simp [hi]))
      (fun i hi => ht i (by simp [hi])) fun c h => hc c (by simp [h])
    exact ⟨raw::ls,by simp [eq_of_lexeme_comma hl₁],.cons (hw raw hl₂) hls⟩

theorem startsNumeral_comma (u : Bytes) : startsNumeral (chr ','::u) = false := by
  simp [startsNumeral,ascii,List.isPrefixOf,show isdigit (chr ',') = false from rfl,
    show chr ',' ≠ chr '.' by decide,show chr 'i' ≠ tolower (chr ',') by decide,
    show chr 'n' ≠ tolower (chr ',') by decide]

/-- A comma in a number is the character after the mark of an exponent. -/
theorem dangling_of_comma {raw : Bytes} {d : Double} (h : NumberText raw)
    (hd : Double.stod raw = some d) (hc : chr ',' ∈ raw) :
    ∃ t u, raw = t ++ chr ',' :: u ∧ Dangling t ∧ chr ',' ∉ t ∧ u.all isalnum := by
  obtain ⟨sign,first,int,frac,exp,hsign,hint,hfrac,hexp⟩ := h
  have hnot : ∀ {s : Bytes} {p : UInt8 → Bool}, s.all p → p (chr ',') = false → chr ',' ∉ s :=
    fun hs hp hm => by
      have := List.all_eq_true.mp hs _ hm
      simp [hp] at this
  have hs : chr ',' ∉ sign := by rcases hsign with ⟨rfl,-⟩ | rfl <;> decide
  have hf : chr ',' ∉ frac := by
    rcases hfrac with rfl | ⟨ds,rfl,hds⟩
    · simp
    · simpa [show chr ',' ≠ chr '.' by decide] using hnot hds (by decide)
  have hfirst : chr ',' ≠ first := by
    rintro rfl
    rcases hsign with ⟨-,hf⟩ | rfl
    · cases hf
    · simp only [List.nil_append,List.cons_append] at hd
      rw [stod_of_not_startsNumeral (startsNumeral_comma _)] at hd
      cases hd
  have hmant : chr ',' ∉ sign ++ first::int ++ frac := by
    simp [hs,hfirst,hnot hint (by decide),hf]
  rcases hexp with rfl | ⟨c,ds,rfl,hds⟩
  · exact absurd (by simpa using hc) hmant
  · have hce : chr ',' = c := by
      simp only [List.mem_append,List.mem_cons] at hc hmant
      have h₁ := hnot hds (by decide)
      have h₂ : chr ',' ≠ chr 'e' := by decide
      tauto
    subst hce
    have heq : sign ++ first::int ++ frac ++ chr 'e'::chr ','::ds =
        sign ++ first::int ++ frac ++ [chr 'e'] ++ chr ','::ds := by simp
    rw [heq,Double.stod_stop Double.stops_comma] at hd
    refine ⟨_,ds,heq,.mk sign first int frac hsign hint hfrac
      (by rw [hd]; exact Option.some_ne_none d),?_,hds⟩
    rw [List.mem_append,not_or]
    exact ⟨hmant,by decide⟩

theorem not_mem_of_wordOf {raw : Bytes} {v : Value} (h : WordOf raw v) :
    chr ',' ∉ raw ∨ ∃ t u, raw = t ++ chr ',' :: u ∧ Dangling t ∧ chr ',' ∉ t ∧ u.all isalnum := by
  by_cases hc : chr ',' ∈ raw
  · cases h with
    | num h hd => exact .inr (dangling_of_comma h hd hc)
    | bool b => cases b <;> exact absurd hc (by decide)
    | nil => exact absurd hc (by decide)
  · exact .inl hc

/-- Texts without commas that join to words and numbers are grouped into these. -/
theorem groups_of_commaTail {ts ls : List Bytes} {vs : List Value}
    (hl : List.Forall₂ WordOf ls vs) (ht : ∀ t ∈ ts, chr ',' ∉ t)
    (h : commaTail ts = commaTail ls) : Groups ts ls := by
  induction hl generalizing ts with
  | nil =>
    cases ts with
    | nil => exact .nil
    | cons t ts => simp at h
  | @cons raw v ls vs hw _ ih =>
    cases ts with
    | nil => simp at h
    | cons t ts =>
      obtain ⟨ht₀,ht⟩ := List.forall_mem_cons.mp ht
      simp only [commaTail_cons,List.cons.injEq,true_and] at h
      rcases not_mem_of_wordOf hw with hc | ⟨p,u,rfl,hp,hcp,hu⟩
      · obtain ⟨rfl,h₁⟩ := commaJoin_inj ht₀ hc h
        exact .one hw (ih ht h₁)
      · have hcu : chr ',' ∉ u := fun hm => by
          have := List.all_eq_true.mp hu _ hm
          revert this
          decide
        -- the comma belongs to the texts, so the second text ends at the next one
        have h₁ : t ++ commaTail ts = p ++ commaTail (u::ls) := by simpa using h
        obtain ⟨rfl,h₂⟩ := commaJoin_inj ht₀ hcp h₁
        cases ts with
        | nil => simp at h₂
        | cons t' ts =>
          obtain ⟨ht₁,ht⟩ := List.forall_mem_cons.mp ht
          simp only [commaTail_cons,List.cons.injEq,true_and] at h₂
          obtain ⟨rfl,h₃⟩ := commaJoin_inj ht₁ hcu h₂
          exact .two hp hu (ih ht h₃)

/-- Words and numbers joined with commas denote the array of their values. -/
theorem denotes_arrayText {l : Bytes} {v : Value} {ls : List Bytes} {vs : List Value}
    (h : WordOf l v) (hs : List.Forall₂ WordOf ls vs) :
    Denotes (arrayText (l::ls)) (.array (v::vs)) := by
  have tail : ∃ items : List (List Token × Value), items.map Prod.snd = vs ∧
      (∀ i ∈ items, Derives i.1 i.2) ∧
      Spelled (commaTail ls) ((items.map Prod.fst).flatMap (Token.comma :: ·)) := by
    induction hs with
    | nil => exact ⟨[],rfl,by simp,.empty⟩
    | cons hw _ ih =>
      obtain ⟨ts,hts,hd⟩ := hw.denotes
      obtain ⟨items,hi,hds,hsp⟩ := ih
      refine ⟨(ts,_)::items,by rw [List.map_cons,hi],List.forall_mem_cons.mpr ⟨hd,hds⟩,?_⟩
      simpa using (Spelled.lexeme .comma).append (hts.append hsp)
  obtain ⟨items,rfl,hds,hsp⟩ := tail
  obtain ⟨ts,hts,hd⟩ := h.denotes
  have harr := Derives.array ((ts,v)::items) (List.forall_mem_cons.mpr ⟨hd,hds⟩)
  refine ⟨_,?_,harr⟩
  have := ((Spelled.lexeme .lbracket).append (hts.append hsp)).append (.lexeme .rbracket)
  simpa [arrayText,commaSeparated] using this

theorem not_isspace_of_isBodyChar {c : UInt8} : isBodyChar c = true → isspace c = false :=
  forall_byte (p := fun c => isBodyChar c = true → isspace c = false) (by decide +kernel) c

theorem isBodyChar_commaTail {ts : List Bytes} (ht : ∀ t ∈ ts, t.all isElementChar) :
    ∀ c ∈ commaTail ts, isBodyChar c = true := by
  intro c hc
  obtain ⟨t,h,hc⟩ := List.mem_flatMap.mp hc
  rcases List.mem_cons.mp hc with rfl | hc
  · decide
  · simp [isBodyChar,List.all_eq_true.mp (ht t h) c hc]

theorem eq_of_lexeme_lbracket {raw : Bytes} {tok : Token} (h : Lexeme raw tok)
    (hc : raw.head? = some (chr '[')) : raw = [chr '['] ∧ tok = .lbracket := by
  cases h with
  | lbracket => exact ⟨rfl,rfl⟩
  | num h _ => rcases h.head hc with h | h <;> cases h
  | bool b => cases b <;> cases hc
  | _ => cases hc

/-- A text that begins with a bracket spells the tokens of an array, up to a last bracket. -/
theorem array_of_denotes {text : Bytes} {v : Value} (h : Denotes (chr '[' :: text) v) :
    ∃ items : List (List Token × Value), v = .array (items.map Prod.snd) ∧
      (∀ i ∈ items, Derives i.1 i.2) ∧
      Spelled text (commaSeparated (items.map Prod.fst) ++ [.rbracket]) := by
  obtain ⟨ts,hs,hd⟩ := h
  cases ts with
  | nil => exact absurd rfl hd.ne_nil
  | cons tok ts =>
    have hspace : ∀ c ∈ (chr '[' :: text).head?, isspace c = false := by
      rintro c ⟨⟩
      rfl
    obtain ⟨raw,rest,hr,hl,hs⟩ := hs.of_cons hspace
    have hhead : raw.head? = some (chr '[') := by
      obtain ⟨c,raw',rfl,-⟩ := hl.head
      simpa using (congrArg List.head? hr).symm
    obtain ⟨rfl,rfl⟩ := eq_of_lexeme_lbracket hl hhead
    obtain rfl : text = rest := by simpa using hr
    cases hd with
    | array items h => exact ⟨items,rfl,h,hs⟩

/-- What such a text denotes is the array of the words and numbers it joins. -/
theorem groups_of_denotes {ts : List Bytes} {v : Value} (hne : ts ≠ [])
    (ht : ∀ t ∈ ts, t ≠ [] ∧ t.all isElementChar) (h : Denotes (arrayText ts) v) :
    ∃ ls vs, Groups ts ls ∧ List.Forall₂ WordOf ls vs ∧ v = .array vs := by
  obtain ⟨items,rfl,hd,hs⟩ := array_of_denotes
    (show Denotes (chr '[' :: (commaJoin ts ++ [chr ']'])) v by simpa [arrayText] using h)
  cases ts with
  | nil => exact absurd rfl hne
  | cons t ts =>
    have hbody : ∀ c ∈ commaJoin (t::ts), isBodyChar c = true := fun c hc =>
      isBodyChar_commaTail (fun u hu => (ht u hu).2) c (List.mem_cons_of_mem _ hc)
    have hspace : ∀ c ∈ commaJoin (t::ts) ++ [chr ']'], isspace c = false := by
      intro c hc
      rcases List.mem_append.mp hc with hc | hc
      · exact not_isspace_of_isBodyChar (hbody c hc)
      · rw [List.mem_singleton.mp hc]
        rfl
    -- the last token is the bracket at the end of the text
    obtain ⟨u,w,huw,hu,hw⟩ := hs.of_append
    rw [huw] at hspace
    obtain ⟨raw,rest,rfl,hl,hr⟩ := hw.of_cons fun c hc =>
      hspace c (by simp [List.mem_of_mem_head? hc])
    obtain rfl := hr.of_nil fun c hc => hspace c (by simp [List.mem_of_mem_head? hc])
    have hraw : raw = [chr ']'] := by cases hl; rfl
    subst hraw
    rw [List.append_nil] at huw
    rw [← List.append_cancel_right huw] at hu
    have htok : ∀ tok ∈ commaSeparated (items.map Prod.fst), IsElementToken tok := by
      intro tok htok
      obtain ⟨raw,hl,hc⟩ := hu.mem htok
      exact isElementToken_of_lexeme hl fun c h => hbody c (hc c h)
    cases items with
    | nil =>
      have := hu.of_nil fun c hc => not_isspace_of_isBodyChar (hbody c (List.mem_of_mem_head? hc))
      simp [(ht t (by simp)).1] at this
    | cons i items =>
      simp only [List.map_cons,commaSeparated] at hu htok
      obtain ⟨tok,hi,hword⟩ := (hd i (by simp)).word fun tok h => htok tok (by simp [h])
      rw [hi] at hu
      obtain ⟨raw,rest,hrest,hl,hr⟩ := hu.of_cons fun c hc =>
        not_isspace_of_isBodyChar (hbody c (List.mem_of_mem_head? hc))
      obtain ⟨ls,rfl,hls⟩ := commaTail_of_spelled hr (fun i hi => hd i (by simp [hi]))
        (fun i hi tok h => htok tok (by simp; exact .inr ⟨i.1,⟨i.2,hi⟩,.inr h⟩))
        fun c hc => not_isspace_of_isBodyChar (hbody c (by rw [hrest]; simp [hc]))
      refine ⟨raw::ls,_,groups_of_commaTail (.cons (hword raw hl) hls) (fun u hu hc => ?_) ?_,
        .cons (hword raw hl) hls,rfl⟩
      · have := List.all_eq_true.mp (ht u hu).2 _ hc
        revert this
        decide
      · rw [commaTail_cons,commaTail_cons,← hrest,commaJoin_cons]

/-- A text whose length is not an `int` is cut before its last bracket. -/
theorem length_lt_of_parse {ts : List Bytes} {v : Value} (ht : ∀ t ∈ ts, t.all isElementChar)
    (h : parseString (arrayText ts) = .ok v) : (arrayText ts).length < 2^31 := by
  by_contra hlen
  obtain ⟨hd,hk⟩ := parseString_denotes h
  generalize hn : (toInt32 (arrayText ts).length).toNat = n at hd hk
  have hle : ((arrayText ts).take n).length = n := by
    rw [List.length_take]
    rw [← hk] at hn
    simp at hn
    omega
  rw [hle] at hk
  obtain ⟨-,hlt⟩ := toInt32_lt hk.symm (by omega)
  cases n with
  | zero => exact not_denotes_nil hd
  | succ n =>
    have htake : (arrayText ts).take (n+1) = chr '[' :: (commaJoin ts).take n := by
      rw [arrayText,List.cons_append,List.take_succ_cons,List.take_append_of_le_length]
      simp only [arrayText,List.length_append,List.length_cons,List.length_nil] at hlt
      omega
    rw [htake] at hd
    obtain ⟨items,-,-,hs⟩ := array_of_denotes hd
    obtain ⟨raw,hl,hc⟩ := hs.mem (show Token.rbracket ∈ _ by simp)
    have hmem : chr ']' ∈ commaJoin ts := List.mem_of_mem_take (hc _ (by cases hl; simp))
    cases ts with
    | nil => simp [commaJoin] at hmem
    | cons t ts =>
      have := isBodyChar_commaTail ht (chr ']') (List.mem_cons_of_mem _ hmem)
      revert this
      decide

/-- No element is lost or merged, and each is the value that its text has alone: the same one, so
that NaN, which is not equal to itself, needs no exception. -/
def KeepsElements (ts : List Bytes) : Prop := ∀ v, parseString (arrayText ts) = .ok v →
  ∃ vs, v = .array vs ∧ List.Forall₂ (fun t w => parseString t = .ok w) ts vs

theorem length_le_arrayText {t : Bytes} {ts : List Bytes} (h : t ∈ ts) :
    t.length ≤ (arrayText ts).length := by
  have hsub : (chr ',' :: t).Sublist (commaTail ts) := by
    rw [commaTail,List.flatMap_def]
    exact List.sublist_flatten_of_mem (List.mem_map_of_mem h)
  have hlen := hsub.length_le
  cases ts with
  | nil => simp at h
  | cons u us =>
    simp only [commaTail_cons,List.length_cons,List.length_append] at hlen
    simp only [arrayText,commaJoin_cons,List.length_append,List.length_cons]
    omega

/-- Merged texts are parsed as an array with fewer elements. -/
theorem not_keepsElements_of_merged {ts : List Bytes} (hne : ts ≠ [])
    (hlen : (arrayText ts).length < 2^31) (hm : Merged ts) : ¬ KeepsElements ts := by
  obtain ⟨ls,hg,hlt⟩ := hm
  obtain ⟨vs,hvs⟩ := hg.words
  have hd : Denotes (arrayText ts) (.array vs) := by
    rw [arrayText,hg.commaJoin_eq]
    cases hvs with
    | nil =>
      cases hg
      exact absurd rfl hne
    | cons hw hvs => exact denotes_arrayText hw hvs
  intro hk
  obtain ⟨ws,hw,hf⟩ := hk _ ((parseString_eq_ok hlen).mpr hd)
  cases hw
  have := hf.length_eq
  rw [← hvs.length_eq] at this
  omega

/-- The elements of an array are kept exactly when the text is too long to be parsed, or the
texts cannot be taken with two of them merged. -/
theorem parse_elements_iff (ts : List Bytes) (hne : ts ≠ [])
    (ht : ∀ t ∈ ts, t ≠ [] ∧ t.all isElementChar) :
    KeepsElements ts ↔ 2^31 ≤ (arrayText ts).length ∨ ¬ Merged ts := by
  constructor
  · intro hk
    by_contra hn
    simp only [not_or,not_le,not_not] at hn
    exact not_keepsElements_of_merged hne hn.1 hn.2 hk
  · intro hcond v hv
    have hlen := length_lt_of_parse (fun t h => (ht t h).2) hv
    obtain ⟨ls,vs,hg,hvs,rfl⟩ := groups_of_denotes hne ht ((parseString_eq_ok hlen).mp hv)
    have heq : ls.length = ts.length := by
      by_contra hne'
      have hle := hg.length_le
      rcases hcond with h | h
      · omega
      · exact h ⟨ls,hg,by omega⟩
    obtain rfl := hg.eq_of_length heq
    have hb : ∀ t ∈ ts, t.length < 2^31 := fun t h => (length_le_arrayText h).trans_lt hlen
    refine ⟨vs,rfl,((List.forall₂_and_left _ _).mpr ⟨hb,hvs⟩).imp fun t w h => ?_⟩
    exact (parseString_eq_ok h.1).mpr h.2.denotes

theorem parse_elements_iff_pair : KeepsElements [ascii "1",ascii "true"] ↔
    2^31 ≤ (arrayText [ascii "1",ascii "true"]).length ∨ ¬ Merged [ascii "1",ascii "true"] :=
  parse_elements_iff _ (by decide) (by decide)

/-- The texts `1e` and `2` become one element. -/
theorem parse_elements_merged : ¬ ∀ ts : List Bytes, ts ≠ [] →
    (∀ t ∈ ts, t ≠ [] ∧ t.all isElementChar) → KeepsElements ts := by
  intro h
  have hg : Groups [ascii "1e",ascii "2"] [ascii "1e,2"] :=
    .two (.mk [] (chr '1') [] [] (.inl ⟨rfl,rfl⟩) rfl (.inl rfl) (by decide +kernel)) rfl .nil
  exact not_keepsElements_of_merged (by decide) (by decide) ⟨_,hg,by decide⟩
    (h [ascii "1e",ascii "2"] (by decide) (by decide))

end Gabby.Json
