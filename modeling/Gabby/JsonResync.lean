import Gabby.JsonLexemes
import Mathlib.Data.List.Chain

/-! Where the tokens of a text that is spelled somehow must begin, and how many quotes and
backslashes its strings take. -/
namespace Gabby.Json

/-! ## Quotes and backslashes -/

def isSpecial (c : UInt8) : Bool := c == chr '"' || c == chr '\\'

def specials (s : Bytes) : ℕ := s.countP isSpecial

@[simp] theorem specials_nil : specials [] = 0 := rfl
@[simp] theorem specials_cons (c : UInt8) (s : Bytes) :
    specials (c::s) = specials s + if isSpecial c then 1 else 0 := List.countP_cons
@[simp] theorem specials_append (s t : Bytes) : specials (s ++ t) = specials s + specials t :=
  List.countP_append

theorem isSpecial_quote : isSpecial (chr '"') = true := by decide
theorem isSpecial_backslash : isSpecial (chr '\\') = true := by decide

theorem isSpecial_eq_false {c : UInt8} : isSpecial c = false ↔ c ≠ chr '"' ∧ c ≠ chr '\\' := by
  simp [isSpecial]

namespace StringBody

variable {raw s : Bytes}

theorem specials_le (h : StringBody raw s) : 2 * specials s ≤ specials raw := by
  induction h with
  | nil => simp
  | plain c hq hb _ _ ih =>
    have hc := isSpecial_eq_false.mpr ⟨hq,hb⟩
    simp only [specials_cons,hc]
    simpa using ih
  | escape c _ _ ih =>
    simp only [specials_cons,isSpecial_backslash,if_true]
    split <;> omega

theorem no_newline (h : StringBody raw s) : chr '\n' ∉ s := by
  induction h with
  | nil => simp
  | plain c _ _ hn _ ih => simpa using ⟨Ne.symm hn,ih⟩
  | escape c hn _ ih => simpa using ⟨Ne.symm hn,ih⟩

theorem length_le (h : StringBody raw s) : s.length ≤ raw.length := by
  induction h with
  | nil => simp
  | plain c _ _ _ _ ih => simpa using ih
  | escape c _ _ ih =>
    simp only [List.length_cons]
    omega

theorem specials_eq_zero (h : StringBody raw s) (hb : chr '\\' ∉ raw) : specials s = 0 := by
  induction h with
  | nil => rfl
  | plain c hq hb' _ _ ih =>
    rw [specials_cons,isSpecial_eq_false.mpr ⟨hq,hb'⟩,ih fun h => hb (by simp [h])]
    rfl
  | escape c _ _ _ => simp at hb

theorem head_ne_quote {b : Bytes} (h : StringBody (chr '"'::b) s) : False := by
  generalize hr : chr '"'::b = raw at h
  cases h with
  | nil => cases hr
  | plain c hq => exact hq (List.cons.inj hr).1.symm
  | escape c => exact absurd (List.cons.inj hr).1 (by decide)

/-- A quote in the text of a string follows a backslash. -/
theorem quote_escaped {a b : Bytes} {c : UInt8} (h : StringBody raw s)
    (heq : raw = a ++ c::chr '"'::b) : c = chr '\\' := by
  induction h generalizing a with
  | nil => simp at heq
  | plain d _ _ _ h ih =>
    cases a with
    | nil =>
      obtain ⟨rfl,rfl⟩ := List.cons.inj heq
      exact h.head_ne_quote.elim
    | cons e a => exact ih (List.cons.inj heq).2
  | escape d _ h ih =>
    cases a with
    | nil => exact (List.cons.inj heq).1.symm
    | cons e a =>
      cases a with
      | nil =>
        obtain ⟨rfl,rfl⟩ := List.cons.inj (List.cons.inj heq).2
        exact h.head_ne_quote.elim
      | cons e' a => exact ih (List.cons.inj (List.cons.inj heq).2).2

/-- A text without quotes and backslashes stands for itself, up to the first quote. -/
theorem eq_of_append {k y rest : Bytes} (h : StringBody raw s) (hk : specials k = 0)
    (heq : raw ++ chr '"'::rest = k ++ chr '"'::y) : raw = k ∧ s = k ∧ rest = y := by
  induction h generalizing k with
  | nil =>
    cases k with
    | nil => exact ⟨rfl,rfl,(List.cons.inj heq).2⟩
    | cons c k =>
      obtain ⟨rfl,-⟩ := List.cons.inj heq
      simp [isSpecial_quote] at hk
  | plain c hq _ _ _ ih =>
    cases k with
    | nil => exact absurd (List.cons.inj heq).1 hq
    | cons d k =>
      obtain ⟨rfl,h₂⟩ := List.cons.inj heq
      rw [specials_cons] at hk
      obtain ⟨rfl,rfl,rfl⟩ := ih (by omega) h₂
      exact ⟨rfl,rfl,rfl⟩
  | escape c _ _ _ =>
    cases k with
    | nil => exact absurd (List.cons.inj heq).1 (by decide)
    | cons d k =>
      obtain ⟨rfl,-⟩ := List.cons.inj heq
      simp [isSpecial_backslash] at hk

end StringBody

/-! ## Strings of a spelled text -/

namespace Spelled

variable {text : Bytes} {ts : List Token}

theorem exists_body (h : Spelled text ts) {x : Bytes} (hx : .str x ∈ ts) :
    ∃ raw, StringBody raw x ∧ chr '"'::raw ++ [chr '"'] <:+: text := by
  induction h with
  | nil _ => simp at hx
  | @cons ws raw rest tok ts _ hraw _ ih =>
    rcases List.mem_cons.mp hx with rfl | hx
    · cases hraw with
      | str h => exact ⟨_,h,ws,rest,rfl⟩
    · obtain ⟨raw',h,hin⟩ := ih hx
      exact ⟨raw',h,hin.trans (List.suffix_append _ _).isInfix⟩

theorem specials_le (h : Spelled text ts) {x : Bytes} (hx : .str x ∈ ts) :
    2 * specials x + 2 ≤ specials text := by
  obtain ⟨raw,hr,hin⟩ := h.exists_body hx
  have h₁ := hr.specials_le
  have h₂ : specials (chr '"'::raw ++ [chr '"']) ≤ specials text :=
    hin.sublist.countP_le
  simp [isSpecial_quote] at h₂
  omega

theorem no_newline (h : Spelled text ts) {x : Bytes} (hx : .str x ∈ ts) : chr '\n' ∉ x := by
  obtain ⟨raw,hr,-⟩ := h.exists_body hx
  exact hr.no_newline

theorem length_str_le (h : Spelled text ts) {x : Bytes} (hx : .str x ∈ ts) :
    x.length + 2 ≤ text.length := by
  obtain ⟨raw,hr,hin⟩ := h.exists_body hx
  have h₁ := hr.length_le
  have h₂ := hin.length_le
  simp at h₂
  omega

theorem specials_eq_zero (h : Spelled text ts) (hb : chr '\\' ∉ text) {x : Bytes}
    (hx : .str x ∈ ts) : specials x = 0 := by
  obtain ⟨raw,hr,hin⟩ := h.exists_body hx
  exact hr.specials_eq_zero fun h => hb (hin.mem (by simp [h]))

end Spelled

/-! ## Forced token boundaries -/

/-- A word that no token begins with. -/
def Bare (y : Bytes) : Prop := ∃ c y', y = c::y' ∧ isalpha c ∧
  ∀ w ∈ [ascii "true",ascii "false",ascii "null"], ¬ w <+: y

theorem not_isspace_of_isalpha {c : UInt8} (h : isalpha c = true) : isspace c = false := by
  cases hs : isspace c with
  | false => rfl
  | true =>
    have := not_isalnum_of_isspace hs
    simp [isalnum_of_isalpha h] at this

theorem Lexeme.bare {raw rest : Bytes} {tok : Token} (h : Lexeme raw tok) :
    ¬ Bare (raw ++ rest) := by
  rintro ⟨c,y,hy,hc,hw⟩
  have hhead : ∀ d raw', raw = d::raw' → isalpha d = true := by
    rintro d raw' rfl
    obtain ⟨rfl,-⟩ := List.cons.inj hy
    exact hc
  have hne := h.ne_nil
  cases h with
  | str h => exact absurd (hhead _ _ rfl) (by decide)
  | bool b => cases b <;> exact hw _ (by simp) (List.prefix_append _ _)
  | nil => exact hw _ (by simp) (List.prefix_append _ _)
  | num h hd =>
    obtain ⟨d,raw,rfl⟩ := List.exists_cons_of_ne_nil hne
    have hda := hhead d raw rfl
    rcases h.head rfl with rfl | hdig
    · exact absurd hda (by decide)
    · rw [not_isdigit_of_isalpha hda] at hdig
      cases hdig
  | _ => exact absurd (hhead _ _ rfl) (by decide)

theorem Spelled.bare {y : Bytes} {ts : List Token} (h : Spelled y ts) : ¬ Bare y := by
  intro hb
  have hspace : ∀ ws rest, y = ws ++ rest → ws.all isspace → ws = [] := by
    rintro ws rest rfl hws
    obtain ⟨c,y,hy,hc,-⟩ := hb
    cases ws with
    | nil => rfl
    | cons d ws =>
      obtain ⟨rfl,-⟩ := List.cons.inj hy
      simp [not_isspace_of_isalpha hc] at hws
  cases h with
  | nil hws =>
    obtain rfl := hspace y [] (by simp) hws
    obtain ⟨c,y,hy,-⟩ := hb
    cases hy
  | @cons ws raw rest tok ts hws hraw h =>
    obtain rfl := hspace ws (raw ++ rest) (by simp) hws
    exact hraw.bare hb

/-- A byte that leaves no token unfinished before a quote. -/
def isNeutral (c : UInt8) : Bool := c != chr '\\' && c != chr '"' && c != chr '-' && c != chr 'e'

/-- In a number a quote follows a minus sign or the mark of an exponent. -/
theorem NumberText.before_quote {raw a b : Bytes} {c : UInt8} (h : NumberText raw)
    (heq : raw = a ++ c::chr '"'::b) : c = chr '-' ∨ c = chr 'e' := by
  have htail : ∀ {d : UInt8} {l : Bytes}, (∀ x ∈ l, x ≠ chr '"') →
      (d::l).IsChain fun c d => d = chr '"' → c = chr '-' ∨ c = chr 'e' := by
    intro d l hl
    induction l generalizing d with
    | nil => exact .singleton _
    | cons x l ih =>
      exact .cons_cons (fun hx => absurd hx (hl x (by simp))) (ih fun y hy => hl y (by simp [hy]))
  have halnum : ∀ {l : Bytes}, l.all isalnum → ∀ x ∈ l, x ≠ chr '"' := by
    rintro l hl x hx rfl
    exact absurd (List.all_eq_true.mp hl _ hx) (by decide)
  have hdigit : ∀ {l : Bytes}, l.all isDigitChar → ∀ x ∈ l, x ≠ chr '"' := by
    rintro l hl x hx rfl
    exact absurd (List.all_eq_true.mp hl _ hx) (by decide)
  have hchain : raw.IsChain fun c d => d = chr '"' → c = chr '-' ∨ c = chr 'e' := by
    obtain ⟨sign,first,int,frac,exp,hsign,hint,hfrac,hexp⟩ := h
    have hmid : (first::(int ++ frac)).IsChain
        fun c d => d = chr '"' → c = chr '-' ∨ c = chr 'e' := by
      refine htail fun x hx => ?_
      rcases List.mem_append.mp hx with hx | hx
      · exact hdigit hint x hx
      · rcases hfrac with rfl | ⟨ds,rfl,hds⟩
        · simp at hx
        · rcases List.mem_cons.mp hx with rfl | hx
          · decide
          · exact hdigit hds x hx
    have hleft : (sign ++ first::(int ++ frac)).IsChain
        fun c d => d = chr '"' → c = chr '-' ∨ c = chr 'e' := by
      rcases hsign with ⟨rfl,-⟩ | rfl
      · exact hmid
      · exact .cons_cons (fun _ => .inl rfl) hmid
    have hright : exp.IsChain fun c d => d = chr '"' → c = chr '-' ∨ c = chr 'e' := by
      rcases hexp with rfl | ⟨c,ds,rfl,hds⟩
      · exact .nil
      · exact .cons_cons (fun _ => .inr rfl) (htail (halnum hds))
    have hall := List.isChain_append.mpr ⟨hleft,hright,fun x _ y hy => ?_⟩
    · simpa using hall
    · rcases hexp with rfl | ⟨c,ds,rfl,-⟩
      · simp at hy
      · obtain rfl : chr 'e' = y := by simpa using hy
        exact fun he => absurd he (by decide)
  rw [heq] at hchain
  exact (List.isChain_append_cons_cons.mp hchain).2.1 rfl

/-- After a neutral byte a quote inside a token can only end a string. -/
theorem Lexeme.quote_inside {a b : Bytes} {c : UInt8} {raw : Bytes} {tok : Token}
    (h : Lexeme raw tok) (hc : isNeutral c = true) (heq : raw = a ++ c::chr '"'::b) : b = [] := by
  simp only [isNeutral,Bool.and_eq_true,bne_iff_ne] at hc
  obtain ⟨⟨⟨hb,hq⟩,hm⟩,he⟩ := hc
  have hmem : chr '"' ∈ raw := by simp [heq]
  cases h with
  | @str raw s h =>
    rcases List.eq_nil_or_concat' b with rfl | ⟨b,d,rfl⟩
    · rfl
    cases a with
    | nil => exact absurd (List.cons.inj heq).1.symm hq
    | cons q a =>
      have h₁ : raw ++ [chr '"'] = (a ++ c::chr '"'::b) ++ [d] := by
        simpa using (List.cons.inj heq).2
      exact absurd (h.quote_escaped (List.append_inj_left' h₁ rfl)) hb
  | num h hd =>
    rcases h.before_quote heq with rfl | rfl
    · exact absurd rfl hm
    · exact absurd rfl he
  | bool b => cases b <;> exact absurd hmem (by decide)
  | _ => exact absurd hmem (by decide)

/-- A quote between a neutral byte and a bare word is where a token begins. -/
theorem Spelled.resync {x y : Bytes} {c : UInt8} {ts : List Token}
    (h : Spelled (x ++ c::chr '"'::y) ts) (hc : isNeutral c = true) (hy : Bare y) :
    ∃ ts₁ ts₂, ts = ts₁ ++ ts₂ ∧ Spelled (x ++ [c]) ts₁ ∧ Spelled (chr '"'::y) ts₂ := by
  generalize ht : x ++ c::chr '"'::y = text at h
  induction h generalizing x with
  | @nil ws hws =>
    have : isspace (chr '"') = true := List.all_eq_true.mp hws _ (by simp [← ht])
    exact absurd this (by decide)
  | @cons ws raw rest tok ts hws hraw h ih =>
    have hend : ∀ {b : Bytes} {e : UInt8} {u : Bytes}, x ++ [c] = u ++ (b ++ [e]) →
        e = c ∧ x = u ++ b := by
      intro b e u he
      rw [← List.append_assoc] at he
      obtain ⟨h₁,h₂⟩ := List.append_inj' he rfl
      exact ⟨(List.cons.inj h₂).1.symm,h₁⟩
    have ht' : (ws ++ raw) ++ rest = (x ++ [c]) ++ chr '"'::y := by simpa using ht.symm
    rcases List.append_eq_append_iff.mp ht' with ⟨b,hb,hrest⟩ | ⟨b,hb,hrest⟩
    · -- the token ends before the quote
      rcases List.eq_nil_or_concat' b with rfl | ⟨b,e,rfl⟩
      · refine ⟨[tok],ts,rfl,?_,by simpa [hrest] using h⟩
        rw [hb,List.append_nil]
        exact Spelled.space hws (.lexeme hraw)
      · obtain ⟨rfl,rfl⟩ := hend hb
        obtain ⟨ts₁,ts₂,rfl,h₁,h₂⟩ := ih (x:=b) (by simpa using hrest.symm)
        exact ⟨tok::ts₁,ts₂,rfl,by simpa using Spelled.cons hws hraw h₁,h₂⟩
    · cases b with
      | nil =>
        rw [List.append_nil] at hb
        rw [List.nil_append] at hrest
        refine ⟨[tok],ts,rfl,?_,hrest ▸ h⟩
        rw [← hb]
        exact Spelled.space hws (.lexeme hraw)
      | cons q b =>
        -- the token, or the space before it, goes beyond the quote
        obtain ⟨rfl,hy'⟩ : chr '"' = q ∧ y = b ++ rest := by simpa using hrest
        rcases List.append_eq_append_iff.mp hb with ⟨d,hd,hraw'⟩ | ⟨d,hd,hraw'⟩
        · rcases List.eq_nil_or_concat' d with rfl | ⟨d,e,rfl⟩
          · rw [List.append_nil] at hd
            refine ⟨[],tok::ts,rfl,hd ▸ .nil hws,?_⟩
            rw [List.nil_append] at hraw'
            rw [hy',← List.cons_append,← hraw']
            exact .first hraw h
          · obtain ⟨rfl,-⟩ := hend hd
            obtain rfl := hraw.quote_inside hc (by simpa using hraw')
            rw [List.nil_append] at hy'
            exact absurd (hy' ▸ hy) h.bare
        · cases d with
          | nil =>
            rw [List.append_nil] at hd
            refine ⟨[],tok::ts,rfl,hd ▸ .nil hws,?_⟩
            rw [List.nil_append] at hraw'
            rw [hy',← List.cons_append,hraw']
            exact .first hraw h
          | cons q d =>
            obtain ⟨rfl,-⟩ := List.cons.inj hraw'
            have : isspace (chr '"') = true := List.all_eq_true.mp hws _ (by simp [hd])
            exact absurd this (by decide)

theorem Spelled.first_str {k y : Bytes} {ts : List Token} (hk : specials k = 0)
    (h : Spelled (chr '"'::k ++ chr '"'::y) ts) : ∃ ts', ts = .str k::ts' ∧ Spelled y ts' := by
  generalize ht : chr '"'::k ++ chr '"'::y = text at h
  cases h with
  | nil hws =>
    have : isspace (chr '"') = true := List.all_eq_true.mp hws _ (by simp [← ht])
    exact absurd this (by decide)
  | @cons ws raw rest tok ts hws hraw h =>
    have hws' : ws = [] := by
      cases ws with
      | nil => rfl
      | cons c ws =>
        obtain ⟨rfl,-⟩ : chr '"' = c ∧ _ := by simpa using ht
        simp [show isspace (chr '"') = false by decide] at hws
    subst hws'
    have hhead : raw.head? = some (chr '"') := by
      obtain ⟨c,raw',rfl,-⟩ := hraw.head
      obtain ⟨rfl,-⟩ : chr '"' = c ∧ _ := by simpa using ht
      rfl
    cases hraw with
    | str hs =>
      obtain ⟨rfl,rfl,rfl⟩ := hs.eq_of_append (k:=k) (y:=y) hk (by simpa using ht.symm)
      exact ⟨_,rfl,h⟩
    | num hn hd =>
      rcases hn.head hhead with h | h <;> exact absurd h (by decide)
    | bool b => cases b <;> exact absurd hhead (by decide)
    | _ => exact absurd hhead (by decide)

end Gabby.Json
