import Gabby.JsonTape
import Gabby.JsonLexemes

/-! What the scanner delivers from a tape: every token comes with its lexeme, whether or not
reads failed in between, and the only exceptions are parsing errors and failed reads. -/
namespace Gabby.Json.Tape

open Exec
open Gabby.Stream (bytesOf bytesOf_append)

/-- Between two states of the tape these bytes were taken off it. -/
structure Took (t : Tape) (u : Bytes) (t' : Tape) : Prop where
  input : ∃ l, t.input = l ++ t'.input ∧ bytesOf l = u
  ending : t'.ending = t.ending
  pos : t'.pos = t.pos + u.length

def Plain (t : Tape) : Prop := t.ending = .eof ∧ ∀ i ∈ t.input, ∃ b, i = .byte b

def Next (t : Tape) (b : UInt8) : Prop := ∃ l, t.input = .byte b :: l

/-- How scanning may end early: a parsing error, or a failed read where there are any. -/
def Fails (plain : Prop) (e : Stop Exn) : Prop :=
  ∃ x, e = .throw x ∧ ((∃ w, x = .parsingError w) ∨ ¬ plain ∧ ∃ n, x = .systemError n)

namespace Took

variable {t t' t'' : Tape} {u u' : Bytes}

theorem refl (t : Tape) : Took t [] t := ⟨⟨[],rfl,rfl⟩,rfl,by simp⟩

theorem trans (h : Took t u t') (h' : Took t' u' t'') : Took t (u ++ u') t'' := by
  obtain ⟨⟨l,hl,hu⟩,he,hp⟩ := h
  obtain ⟨⟨l',hl',hu'⟩,he',hp'⟩ := h'
  refine ⟨⟨l ++ l',by rw [hl,hl',List.append_assoc],by rw [bytesOf_append,hu,hu']⟩,
    he'.trans he,?_⟩
  rw [hp',hp,List.length_append]
  omega

theorem plain (h : Took t u t') (ht : t.Plain) : t'.Plain := by
  obtain ⟨l,hl,-⟩ := h.input
  exact ⟨h.ending.trans ht.1,fun i hi => ht.2 i (by simp [hl,hi])⟩

theorem bytesOf_eq (h : Took t u t') : bytesOf t.input = u ++ bytesOf t'.input := by
  obtain ⟨l,hl,hu⟩ := h.input
  rw [hl,bytesOf_append,hu]

theorem length_le (h : Took t u t') : t'.input.length + u.length ≤ t.input.length := by
  obtain ⟨l,hl,rfl⟩ := h.input
  have hb : ∀ l, (bytesOf l).length ≤ l.length := by
    intro l
    induction l with
    | nil => simp
    | cons i l ih => cases i <;> simp <;> omega
  have := hb l
  rw [hl,List.length_append]
  omega

end Took

/-! ## Characters -/

theorem run_getChar (t : Tape) :
    (∃ b t', t.Next b ∧ getChar.run t = (.ok (some b),t') ∧ Took t [b] t' ∧
      t'.held = false ∧ t.input = .byte b :: t'.input) ∨
    ∃ t', getChar.run t = (.ok none,t') ∧ Took t [] t' ∧ (t.Plain → t'.failure = none) := by
  rcases t with ⟨input,ending,pos,held,failure⟩
  rcases input with _ | ⟨b | e,l⟩
  · refine .inr ?_
    cases ending with
    | eof => exact ⟨_,rfl,⟨⟨[],rfl,rfl⟩,rfl,by simp [getChar,step]⟩,fun _ => rfl⟩
    | fail e => exact ⟨_,rfl,⟨⟨[],rfl,rfl⟩,rfl,by simp [getChar,step]⟩,fun h => by cases h.1⟩
  · exact .inl ⟨b,_,⟨l,rfl⟩,rfl,⟨⟨[.byte b],rfl,rfl⟩,rfl,by simp [getChar,step]⟩,rfl,rfl⟩
  · refine .inr ⟨_,rfl,⟨⟨[.fail e],rfl,rfl⟩,rfl,by simp [getChar,step]⟩,fun h => ?_⟩
    obtain ⟨b,hb⟩ := h.2 (.fail e) (by simp)
    cases hb

theorem run_getChar_next {t : Tape} {b : UInt8} (h : t.Next b) :
    ∃ t', getChar.run t = (.ok (some b),t') ∧ Took t [b] t' ∧ t'.held = false ∧
      t.input = .byte b :: t'.input := by
  obtain ⟨l,hl⟩ := h
  rcases t with ⟨input,ending,pos,held,failure⟩
  dsimp only at hl
  subst hl
  exact ⟨_,rfl,⟨⟨[.byte b],rfl,rfl⟩,rfl,by simp [getChar,step]⟩,rfl,rfl⟩

/-- Putting back the character that was just read undoes the read. -/
theorem run_ungetChar {t t' : Tape} {b : UInt8} (h : Took t [b] t') (hh : t'.held = false)
    (hi : t.input = .byte b :: t'.input) :
    ∃ t'', (ungetChar b).run t' = (.ok (),t'') ∧ Took t [] t'' ∧ t''.Next b := by
  refine ⟨{ t' with input := .byte b :: t'.input, pos := t'.pos-1, held := true },
    by simp [ungetChar,hh],⟨⟨[],by simpa using hi,rfl⟩,h.ending,?_⟩,⟨_,rfl⟩⟩
  have := h.pos
  simp at this ⊢
  omega

section Scanning

variable {plain : Prop} {t : Tape} (hp : plain → t.Plain)
include hp

theorem wp_peek : Wp Scan.peek (fun c t' => Took t [] t' ∧ ∀ b, c = some b → t'.Next b)
    (Fails plain) t := by
  simp only [Scan.peek,wp_bind]
  rcases run_getChar t with ⟨b,t',-,hr,ht,hh,hi⟩ | ⟨t',hr,ht,hf⟩
  · obtain ⟨t'',hr',ht',hn⟩ := run_ungetChar ht hh hi
    refine wp_of_ok hr ?_
    simp only [wp_bind,wp_pure]
    refine wp_of_ok hr' ⟨ht',fun c hc => ?_⟩
    cases hc
    exact hn
  · refine wp_of_ok hr ?_
    simp only [wp_bind,wp_read]
    split
    · exact ⟨ht,by simp⟩
    simp only [wp_bind,wp_read]
    split
    · rename_i he
      refine ⟨_,rfl,.inr ⟨fun hpl => ?_,_,rfl⟩⟩
      simp [CharSource.ferror,hf (hp hpl)] at he
    · exact ⟨ht,by simp⟩

theorem wp_advance : Wp Scan.advance (fun b t' => Took t [b] t') (Fails plain) t := by
  simp only [Scan.advance,wp_bind]
  rcases run_getChar t with ⟨b,t',-,hr,ht,-,-⟩ | ⟨t',hr,ht,hf⟩
  · exact wp_of_ok hr ht
  · refine wp_of_ok hr ?_
    simp only [wp_bind,wp_read]
    split
    · rename_i he
      refine ⟨_,rfl,.inr ⟨fun hpl => ?_,_,rfl⟩⟩
      simp [CharSource.ferror,hf (hp hpl)] at he
    · exact ⟨_,rfl,.inl ⟨_,rfl⟩⟩

omit hp in
theorem wp_advance_next {b : UInt8} (h : t.Next b) :
    Wp Scan.advance (fun c t' => c = b ∧ Took t [b] t') (Fails plain) t := by
  obtain ⟨t',hr,ht,-⟩ := run_getChar_next h
  simp only [Scan.advance,wp_bind]
  exact wp_of_ok hr ⟨rfl,ht⟩

omit hp in
theorem wp_skipWhitespace : Wp Scan.skipWhitespace
    (fun _ t' => ∃ ws : Bytes, ws.all isspace ∧ Took t ws t') (Fails plain) t := by
  refine wp_loop (J:=fun _ t' => ∃ ws : Bytes, ws.all isspace ∧ Took t ws t')
    (fun t => t.input.length) (fun t => by simp [CharSource.reads]) (fun _ t' hj => ?_) ()
    ⟨[],rfl,.refl t⟩
  obtain ⟨ws,hws,ht⟩ := hj
  simp only [wp_bind]
  rcases run_getChar t' with ⟨b,t₁,-,hr,ht₁,hh,hi⟩ | ⟨t₁,hr,ht₁,-⟩
  · refine wp_of_ok hr ?_
    dsimp only
    split
    · obtain ⟨t₂,hr₂,ht₂,-⟩ := run_ungetChar ht₁ hh hi
      simp only [wp_bind,wp_pure]
      exact wp_of_ok hr₂ ⟨ws,hws,by simpa using ht.trans ht₂⟩
    · rename_i hb
      refine wp_pure.mpr ⟨⟨ws ++ [b],?_,ht.trans ht₁⟩,?_⟩
      · simpa [hws] using hb
      · simp [hi]
  · exact wp_of_ok hr (wp_pure.mpr ⟨ws,hws,by simpa using ht.trans ht₁⟩)

theorem wp_push (s : Bytes) : Wp (Scan.push s) (fun s' t' => ∃ b, s' = s ++ [b] ∧ Took t [b] t')
    (Fails plain) t := by
  simp only [Scan.push,wp_bind,wp_pure]
  exact (wp_advance hp).mono (fun b t' h => ⟨b,rfl,h⟩) fun _ h => h

omit hp in
theorem wp_push_next {b : UInt8} (h : t.Next b) (s : Bytes) :
    Wp (Scan.push s) (fun s' t' => s' = s ++ [b] ∧ Took t [b] t') (Fails plain) t := by
  simp only [Scan.push,wp_bind,wp_pure]
  exact (wp_advance_next h).mono (fun c t' h => ⟨by rw [h.1],h.2⟩) fun _ h => h

/-- A test that looks at the next character and says yes only to characters of `p`. -/
def Tests (plain : Prop) (more : Exec Tape Exn Bool) (p : UInt8 → Bool) : Prop :=
  ∀ t : Tape, (plain → t.Plain) → Wp more
    (fun b t' => Took t [] t' ∧ (b = true → ∃ c, p c ∧ t'.Next c)) (Fails plain) t

theorem wp_pushWhile {more : Exec Tape Exn Bool} {p : UInt8 → Bool} (hm : Tests plain more p)
    (s : Bytes) : Wp (Scan.pushWhile more s)
      (fun s' t' => ∃ u : Bytes, s' = s ++ u ∧ u.all p ∧ Took t u t') (Fails plain) t := by
  refine wp_loop (J:=fun s' t' => ∃ u : Bytes, s' = s ++ u ∧ u.all p ∧ Took t u t')
    (fun t => t.input.length) (fun t => by simp [CharSource.reads]) (fun s' t' hj => ?_) s
    ⟨[],by simp,rfl,.refl t⟩
  obtain ⟨u,rfl,hu,ht⟩ := hj
  simp only [wp_bind]
  refine (hm t' fun h => ht.plain (hp h)).mono ?_ fun _ h => h
  rintro b t₁ ⟨ht₁,hb⟩
  cases b with
  | true =>
    obtain ⟨c,hc,hn⟩ := hb rfl
    simp only [if_true,wp_bind,wp_pure]
    refine (wp_push_next hn _).mono ?_ fun _ h => h
    rintro s' t₂ ⟨rfl,ht₂⟩
    have ht' : Took t' [c] t₂ := by simpa using ht₁.trans ht₂
    refine ⟨⟨u ++ [c],by simp,by simp [hu,hc],ht.trans ht'⟩,?_⟩
    have := ht'.length_le
    simp at this
    omega
  | false => exact wp_pure.mpr ⟨u,rfl,hu,by simpa using ht.trans ht₁⟩

omit hp in
theorem tests_inWord : Tests plain Scan.inWord isalnum := by
  intro t hp
  simp only [Scan.inWord,wp_bind,wp_pure]
  refine (wp_peek hp).mono ?_ fun _ h => h
  rintro (_ | c) t' ⟨ht,hn⟩
  · exact ⟨ht,by simp [Scan.isDelim]⟩
  · exact ⟨ht,fun h => ⟨c,by simpa [Scan.isDelim] using h,hn c rfl⟩⟩

omit hp in
theorem tests_inDigits : Tests plain Scan.inDigits isDigitChar := by
  intro t hp
  simp only [Scan.inDigits,wp_bind]
  refine (wp_peek hp).mono ?_ fun _ h => h
  rintro c t' ⟨ht,hn⟩
  split
  · exact wp_pure.mpr ⟨ht,by simp⟩
  rename_i hc
  simp only [wp_bind]
  -- the character that was there is still there
  cases c with
  | none => exact absurd rfl hc
  | some c =>
    obtain ⟨t₁,hr₁,ht₁,hh₁,hi₁⟩ := run_getChar_next (hn c rfl)
    obtain ⟨t₂,hr₂,ht₂,hn₂⟩ := run_ungetChar ht₁ hh₁ hi₁
    have hpeek : Scan.peek.run t' = (.ok (some c),t₂) :=
      (run_bind_ok hr₁).trans (run_bind_ok hr₂)
    refine wp_of_ok hpeek (wp_pure.mpr ⟨by simpa using ht.trans ht₂,fun he => ⟨c,?_,hn₂⟩⟩)
    simp only [Scan.isDelim,Bool.not_eq_true',Bool.not_eq_false] at hc
    simp [isDigitChar,hc,he]

/-! ## Tokens -/

omit hp in
theorem wp_scanPunctuation {c : UInt8} (h : t.Next c) (type : TokenType) :
    Wp (Scan.scanPunctuation type)
      (fun tok t' => tok = some ⟨type,.char c⟩ ∧ Took t [c] t') (Fails plain) t := by
  simp only [Scan.scanPunctuation,wp_bind,wp_pure]
  exact (wp_advance_next h).mono (fun c t' h => ⟨by rw [h.1],h.2⟩) fun _ h => h

/-- Within a string: what was read stands for the characters so far, and after a backslash
one more character is read. -/
def InString (t : Tape) (p : Bytes × Bool) (t' : Tape) : Prop :=
  ∃ raw, StringBody raw p.1 ∧
    Took t (chr '"' :: raw ++ if p.2 then [chr '\\'] else []) t'

def StringTaken (t : Tape) (r : Bytes × UInt8) (t' : Tape) : Prop :=
  r.2 = chr '"' → ∃ raw, StringBody raw r.1 ∧ Took t (chr '"' :: raw ++ [chr '"']) t'

/-- A round of the loop stays within the string or takes the quote that closes it. -/
theorem wp_stringStep {p : Bytes × Bool} {t' : Tape} (hj : InString t p t') :
    Wp (Scan.stringStep p) (fun r t'' => Sum.elim
      (fun p' => InString t p' t'' ∧ t''.input.length < t'.input.length)
      (fun r => StringTaken t r t'') r) (Fails plain) t' := by
  obtain ⟨raw,hraw,ht⟩ := hj
  have hpt : plain → t'.Plain := fun h => ht.plain (hp h)
  simp only [Scan.stringStep,wp_bind]
  refine (wp_advance hpt).mono ?_ fun _ h => h
  intro c t₁ ht₁
  have hlen := ht₁.length_le
  simp only [List.length_singleton] at hlen
  have htook := ht.trans ht₁
  rcases p with ⟨s,escaped⟩
  dsimp only at hraw htook ⊢
  split
  · rename_i hc
    refine wp_pure.mpr fun hq => ⟨raw,hraw,?_⟩
    dsimp only at hq
    subst hq
    have hesc : escaped = false := by
      simpa [show (chr '"' == chr '\n') = false from rfl] using hc
    simpa [hesc] using htook
  rename_i hc
  simp only [Bool.or_eq_true,Bool.and_eq_true,beq_iff_eq,Bool.not_eq_true',not_or,
    not_and] at hc
  split
  · rename_i hb
    simp only [Bool.and_eq_true,beq_iff_eq,Bool.not_eq_true'] at hb
    refine wp_pure.mpr ⟨⟨raw,hraw,?_⟩,by omega⟩
    simpa [hb.1,hb.2] using htook
  · rename_i hb
    simp only [Bool.and_eq_true,beq_iff_eq,Bool.not_eq_true',not_and] at hb
    cases escaped with
    | true => exact wp_pure.mpr ⟨⟨_,hraw.escape_end hc.2,by simpa using htook⟩,by omega⟩
    | false =>
      refine wp_pure.mpr ⟨⟨_,hraw.plain_end (fun h => ?_) (fun h => ?_) hc.2,
        by simpa using htook⟩,by omega⟩
      · exact absurd (hc.1 h) (by simp)
      · exact absurd (hb h) (by simp)

theorem wp_scanString (h : t.Next (chr '"')) : Wp Scan.scanString
    (fun tok t' => ∃ raw s, StringBody raw s ∧ tok = some (.str s) ∧
      Took t (chr '"' :: raw ++ [chr '"']) t') (Fails plain) t := by
  simp only [Scan.scanString,wp_bind]
  refine (wp_advance_next h).mono ?_ fun _ h => h
  rintro c t₀ ⟨-,ht₀⟩
  have hloop : Wp (Scan.repeatUntil Scan.stringStep ([],false)) (StringTaken t) (Fails plain) t₀ :=
    wp_loop (J:=InString t) (fun t => t.input.length) (fun t => by simp [CharSource.reads])
      (fun p t' hj => wp_stringStep hp hj) _ ⟨[],.nil,by simpa using ht₀⟩
  refine hloop.mono ?_ fun _ h => h
  rintro ⟨s,c⟩ t' hr
  dsimp only at hr ⊢
  split
  · exact ⟨_,rfl,.inl ⟨_,rfl⟩⟩
  · rename_i hc
    obtain ⟨raw,hraw,ht⟩ := hr (by simpa using hc)
    exact wp_pure.mpr ⟨raw,s,hraw,rfl,ht⟩

theorem wp_scanFraction (s : Bytes) : Wp (Scan.scanFraction s)
    (fun s' t' => ∃ frac, s' = s ++ frac ∧
      (frac = [] ∨ ∃ ds, frac = chr '.'::ds ∧ ds.all isDigitChar) ∧ Took t frac t')
    (Fails plain) t := by
  simp only [Scan.scanFraction,wp_bind]
  refine (wp_peek hp).mono ?_ fun _ h => h
  rintro c t₁ ⟨ht₁,hn⟩
  split
  · rename_i hc
    simp only [wp_bind]
    refine (wp_push_next (hn _ hc) s).mono ?_ fun _ h => h
    rintro s' t₂ ⟨rfl,ht₂⟩
    have ht := ht₁.trans ht₂
    refine (wp_pushWhile (fun h => ht.plain (hp h)) tests_inDigits _).mono ?_ fun _ h => h
    rintro s' t₃ ⟨ds,rfl,hds,ht₃⟩
    exact ⟨chr '.'::ds,by simp,.inr ⟨ds,rfl,hds⟩,by simpa using ht.trans ht₃⟩
  · exact wp_pure.mpr ⟨[],by simp,.inl rfl,ht₁⟩

theorem wp_scanExponent (s : Bytes) : Wp (Scan.scanExponent s)
    (fun s' t' => ∃ exp, s' = s ++ exp ∧
      (exp = [] ∨ ∃ c ds, exp = chr 'e'::c::ds ∧ ds.all isalnum) ∧ Took t exp t')
    (Fails plain) t := by
  simp only [Scan.scanExponent,wp_bind]
  refine (wp_peek hp).mono ?_ fun _ h => h
  rintro c t₁ ⟨ht₁,hn⟩
  split
  · rename_i hc
    simp only [wp_bind]
    refine (wp_push_next (hn _ hc) s).mono ?_ fun _ h => h
    rintro s' t₂ ⟨rfl,ht₂⟩
    have h₂ := ht₁.trans ht₂
    refine (wp_peek fun h => h₂.plain (hp h)).mono ?_ fun _ h => h
    rintro m t₃ ⟨ht₃,-⟩
    have h₃ := h₂.trans ht₃
    -- the condition on the sign is always true, so some character is taken
    simp only [Option.isSome_some,Bool.or_true,Scan.pushIf,if_true]
    refine (wp_push (fun h => h₃.plain (hp h)) _).mono ?_ fun _ h => h
    rintro s' t₄ ⟨b,rfl,ht₄⟩
    have h₄ := h₃.trans ht₄
    refine (wp_pushWhile (fun h => h₄.plain (hp h)) tests_inWord _).mono ?_ fun _ h => h
    rintro s' t₅ ⟨ds,rfl,hds,ht₅⟩
    exact ⟨chr 'e'::b::ds,by simp,.inr ⟨b,ds,rfl,hds⟩,by simpa using h₄.trans ht₅⟩
  · exact wp_pure.mpr ⟨[],by simp,.inl rfl,ht₁⟩

theorem wp_scanLexeme {c : UInt8} (h : t.Next c) (hc : c = chr '-' ∨ isdigit c) :
    Wp (Scan.scanLexeme c) (fun raw t' => NumberText raw ∧ Took t raw t') (Fails plain) t := by
  have hsign : Wp (Scan.pushIf (c == chr '-') []) (fun s t' =>
      (s = [] ∧ t'.Next c ∧ isdigit c ∨ s = [chr '-']) ∧ Took t s t') (Fails plain) t := by
    unfold Scan.pushIf
    split
    · rename_i hm
      refine (wp_push_next h []).mono ?_ fun _ h => h
      rintro s t' ⟨rfl,ht⟩
      exact ⟨.inr (by simpa using hm),ht⟩
    · rename_i hm
      refine ⟨.inl ⟨rfl,h,?_⟩,.refl t⟩
      rcases hc with hc | hc
      · simp [hc] at hm
      · exact hc
  simp only [Scan.scanLexeme,wp_bind]
  refine hsign.mono ?_ fun _ h => h
  rintro sign t₁ ⟨hs,ht₁⟩
  have hfirst : Wp (Scan.push sign) (fun s t' => ∃ b, s = sign ++ [b] ∧
      (sign = [] ∧ isdigit b ∨ sign = [chr '-']) ∧ Took t₁ [b] t') (Fails plain) t₁ := by
    rcases hs with ⟨rfl,hn,hd⟩ | rfl
    · refine (wp_push_next hn []).mono ?_ fun _ h => h
      rintro s t' ⟨rfl,ht⟩
      exact ⟨c,rfl,.inl ⟨rfl,hd⟩,ht⟩
    · refine (wp_push (fun h => ht₁.plain (hp h)) _).mono ?_ fun _ h => h
      rintro s t' ⟨b,rfl,ht⟩
      exact ⟨b,rfl,.inr rfl,ht⟩
  refine hfirst.mono ?_ fun _ h => h
  rintro s t₂ ⟨b,rfl,hb,ht₂⟩
  have h₂ := ht₁.trans ht₂
  refine (wp_pushWhile (fun h => h₂.plain (hp h)) tests_inDigits _).mono ?_ fun _ h => h
  rintro s t₃ ⟨int,rfl,hint,ht₃⟩
  have h₃ := h₂.trans ht₃
  refine (wp_scanFraction (fun h => h₃.plain (hp h)) _).mono ?_ fun _ h => h
  rintro s t₄ ⟨frac,rfl,hfrac,ht₄⟩
  have h₄ := h₃.trans ht₄
  refine (wp_scanExponent (fun h => h₄.plain (hp h)) _).mono ?_ fun _ h => h
  rintro s t₅ ⟨exp,rfl,hexp,ht₅⟩
  refine ⟨?_,by simpa using h₄.trans ht₅⟩
  have := NumberText.mk sign b int frac exp hb hint hfrac hexp
  simpa using this

def Delivered (t : Tape) (tok : Option Token) (t' : Tape) : Prop :=
  ∃ u, Spelled u tok.toList ∧ Took t u t'

omit hp in
theorem delivered_lexeme {raw : Bytes} {tok : Token} {t' : Tape} (h : Lexeme raw tok)
    (ht : Took t raw t') : Delivered t (some tok) t' := ⟨raw,.lexeme h,ht⟩

theorem wp_scanNumber {c : UInt8} (h : t.Next c) (hc : c = chr '-' ∨ isdigit c) :
    Wp (Scan.scanNumber c) (Delivered t) (Fails plain) t := by
  simp only [Scan.scanNumber,wp_bind]
  refine (wp_scanLexeme hp h hc).mono ?_ fun _ h => h
  rintro raw t' ⟨hn,ht⟩
  cases hd : Double.stod raw with
  | none => exact ⟨_,rfl,.inl ⟨_,rfl⟩⟩
  | some d => exact wp_pure.mpr (delivered_lexeme (.num hn hd) ht)

theorem wp_scanWord {c : UInt8} (h : t.Next c) :
    Wp (Scan.scanWord c) (Delivered t) (Fails plain) t := by
  simp only [Scan.scanWord,wp_bind]
  refine (wp_push_next h []).mono ?_ fun _ h => h
  rintro s t₁ ⟨rfl,ht₁⟩
  refine (wp_pushWhile (fun h => ht₁.plain (hp h)) tests_inWord _).mono ?_ fun _ h => h
  rintro s t₂ ⟨u,rfl,-,ht₂⟩
  have ht := ht₁.trans ht₂
  simp only [List.nil_append]
  split
  · rename_i hw
    refine wp_pure.mpr (delivered_lexeme ?_ ht)
    simp only [Bool.or_eq_true,decide_eq_true_eq] at hw
    rcases hw with hw | hw <;> rw [hw]
    · exact Lexeme.bool true
    · exact Lexeme.bool false
  · split
    · rename_i hw
      refine wp_pure.mpr (delivered_lexeme ?_ ht)
      rw [hw]
      exact .nil
    · exact ⟨_,rfl,.inl ⟨_,rfl⟩⟩

theorem wp_scanToken {c : UInt8} (hc : t.Next c) :
    Wp (Scan.scanToken c) (Delivered t) (Fails plain) t := by
  have punct : ∀ type, Lexeme [c] ⟨type,.char c⟩ →
      Wp (Scan.scanPunctuation type) (Delivered t) (Fails plain) t := fun type hl =>
    (wp_scanPunctuation hc type).mono (by
      rintro tok t' ⟨rfl,h⟩
      exact delivered_lexeme hl h) fun _ h => h
  unfold Scan.scanToken
  split_ifs with h₁ h₂ h₃ h₄ h₅ h₆ h₇ h₈ h₉
  · exact punct _ (h₁ ▸ .lbracket)
  · exact punct _ (h₂ ▸ .rbracket)
  · exact punct _ (h₃ ▸ .lbrace)
  · exact punct _ (h₄ ▸ .rbrace)
  · exact punct _ (h₅ ▸ .comma)
  · exact punct _ (h₆ ▸ .colon)
  · refine (wp_scanString hp (h₇ ▸ hc)).mono ?_ fun _ h => h
    rintro tok t' ⟨raw,s,hraw,rfl,h⟩
    exact delivered_lexeme (.str hraw) h
  · exact wp_scanNumber hp hc (by simpa using h₈)
  · exact wp_scanWord hp hc
  · exact ⟨_,rfl,.inl ⟨_,rfl⟩⟩

theorem wp_scan : Wp Scan.scan (Delivered t) (Fails plain) t := by
  have space : ∀ {ws : Bytes} {t₁ t₂ : Tape} {tok : Option Token}, ws.all isspace → Took t ws t₁ →
      Delivered t₁ tok t₂ → Delivered t tok t₂ := by
    rintro ws t₁ t₂ tok hws ht ⟨u,hu,ht'⟩
    exact ⟨ws ++ u,hu.space hws,ht.trans ht'⟩
  simp only [Scan.scan,wp_bind]
  refine wp_skipWhitespace.mono ?_ fun _ h => h
  rintro - t₁ ⟨ws,hws,ht₁⟩
  refine (wp_peek fun h => ht₁.plain (hp h)).mono ?_ fun _ h => h
  rintro (_ | c) t₂ ⟨ht₂,hn⟩
  · exact wp_pure.mpr ⟨ws,.nil hws,by simpa using ht₁.trans ht₂⟩
  have ht : Took t ws t₂ := by simpa using ht₁.trans ht₂
  exact (wp_scanToken (fun h => ht.plain (hp h)) (hn c rfl)).mono
    (fun tok t₃ h => space hws ht h) fun _ h => h

/-- A scan takes off the tape a text spelled by the token it delivers, if any. -/
theorem wp_scanSkipWhitespace :
    Wp Scan.scanSkipWhitespace (Delivered t) (Fails plain) t := by
  simp only [Scan.scanSkipWhitespace,wp_bind,wp_pure]
  refine (wp_scan hp).mono ?_ fun _ h => h
  rintro tok t₁ ⟨u,hu,ht₁⟩
  refine wp_skipWhitespace.mono ?_ fun _ h => h
  rintro - t₂ ⟨ws,hws,ht₂⟩
  exact ⟨u ++ ws,by simpa using hu.append (.nil hws),ht₁.trans ht₂⟩

end Scanning

/-! ## The scanner as a source of tokens -/

theorem soundSource (plain : Prop) : Parser.SoundSource (fun t : Tape => plain → t.Plain)
    (fun x => (∃ w, x = .parsingError w) ∨ ¬ plain ∧ ∃ n, x = .systemError n) where
  scan t hp := by
    refine (wp_scanSkipWhitespace hp).mono ?_ fun _ h => h
    rintro tok t' ⟨u,hu,ht⟩
    have h₁ := hu.length_le
    have h₂ := ht.length_le
    refine ⟨fun h => ht.plain (hp h),?_,fun x hx => ?_⟩
    · simp only [TokenSource.tokens,CharSource.reads]
      omega
    · cases hx
      cases hu with
      | cons _ hraw _ => exact hraw.wf
  parsingError w := .inl ⟨w,rfl⟩

theorem spelled_of_delivers {t t' : Tape} {ts : List Token} (h : Parser.Delivers t ts t') :
    ∃ u, Spelled u ts ∧ Took t u t' := by
  induction h with
  | refl t => exact ⟨[],.nil rfl,.refl t⟩
  | token hs _ ih =>
    obtain ⟨u,hu,ht⟩ := ih
    obtain ⟨u',hu',ht'⟩ := (wp_scanSkipWhitespace (t:=_) (False.elim : False → _)).ok hs
    exact ⟨u' ++ u,hu'.append hu,ht'.trans ht⟩
  | pause hs _ ih =>
    obtain ⟨u,hu,ht⟩ := ih
    obtain ⟨u',hu',ht'⟩ := (wp_scanSkipWhitespace (t:=_) (False.elim : False → _)).ok hs
    exact ⟨u' ++ u,hu'.append hu,ht'.trans ht⟩

end Gabby.Json.Tape
