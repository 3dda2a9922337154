import Gabby.JsonTapeSound

/-! Reading a tape of bytes: where no read fails, the scanner delivers every token of a text
whose lexemes are followed by something that ends them. -/
namespace Gabby.Json.Tape

open Exec

structure At (t : Tape) (text : Bytes) : Prop where
  input : t.input = text.map Input.byte
  ending : t.ending = .eof

variable {t : Tape} {c : UInt8} {text u r s raw : Bytes}

theorem At.plain (h : At t text) : t.Plain :=
  ⟨h.ending,by simp [h.input]⟩

theorem At.reads (h : At t text) : CharSource.reads t = text.length := by
  simp [CharSource.reads,h.input]

theorem At.took {t' : Tape} (h : At t (u ++ r)) (ht : Took t u t') : At t' r := by
  obtain ⟨l,hl,hu⟩ := ht.input
  have hi : l ++ t'.input = u.map Input.byte ++ r.map Input.byte := by
    rw [← hl,h.input,List.map_append]
  have hlen : l.length = (u.map Input.byte).length := by
    have hb : ∀ l : List Input, (∀ i ∈ l, ∃ b, i = .byte b) →
        (Stream.bytesOf l).length = l.length := by
      intro l hl
      induction l with
      | nil => rfl
      | cons i l ih =>
        obtain ⟨b,rfl⟩ := hl i (by simp)
        simpa using ih fun i hi => hl i (by simp [hi])
    rw [List.length_map,← hu,hb l fun i hi => h.plain.2 i (by simp [hl,hi])]
  exact ⟨(List.append_inj hi hlen).2,ht.ending.trans h.ending⟩

theorem run_getChar_at (h : At t (c::r)) :
    ∃ t', getChar.run t = (.ok (some c),t') ∧ At t' r ∧ t'.held = false ∧ Took t [c] t' := by
  obtain ⟨t',hr,ht,hh,-⟩ := run_getChar_next (t:=t) (b:=c) ⟨r.map Input.byte,h.input⟩
  exact ⟨t',hr,At.took (u:=[c]) h ht,hh,ht⟩

theorem run_getChar_end (h : At t []) :
    ∃ t', getChar.run t = (.ok none,t') ∧ At t' [] ∧ t'.failure = none := by
  rcases run_getChar t with ⟨b,t',⟨l,hl⟩,-⟩ | ⟨t',hr,ht,hf⟩
  · simp [h.input] at hl
  · exact ⟨t',hr,At.took (u:=[]) h ht,hf h.plain⟩

theorem run_ungetChar_at (h : At t r) (hh : t.held = false) :
    ∃ t', (ungetChar c).run t = (.ok (),t') ∧ At t' (c::r) :=
  ⟨{ t with input := .byte c :: t.input, pos := t.pos-1, held := true },by simp [ungetChar,hh],
    by simp [h.input],h.ending⟩

theorem run_peek_at (h : At t text) : ∃ t', Scan.peek.run t = (.ok text.head?,t') ∧ At t' text := by
  cases text with
  | nil =>
    obtain ⟨t',hr,ht,hf⟩ := run_getChar_end h
    refine ⟨t',(run_bind_ok hr).trans ?_,ht⟩
    simp [run_bind,CharSource.errno,CharSource.ferror,hf,EAGAIN]
  | cons c r =>
    obtain ⟨t',hr,ht,hh,-⟩ := run_getChar_at h
    obtain ⟨t'',hr',ht'⟩ := run_ungetChar_at (c:=c) ht hh
    exact ⟨t'',(run_bind_ok hr).trans (run_bind_ok hr'),ht'⟩

theorem run_advance_at (h : At t (c::r)) :
    ∃ t', Scan.advance.run t = (.ok c,t') ∧ At t' r := by
  obtain ⟨t',hr,ht,-⟩ := run_getChar_at h
  exact ⟨t',run_bind_ok hr,ht⟩

theorem run_push_at (h : At t (c::r)) (s : Bytes) :
    ∃ t', (Scan.push s).run t = (.ok (s ++ [c]),t') ∧ At t' r := by
  obtain ⟨t',hr,ht⟩ := run_advance_at h
  exact ⟨t',run_bind_ok hr,ht⟩

theorem run_push_end (h : At t []) (s : Bytes) : ∃ t', (Scan.push s).run t =
    (.error (.throw (.parsingError (ascii "unexpected eof"))),t') := by
  obtain ⟨t',hr,-,hf⟩ := run_getChar_end h
  have ha : Scan.advance.run t =
      (.error (.throw (.parsingError (ascii "unexpected eof"))),t') := by
    refine (run_bind_ok hr).trans ?_
    simp [run_bind,CharSource.ferror,hf]
  exact ⟨t',run_bind_error ha⟩

/-! ## Loops -/

section Loops

variable {α β : Type} {body : α → Exec Tape Exn (α ⊕ β)} {a a' : α} {b : β} {t' : Tape}

/-- A round that takes one character leaves a bound for the rounds to come. -/
theorem run_repeatUntil_inl (h : At t (c::r)) (hr : (body a).run t = (.ok (.inl a'),t'))
    (h' : At t' r) : (Scan.repeatUntil body a).run t = (Scan.repeatUntil body a').run t' := by
  simp only [Scan.repeatUntil,run_loop,h.reads,h'.reads,List.length_cons]
  exact run_iterate_inl hr

theorem run_repeatUntil_inr (hr : (body a).run t = (.ok (.inr b),t')) :
    (Scan.repeatUntil body a).run t = (.ok b,t') := by
  simp only [Scan.repeatUntil,run_loop]
  exact run_iterate_inr hr

end Loops

theorem run_skipWhitespace_at (h : At t text) :
    ∃ t', Scan.skipWhitespace.run t = (.ok (),t') ∧ At t' (text.dropWhile isspace) := by
  induction text generalizing t with
  | nil =>
    obtain ⟨t',hr,ht,-⟩ := run_getChar_end h
    exact ⟨t',run_repeatUntil_inr (run_bind_ok hr),ht⟩
  | cons c r ih =>
    obtain ⟨t₁,hr,ht,hh,-⟩ := run_getChar_at h
    cases hc : isspace c with
    | true =>
      obtain ⟨t',hr',ht'⟩ := ih ht
      refine ⟨t',?_,by simpa [hc] using ht'⟩
      rw [← hr']
      exact run_repeatUntil_inl h ((run_bind_ok hr).trans (by simp [hc])) ht
    | false =>
      obtain ⟨t₂,hr₂,ht₂⟩ := run_ungetChar_at (c:=c) ht hh
      refine ⟨t₂,run_repeatUntil_inr ((run_bind_ok hr).trans ?_),by simpa [hc] using ht₂⟩
      simp only [hc,Bool.not_false,if_true]
      exact run_bind_ok hr₂

/-- On a tape of bytes the test says whether the next character is one of `p`. -/
def TestsAt (more : Exec Tape Exn Bool) (p : UInt8 → Bool) : Prop :=
  ∀ t text, At t text → ∃ t', more.run t = (.ok (text.head?.any p),t') ∧ At t' text

theorem testsAt_inWord : TestsAt Scan.inWord isalnum := by
  intro t text h
  obtain ⟨t',hr,ht⟩ := run_peek_at h
  refine ⟨t',(run_bind_ok hr).trans ?_,ht⟩
  cases text <;> simp [Scan.isDelim]

theorem testsAt_inDigits : TestsAt Scan.inDigits isDigitChar := by
  intro t text h
  obtain ⟨t₁,hr₁,ht₁⟩ := run_peek_at h
  obtain ⟨t₂,hr₂,ht₂⟩ := run_peek_at ht₁
  cases text with
  | nil => exact ⟨t₁,(run_bind_ok hr₁).trans (by simp [Scan.isDelim]),ht₁⟩
  | cons c r =>
    cases hc : isalnum c with
    | false =>
      exact ⟨t₁,(run_bind_ok hr₁).trans (by simp [Scan.isDelim,isDigitChar,hc]),ht₁⟩
    | true =>
      refine ⟨t₂,(run_bind_ok hr₁).trans ?_,ht₂⟩
      simp [Scan.isDelim,isDigitChar,hc,run_bind_ok hr₂]

theorem run_pushWhile_at {more : Exec Tape Exn Bool} {p : UInt8 → Bool} (hm : TestsAt more p)
    (hu : u.all p) (hr : r.head?.any p = false) (h : At t (u ++ r)) (s : Bytes) :
    ∃ t', (Scan.pushWhile more s).run t = (.ok (s ++ u),t') ∧ At t' r := by
  induction u generalizing t s with
  | nil =>
    obtain ⟨t',hm,ht⟩ := hm t r h
    refine ⟨t',run_repeatUntil_inr ((run_bind_ok hm).trans ?_),ht⟩
    simp [hr]
  | cons c u ih =>
    simp only [List.all_cons,Bool.and_eq_true] at hu
    obtain ⟨t₁,hm,ht₁⟩ := hm t _ h
    obtain ⟨t₂,hp,ht₂⟩ := run_push_at ht₁ s
    obtain ⟨t',hr',ht'⟩ := ih hu.2 ht₂ (s ++ [c])
    refine ⟨t',?_,ht'⟩
    rw [← List.append_cons] at hr'
    rw [← hr']
    refine run_repeatUntil_inl h ((run_bind_ok hm).trans ?_) ht₂
    simp [hu.1,run_bind_ok hp]

theorem run_inString_at (hb : StringBody raw s) (h : At t (raw ++ chr '"' :: r)) (acc : Bytes) :
    ∃ t', (Scan.repeatUntil Scan.stringStep (acc,false)).run t = (.ok (acc ++ s,chr '"'),t') ∧
      At t' r := by
  induction hb generalizing t acc with
  | nil =>
    obtain ⟨t',hr,ht⟩ := run_advance_at h
    exact ⟨t',run_repeatUntil_inr ((run_bind_ok hr).trans (by simp)),ht⟩
  | @plain raw s c hq hb hn _ ih =>
    obtain ⟨t₁,hr₁,ht₁⟩ := run_advance_at h
    obtain ⟨t',hr',ht'⟩ := ih ht₁ (acc ++ [c])
    refine ⟨t',?_,ht'⟩
    rw [List.append_cons,← hr']
    exact run_repeatUntil_inl h ((run_bind_ok hr₁).trans (by simp [hq,hb,hn])) ht₁
  | @escape raw s c hn _ ih =>
    obtain ⟨t₁,hr₁,ht₁⟩ := run_advance_at h
    obtain ⟨t₂,hr₂,ht₂⟩ := run_advance_at ht₁
    obtain ⟨t',hr',ht'⟩ := ih ht₂ (acc ++ [c])
    refine ⟨t',?_,ht'⟩
    rw [List.append_cons,← hr']
    -- the backslash is one round and the character it escapes another
    have hround₁ : (Scan.stringStep (acc,false)).run t = (.ok (.inl (acc,true)),t₁) :=
      (run_bind_ok hr₁).trans (by simp [show (chr '\\' == chr '"') = false from rfl,
        show (chr '\\' == chr '\n') = false from rfl])
    have hround₂ : (Scan.stringStep (acc,true)).run t₁ = (.ok (.inl (acc ++ [c],false)),t₂) :=
      (run_bind_ok hr₂).trans (by simp [hn])
    exact (run_repeatUntil_inl h hround₁ ht₁).trans (run_repeatUntil_inl ht₁ hround₂ ht₂)

theorem run_scanString_at (hb : StringBody raw s) (h : At t (chr '"' :: raw ++ chr '"' :: r)) :
    ∃ t', Scan.scanString.run t = (.ok (some (.str s)),t') ∧ At t' r := by
  obtain ⟨t₀,hr₀,ht₀⟩ := run_advance_at h
  obtain ⟨t',hr',ht'⟩ := run_inString_at hb ht₀ []
  exact ⟨t',(run_bind_ok hr₀).trans ((run_bind_ok hr').trans (by simp)),ht'⟩

/-- The text after a lexeme ends it: a word or a number does not go on there. -/
def Ends (r : Bytes) : Prop := ∀ c ∈ r.head?, isalnum c = false ∧ c ≠ chr '.'

theorem not_isDigitChar_of_not_isalnum (hr : r.head?.any isalnum = false) :
    r.head?.any isDigitChar = false := by
  cases r with
  | nil => rfl
  | cons b r =>
    have hb : isalnum b = false := by simpa using hr
    simp [isDigitChar,hb]

theorem Ends.head (he : Ends r) : r.head?.any isalnum = false := by
  cases r with
  | nil => rfl
  | cons b r => simpa using (he b rfl).1

theorem run_scanFraction_at {frac : Bytes}
    (hfrac : frac = [] ∨ ∃ ds, frac = chr '.'::ds ∧ ds.all isDigitChar)
    (hr : r.head?.any isDigitChar = false) (hdot : frac = [] → r.head? ≠ some (chr '.'))
    (h : At t (frac ++ r)) (s : Bytes) :
    ∃ t', (Scan.scanFraction s).run t = (.ok (s ++ frac),t') ∧ At t' r := by
  obtain ⟨t₁,hr₁,ht₁⟩ := run_peek_at h
  rcases hfrac with rfl | ⟨ds,rfl,hds⟩
  · refine ⟨t₁,(run_bind_ok hr₁).trans ?_,ht₁⟩
    simp [hdot rfl]
  · obtain ⟨t₂,hr₂,ht₂⟩ := run_push_at ht₁ s
    obtain ⟨t',hr',ht'⟩ := run_pushWhile_at testsAt_inDigits hds hr ht₂ (s ++ [chr '.'])
    refine ⟨t',(run_bind_ok hr₁).trans ?_,ht'⟩
    simp only [List.cons_append,List.head?_cons,if_true]
    rw [run_bind_ok hr₂,hr']
    simp

theorem run_scanExponent_at {exp : Bytes}
    (hexp : exp = [] ∨ ∃ c ds, exp = chr 'e'::c::ds ∧ ds.all isalnum)
    (hr : r.head?.any isalnum = false) (h : At t (exp ++ r)) (s : Bytes) :
    ∃ t', (Scan.scanExponent s).run t = (.ok (s ++ exp),t') ∧ At t' r := by
  obtain ⟨t₁,hr₁,ht₁⟩ := run_peek_at h
  rcases hexp with rfl | ⟨c,ds,rfl,hds⟩
  · refine ⟨t₁,(run_bind_ok hr₁).trans ?_,ht₁⟩
    have : r.head? ≠ some (chr 'e') := by
      intro he
      rw [he] at hr
      cases hr
    simp [this]
  · obtain ⟨t₂,hr₂,ht₂⟩ := run_push_at ht₁ s
    obtain ⟨t₃,hr₃,ht₃⟩ := run_peek_at ht₂
    obtain ⟨t₄,hr₄,ht₄⟩ := run_push_at ht₃ (s ++ [chr 'e'])
    obtain ⟨t',hr',ht'⟩ := run_pushWhile_at testsAt_inWord hds hr ht₄ (s ++ [chr 'e'] ++ [c])
    refine ⟨t',(run_bind_ok hr₁).trans ?_,ht'⟩
    simp only [List.cons_append,List.head?_cons,if_true]
    rw [run_bind_ok hr₂,run_bind_ok hr₃]
    simp only [Option.isSome_some,Bool.or_true,Scan.pushIf,if_true]
    rw [run_bind_ok hr₄,hr']
    simp

theorem run_pushIf_sign_at {sign u : Bytes} {first : UInt8}
    (hsign : sign = [] ∧ isdigit first ∨ sign = [chr '-'])
    (hc : (sign ++ first::u).head? = some c) (h : At t (sign ++ first::u)) :
    ∃ t', (Scan.pushIf (c == chr '-') []).run t = (.ok sign,t') ∧ At t' (first::u) := by
  rcases hsign with ⟨rfl,hf⟩ | rfl
  · have hcf : first = c := by simpa using hc
    subst hcf
    have hne : (first == chr '-') = false := by
      cases hb : first == chr '-' with
      | false => rfl
      | true =>
        rw [beq_iff_eq.mp hb] at hf
        cases hf
    exact ⟨t,by simp [Scan.pushIf,hne],by simpa using h⟩
  · have hcm : chr '-' = c := by simpa using hc
    subst hcm
    obtain ⟨t',hr',ht'⟩ := run_push_at (t:=t) (by simpa using h) []
    exact ⟨t',by simpa [Scan.pushIf] using hr',ht'⟩

/-- A number is taken up to the first character that cannot belong to it. -/
theorem run_scanLexeme_at {sign int frac exp : Bytes} {first : UInt8}
    (hsign : sign = [] ∧ isdigit first ∨ sign = [chr '-']) (hint : int.all isDigitChar)
    (hfrac : frac = [] ∨ ∃ ds, frac = chr '.'::ds ∧ ds.all isDigitChar)
    (hexp : exp = [] ∨ ∃ c ds, exp = chr 'e'::c::ds ∧ ds.all isalnum)
    (hr : r.head?.any isalnum = false) (hdot : frac = [] → exp = [] → r.head? ≠ some (chr '.'))
    (hc : (sign ++ first::int ++ frac ++ exp).head? = some c)
    (h : At t (sign ++ first::int ++ frac ++ exp ++ r)) :
    ∃ t', (Scan.scanLexeme c).run t = (.ok (sign ++ first::int ++ frac ++ exp),t') ∧ At t' r := by
  -- each run of digits is ended by what follows it
  have hr₁ : (exp ++ r).head?.any isDigitChar = false := by
    rcases hexp with rfl | ⟨b,ds,rfl,-⟩
    · exact not_isDigitChar_of_not_isalnum hr
    · rfl
  have hdot₁ : frac = [] → (exp ++ r).head? ≠ some (chr '.') := by
    rcases hexp with rfl | ⟨b,ds,rfl,-⟩
    · exact fun hf => hdot hf rfl
    · simp [show chr 'e' ≠ chr '.' by decide]
  have hr₂ : (frac ++ (exp ++ r)).head?.any isDigitChar = false := by
    rcases hfrac with rfl | ⟨ds,rfl,-⟩
    · exact hr₁
    · rfl
  obtain ⟨t₁,hp₁,ht₁⟩ := run_pushIf_sign_at
    (u:=int ++ (frac ++ (exp ++ r))) hsign (by simpa using hc) (by simpa using h)
  obtain ⟨t₂,hp₂,ht₂⟩ := run_push_at ht₁ sign
  obtain ⟨t₃,hp₃,ht₃⟩ := run_pushWhile_at testsAt_inDigits hint hr₂ ht₂ (sign ++ [first])
  obtain ⟨t₄,hp₄,ht₄⟩ := run_scanFraction_at hfrac hr₁ hdot₁ ht₃ (sign ++ [first] ++ int)
  obtain ⟨t₅,hp₅,ht₅⟩ := run_scanExponent_at hexp hr ht₄ (sign ++ [first] ++ int ++ frac)
  refine ⟨t₅,?_,ht₅⟩
  rw [Scan.scanLexeme,run_bind_ok hp₁,run_bind_ok hp₂,run_bind_ok hp₃,run_bind_ok hp₄,hp₅]
  simp

theorem run_scanLexeme_cut {sign int frac : Bytes} {first : UInt8}
    (hsign : sign = [] ∧ isdigit first ∨ sign = [chr '-']) (hint : int.all isDigitChar)
    (hfrac : frac = [] ∨ ∃ ds, frac = chr '.'::ds ∧ ds.all isDigitChar)
    (hc : (sign ++ first::int ++ frac ++ [chr 'e']).head? = some c)
    (h : At t (sign ++ first::int ++ frac ++ [chr 'e'])) : ∃ t', (Scan.scanLexeme c).run t =
      (.error (.throw (.parsingError (ascii "unexpected eof"))),t') := by
  have hr₂ : (frac ++ [chr 'e']).head?.any isDigitChar = false := by
    rcases hfrac with rfl | ⟨ds,rfl,-⟩ <;> rfl
  obtain ⟨t₁,hp₁,ht₁⟩ := run_pushIf_sign_at
    (u:=int ++ (frac ++ [chr 'e'])) hsign (by simpa using hc) (by simpa using h)
  obtain ⟨t₂,hp₂,ht₂⟩ := run_push_at ht₁ sign
  obtain ⟨t₃,hp₃,ht₃⟩ := run_pushWhile_at testsAt_inDigits hint hr₂ ht₂ (sign ++ [first])
  obtain ⟨t₄,hp₄,ht₄⟩ := run_scanFraction_at hfrac rfl (fun _ => by decide) ht₃
    (sign ++ [first] ++ int)
  obtain ⟨t₅,hp₅,ht₅⟩ := run_peek_at ht₄
  obtain ⟨t₆,hp₆,ht₆⟩ := run_push_at ht₅ (sign ++ [first] ++ int ++ frac)
  obtain ⟨t₇,hp₇,ht₇⟩ := run_peek_at ht₆
  obtain ⟨t₈,hp₈⟩ := run_push_end ht₇ (sign ++ [first] ++ int ++ frac ++ [chr 'e'])
  refine ⟨t₈,?_⟩
  rw [Scan.scanLexeme,run_bind_ok hp₁,run_bind_ok hp₂,run_bind_ok hp₃,run_bind_ok hp₄,
    Scan.scanExponent,run_bind_ok hp₅]
  simp only [List.head?_cons,if_true]
  rw [run_bind_ok hp₆,run_bind_ok hp₇]
  simp only [Option.isSome_some,Bool.or_true,Scan.pushIf,if_true]
  exact run_bind_error hp₈

theorem run_scanNumber_at {d : Double} (hn : NumberText raw) (hd : Double.stod raw = some d)
    (he : Ends r) (hc : raw.head? = some c) (h : At t (raw ++ r)) :
    ∃ t', (Scan.scanNumber c).run t = (.ok (some (.num d)),t') ∧ At t' r := by
  obtain ⟨sign,first,int,frac,exp,hsign,hint,hfrac,hexp⟩ := hn
  obtain ⟨t',hr,ht⟩ := run_scanLexeme_at hsign hint hfrac hexp he.head
    (fun _ _ hb => (he _ hb).2 rfl) hc h
  exact ⟨t',(run_bind_ok hr).trans (by rw [hd]; rfl),ht⟩

theorem run_scanWord_at {tok : Token} {w : Bytes} (hw : w.all isalnum) (he : Ends r)
    (htok : (c::w = ascii "null" ∧ tok = .nil) ∨
      ∃ b, c::w = (if b then ascii "true" else ascii "false") ∧ tok = .bool b)
    (h : At t (c::w ++ r)) : ∃ t', (Scan.scanWord c).run t = (.ok (some tok),t') ∧ At t' r := by
  have hr := he.head
  obtain ⟨t₁,hp₁,ht₁⟩ := run_push_at h []
  obtain ⟨t₂,hp₂,ht₂⟩ := run_pushWhile_at testsAt_inWord hw hr ht₁ [c]
  refine ⟨t₂,?_,ht₂⟩
  rw [Scan.scanWord,run_bind_ok hp₁,List.nil_append,run_bind_ok hp₂,List.singleton_append]
  rcases htok with ⟨hw,rfl⟩ | ⟨b,hw,rfl⟩
  · rw [hw]
    rfl
  · rw [hw]
    cases b <;> rfl

theorem not_punctuation_of_isdigit {c : UInt8} : isdigit c = true → c ≠ chr '[' ∧ c ≠ chr ']' ∧
    c ≠ chr '{' ∧ c ≠ chr '}' ∧ c ≠ chr ',' ∧ c ≠ chr ':' ∧ c ≠ chr '"' :=
  forall_byte (p := fun c => isdigit c = true → c ≠ chr '[' ∧ c ≠ chr ']' ∧ c ≠ chr '{' ∧
    c ≠ chr '}' ∧ c ≠ chr ',' ∧ c ≠ chr ':' ∧ c ≠ chr '"') (by decide +kernel) c

theorem scanToken_number (h : c = chr '-' ∨ isdigit c) :
    Scan.scanToken (σ:=Tape) c = Scan.scanNumber c := by
  rcases h with rfl | hd
  · rfl
  · obtain ⟨h₁,h₂,h₃,h₄,h₅,h₆,h₇⟩ := not_punctuation_of_isdigit hd
    simp [Scan.scanToken,h₁,h₂,h₃,h₄,h₅,h₆,h₇,hd]

theorem run_scanPunctuation_at (type : TokenType) (h : At t ([c] ++ r)) :
    ∃ t', (Scan.scanPunctuation type).run t = (.ok (some ⟨type,.char c⟩),t') ∧ At t' r := by
  obtain ⟨t',hr,ht⟩ := run_advance_at h
  exact ⟨t',run_bind_ok hr,ht⟩

theorem run_scanToken_at {tok : Token} (hl : Lexeme raw tok) (hc : raw.head? = some c)
    (he : tok.type.isWord → Ends r) (h : At t (raw ++ r)) :
    ∃ t', (Scan.scanToken c).run t = (.ok (some tok),t') ∧ At t' r := by
  cases hl with
  | lbrace =>
    cases hc
    exact run_scanPunctuation_at .lbrace h
  | rbrace =>
    cases hc
    exact run_scanPunctuation_at .rbrace h
  | lbracket =>
    cases hc
    exact run_scanPunctuation_at .lbracket h
  | rbracket =>
    cases hc
    exact run_scanPunctuation_at .rbracket h
  | comma =>
    cases hc
    exact run_scanPunctuation_at .comma h
  | colon =>
    cases hc
    exact run_scanPunctuation_at .colon h
  | str hb =>
    cases hc
    exact run_scanString_at hb (by simpa using h)
  | num hn hd =>
    rw [scanToken_number (hn.head hc)]
    exact run_scanNumber_at hn hd (he rfl) hc h
  | bool b =>
    cases b with
    | true =>
      cases hc
      exact run_scanWord_at (w:=ascii "rue") (by decide) (he rfl) (.inr ⟨true,rfl,rfl⟩) h
    | false =>
      cases hc
      exact run_scanWord_at (w:=ascii "alse") (by decide) (he rfl) (.inr ⟨false,rfl,rfl⟩) h
  | nil =>
    cases hc
    exact run_scanWord_at (w:=ascii "ull") (by decide) (he rfl) (.inl ⟨rfl,rfl⟩) h

/-- Where a minus sign or a digit is next, a number is scanned. -/
theorem run_scan_number (hc : text.head? = some c) (hd : c = chr '-' ∨ isdigit c)
    (h : At t text) : ∃ t', At t' text ∧ Scan.scan.run t = (Scan.scanNumber c).run t' := by
  have hs : isspace c = false := by
    rcases hd with rfl | hd
    · decide
    · exact (digit_ne hd).1
  obtain ⟨t₁,hr₁,ht₁⟩ := run_skipWhitespace_at h
  cases text with
  | nil => cases hc
  | cons b r =>
    cases hc
    rw [List.dropWhile_cons_of_neg (by simp [hs])] at ht₁
    obtain ⟨t₂,hr₂,ht₂⟩ := run_peek_at ht₁
    refine ⟨t₂,ht₂,(run_bind_ok hr₁).trans ((run_bind_ok hr₂).trans ?_)⟩
    rw [← scanToken_number hd]
    rfl

/-- The scanner finds the token whose lexeme is next. -/
theorem run_scan_at {ws : Bytes} {tok : Token} (hws : ws.all isspace) (hl : Lexeme raw tok)
    (he : tok.type.isWord → Ends r) (h : At t (ws ++ raw ++ r)) :
    ∃ t', Scan.scan.run t = (.ok (some tok),t') ∧ At t' r := by
  obtain ⟨c,raw',rfl,hc⟩ := hl.head
  obtain ⟨t₁,hr₁,ht₁⟩ := run_skipWhitespace_at h
  rw [List.append_assoc,List.dropWhile_append_of_pos (by simpa using hws),List.cons_append,
    List.dropWhile_cons_of_neg (by simp [hc])] at ht₁
  obtain ⟨t₂,hr₂,ht₂⟩ := run_peek_at ht₁
  obtain ⟨t',hr',ht'⟩ := run_scanToken_at hl rfl he ht₂
  exact ⟨t',(run_bind_ok hr₁).trans ((run_bind_ok hr₂).trans hr'),ht'⟩

theorem run_scanSkipWhitespace_at {ws : Bytes} {tok : Token} (hws : ws.all isspace)
    (hl : Lexeme raw tok) (he : tok.type.isWord → Ends r) (h : At t (ws ++ raw ++ r)) :
    ∃ t', Scan.scanSkipWhitespace.run t = (.ok (some tok),t') ∧ At t' (r.dropWhile isspace) := by
  obtain ⟨t₁,hr₁,ht₁⟩ := run_scan_at hws hl he h
  obtain ⟨t₂,hr₂,ht₂⟩ := run_skipWhitespace_at ht₁
  exact ⟨t₂,(run_bind_ok hr₁).trans (run_bind_ok hr₂),ht₂⟩

theorem ends_nil : Ends [] := by simp [Ends]

theorem ends_of_space {ws : Bytes} (hws : ws.all isspace) (hr : ws = [] → Ends r) :
    Ends (ws ++ r) := by
  cases ws with
  | nil => exact hr rfl
  | cons w ws =>
    simp only [List.all_cons,Bool.and_eq_true] at hws
    rintro c ⟨⟩
    refine ⟨not_isalnum_of_isspace hws.1,?_⟩
    rintro rfl
    cases hws.1

/-- White space and punctuation end a word or a number. -/
theorem ends_of_spelled {ts : List Token} (h : Spelled r ts)
    (hts : ∀ tok ∈ ts.head?, tok.type.startsValue = false) : Ends r := by
  cases h with
  | nil hws => simpa using ends_of_space hws fun _ => ends_nil
  | @cons ws raw rest tok ts hws hraw _ =>
    rw [List.append_assoc]
    refine ends_of_space hws fun _ => ?_
    have ht := hts tok rfl
    intro c hc
    cases hraw with
    | rbrace => cases hc; decide
    | rbracket => cases hc; decide
    | comma => cases hc; decide
    | colon => cases hc; decide
    | _ => cases ht

/-- A text spelled by some tokens in which something ends every word and number. -/
inductive Apart : Bytes → List Token → Prop
  | nil {ws : Bytes} (hws : ws.all isspace) : Apart ws []
  | cons {ws raw rest : Bytes} {tok : Token} {ts : List Token} (hws : ws.all isspace)
      (hraw : Lexeme raw tok) (he : tok.type.isWord → Ends rest) (h : Apart rest ts) :
      Apart (ws ++ raw ++ rest) (tok::ts)

/-- In a text in which no two values are neighbours every word and number is ended. -/
theorem apart_of_spelled {ts : List Token} (h : Spelled text ts) (hch : ts.IsChain Separated) :
    Apart text ts := by
  induction h with
  | nil hws => exact .nil hws
  | @cons ws raw rest tok ts hws hraw h ih =>
    refine .cons hws hraw (fun hw => ends_of_spelled h fun tok' ht' => ?_)
      (ih (List.isChain_cons.mp hch).2)
    have hn := ((List.isChain_cons.mp hch).1 tok' ht').no_missing
    simpa [TokenType.endsValue,TokenType.isScalar_of_isWord hw] using hn

theorem Apart.dropWhile {ts : List Token} (h : Apart text ts) :
    Apart (text.dropWhile isspace) ts := by
  cases h with
  | nil hws =>
    rw [List.dropWhile_eq_nil_iff.mpr (by simpa using hws)]
    exact .nil rfl
  | @cons ws raw rest tok ts hws hraw he h =>
    obtain ⟨c,raw',rfl,hc⟩ := hraw.head
    rw [List.append_assoc,List.dropWhile_append_of_pos (by simpa using hws),List.cons_append,
      List.dropWhile_cons_of_neg (by simp [hc])]
    exact .cons (rfl : ([] : Bytes).all isspace = true) hraw he h

/-- From a tape of such a text the scans deliver the tokens that spell it, and the last of
them leaves nothing. -/
theorem feeds_of_apart {ts : List Token} (h : Apart text ts) (hne : ts ≠ []) (ht : At t text) :
    ∃ t', Parser.Feeds t ts t' ∧ At t' [] := by
  induction ts generalizing text t with
  | nil => exact absurd rfl hne
  | cons tok ts ih =>
    cases h with
    | @cons ws raw rest _ _ hws hraw he h =>
      obtain ⟨t₁,hr₁,ht₁⟩ := run_scanSkipWhitespace_at hws hraw he ht
      cases ts with
      | nil =>
        cases h with
        | nil hws' =>
          rw [List.dropWhile_eq_nil_iff.mpr (by simpa using hws')] at ht₁
          exact ⟨t₁,.cons hr₁ (.nil _),ht₁⟩
      | cons tok' ts =>
        obtain ⟨t',hf,ht'⟩ := ih h.dropWhile (by simp) ht₁
        exact ⟨t',.cons hr₁ hf,ht'⟩

theorem feeds_of_spelled {ts : List Token} (h : Spelled text ts) (hne : ts ≠ [])
    (hch : ts.IsChain Separated) (ht : At t text) :
    ∃ t', Parser.Feeds t ts t' ∧ At t' [] := feeds_of_apart (apart_of_spelled h hch) hne ht

theorem run_scanSkipWhitespace_space (hws : text.all isspace) (h : At t text) :
    ∃ t', Scan.scanSkipWhitespace.run t = (.ok none,t') ∧ At t' [] := by
  obtain ⟨t₁,hr₁,ht₁⟩ := run_skipWhitespace_at h
  rw [List.dropWhile_eq_nil_iff.mpr (by simpa using hws)] at ht₁
  obtain ⟨t₂,hr₂,ht₂⟩ := run_peek_at ht₁
  obtain ⟨t₃,hr₃,ht₃⟩ := run_skipWhitespace_at ht₂
  have hscan : Scan.scan.run t = (.ok none,t₂) := (run_bind_ok hr₁).trans (run_bind_ok hr₂)
  exact ⟨t₃,(run_bind_ok hscan).trans (run_bind_ok hr₃),ht₃⟩

end Gabby.Json.Tape
