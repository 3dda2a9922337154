import Gabby.JsonText

/-! String literals as the JSON standard (RFC 8259) has them, against the scanner, which drops
every backslash and keeps the character after it. -/
namespace Gabby.Json

/-! ## UTF-8 -/

def utf8 (s : List Char) : Bytes := s.flatMap String.utf8EncodeChar

@[simp] theorem utf8_nil : utf8 [] = [] := rfl
@[simp] theorem utf8_cons (c : Char) (s : List Char) :
    utf8 (c::s) = String.utf8EncodeChar c ++ utf8 s := rfl

/-- A scalar value is encoded as itself, or by bytes that are no ASCII characters. -/
theorem mem_utf8EncodeChar {c : Char} {b : UInt8} (h : b ∈ String.utf8EncodeChar c) :
    c.toNat < 128 ∧ b.toNat = c.toNat ∨ 128 ≤ b.toNat := by
  have key : ∀ n, (UInt8.ofNat n).toNat = n % 256 := fun n => UInt8.toNat_ofNat'
  have hv : c.val.toNat = c.toNat := rfl
  unfold String.utf8EncodeChar at h
  simp only [hv] at h
  split at h
  · simp only [List.mem_singleton] at h
    subst h
    left
    rw [key]
    omega
  · right
    split at h
    · simp only [List.mem_cons,List.not_mem_nil,or_false] at h
      rcases h with rfl | rfl <;> rw [key] <;> omega
    · split at h
      · simp only [List.mem_cons,List.not_mem_nil,or_false] at h
        rcases h with rfl | rfl | rfl <;> rw [key] <;> omega
      · simp only [List.mem_cons,List.not_mem_nil,or_false] at h
        rcases h with rfl | rfl | rfl | rfl <;> rw [key] <;> omega

theorem length_utf8EncodeChar_le (c : Char) : (String.utf8EncodeChar c).length ≤ 4 := by
  rw [String.length_utf8EncodeChar]
  exact c.utf8Size_le_four

/-! ## Literals -/

/-- The letters of the escapes of two characters with what they stand for. -/
def escapes : List (Char × Char) :=
  [('"','"'),('\\','\\'),('/','/'),('b','\x08'),('f','\x0c'),('n','\n'),('r','\r'),('t','\t')]

structure CodeUnit where
  digits : Bytes
  length_eq : digits.length = 4
  isxdigit_digits : digits.all Double.isxdigit

namespace CodeUnit

def text (u : CodeUnit) : Bytes := chr '\\' :: chr 'u' :: u.digits

def value (u : CodeUnit) : ℕ := ofDigits 16 u.digits

end CodeUnit

inductive LiteralChar : Bytes → Char → Prop
  | raw (c : Char) (hc : 0x20 ≤ c.toNat) (hq : c ≠ '"') (hb : c ≠ '\\') :
      LiteralChar (String.utf8EncodeChar c) c
  | escape (e c : Char) (h : (e,c) ∈ escapes) : LiteralChar [chr '\\',chr e] c
  | unit (u : CodeUnit) (c : Char) (h : c.toNat = u.value) : LiteralChar u.text c
  | pair (hi lo : CodeUnit) (c : Char) (hhi : 0xD800 ≤ hi.value ∧ hi.value < 0xDC00)
      (hlo : 0xDC00 ≤ lo.value ∧ lo.value < 0xE000)
      (h : c.toNat = 0x10000 + (hi.value - 0xD800) * 0x400 + (lo.value - 0xDC00)) :
      LiteralChar (hi.text ++ lo.text) c

/-- The text between the quotes of a literal, with the string it denotes. -/
inductive LiteralBody : Bytes → List Char → Prop
  | nil : LiteralBody [] []
  | cons {raw body : Bytes} {c : Char} {s : List Char} (hc : LiteralChar raw c)
      (hs : LiteralBody body s) : LiteralBody (raw ++ body) (c::s)

/-- Every escape of the text is that of a quote, a backslash or a solidus. -/
def selfEscapes : Bytes → Bool
  | [] => true
  | [c] => c != chr '\\'
  | c::d::s =>
    if c = chr '\\' then (d == chr '"' || d == chr '\\' || d == chr '/') && selfEscapes s
    else selfEscapes (d::s)

theorem selfEscapes_escape (d : UInt8) (s : Bytes) : selfEscapes (chr '\\'::d::s) =
    ((d == chr '"' || d == chr '\\' || d == chr '/') && selfEscapes s) := by
  simp [selfEscapes]

theorem selfEscapes_append {u : Bytes} (h : chr '\\' ∉ u) (s : Bytes) :
    selfEscapes (u ++ s) = selfEscapes s := by
  induction u with
  | nil => rfl
  | cons c u ih =>
    simp only [List.mem_cons,not_or] at h
    rw [← ih h.2,List.cons_append]
    cases u ++ s <;> simp [selfEscapes,Ne.symm h.1]

/-! ## What the scanner makes of them -/

/-- The scanner reads `raw` as `out`, wherever in a string it stands. -/
def ReadAs (raw out : Bytes) : Prop :=
  ∀ body s, StringBody body s → StringBody (raw ++ body) (out ++ s)

theorem readAs_plain {u : Bytes}
    (h : ∀ c ∈ u, c ≠ chr '"' ∧ c ≠ chr '\\' ∧ c ≠ chr '\n') : ReadAs u u := by
  intro body s hb
  induction u with
  | nil => exact hb
  | cons c u ih =>
    obtain ⟨⟨h₁,h₂,h₃⟩,h⟩ := List.forall_mem_cons.mp h
    exact .plain c h₁ h₂ h₃ (ih h)

theorem ReadAs.append {u v o p : Bytes} (h : ReadAs u o) (h' : ReadAs v p) :
    ReadAs (u ++ v) (o ++ p) := by
  intro body s hb
  rw [List.append_assoc,List.append_assoc]
  exact h _ _ (h' _ _ hb)

theorem CodeUnit.readAs (u : CodeUnit) : ReadAs u.text (chr 'u' :: u.digits) := by
  have hx : ∀ c : UInt8, Double.isxdigit c = true → c ≠ chr '"' ∧ c ≠ chr '\\' ∧ c ≠ chr '\n' :=
    forall_byte (by decide +kernel)
  intro body s hb
  exact .escape _ (by decide)
    (readAs_plain (fun c hc => hx c (List.all_eq_true.mp u.isxdigit_digits c hc)) _ _ hb)

theorem CodeUnit.selfEscapes_text (u : CodeUnit) (s : Bytes) :
    selfEscapes (u.text ++ s) = false := by
  rw [text,List.cons_append,List.cons_append,selfEscapes_escape]
  rfl

/-- What the scanner keeps of an escape is what it stands for only in three cases. -/
theorem escapes_spec : ∀ p ∈ escapes, chr p.1 ≠ chr '\n' ∧
    (String.utf8EncodeChar p.2).length ≤ 1 ∧
    (chr p.1 == chr '"' || chr p.1 == chr '\\' || chr p.1 == chr '/') =
      ([chr p.1] == String.utf8EncodeChar p.2) := by decide

theorem raw_ne {c : Char} (hc : 0x20 ≤ c.toNat) (hq : c ≠ '"') (hb : c ≠ '\\') :
    ∀ b ∈ String.utf8EncodeChar c, b ≠ chr '"' ∧ b ≠ chr '\\' ∧ b ≠ chr '\n' := by
  intro b hbc
  have hq' : c.toNat ≠ 34 := fun h => hq (Char.toNat_inj.mp h)
  have hb' : c.toNat ≠ 92 := fun h => hb (Char.toNat_inj.mp h)
  have hm := mem_utf8EncodeChar hbc
  refine ⟨?_,?_,?_⟩ <;> rintro rfl <;> simp [chr] at hm <;> omega

/-- What the scanner makes of one character of a literal: never less than its encoding, and
the encoding itself exactly when no escape but the three is used. -/
theorem LiteralChar.readAs {raw : Bytes} {c : Char} (h : LiteralChar raw c) :
    ∃ out, ReadAs raw out ∧ (String.utf8EncodeChar c).length ≤ out.length ∧
      ∀ body, selfEscapes (raw ++ body) = true ↔
        out = String.utf8EncodeChar c ∧ selfEscapes body = true := by
  have hlen := length_utf8EncodeChar_le c
  cases h with
  | raw _ hc hq hb =>
    have hne := raw_ne hc hq hb
    refine ⟨_,readAs_plain hne,le_refl _,fun body => ?_⟩
    rw [selfEscapes_append fun h => (hne _ h).2.1 rfl]
    simp
  | escape e _ h =>
    obtain ⟨hn,hl,he⟩ := escapes_spec _ h
    refine ⟨[chr e],fun body s hs => .escape _ hn hs,hl,fun body => ?_⟩
    rw [List.cons_append,List.cons_append,List.nil_append,selfEscapes_escape,he,
      Bool.and_eq_true,beq_iff_eq]
  | unit u _ _ =>
    have hu := u.length_eq
    refine ⟨_,u.readAs,by rw [List.length_cons]; omega,fun body => ?_⟩
    rw [u.selfEscapes_text]
    refine ⟨fun h => absurd h (by simp),fun ⟨h,_⟩ => ?_⟩
    have := congrArg List.length h
    simp only [List.length_cons] at this
    omega
  | pair hi lo _ _ _ _ =>
    have hh := hi.length_eq
    have hl := lo.length_eq
    refine ⟨_,hi.readAs.append lo.readAs,by simp only [List.length_append,List.length_cons]; omega,
      fun body => ?_⟩
    rw [List.append_assoc,hi.selfEscapes_text]
    refine ⟨fun h => absurd h (by simp),fun ⟨h,_⟩ => ?_⟩
    have := congrArg List.length h
    simp only [List.length_append,List.length_cons] at this
    omega

theorem LiteralBody.readAs {body : Bytes} {s : List Char} (h : LiteralBody body s) :
    ∃ out, StringBody body out ∧ (utf8 s).length ≤ out.length ∧
      (out = utf8 s ↔ selfEscapes body = true) := by
  induction h with
  | nil => exact ⟨[],.nil,le_refl _,by simp [selfEscapes]⟩
  | @cons raw body c s hc _ ih =>
    obtain ⟨o,hr,hlen,ho⟩ := hc.readAs
    obtain ⟨out,hb,hlen',hout⟩ := ih
    refine ⟨o ++ out,hr _ _ hb,?_,?_⟩
    · rw [utf8_cons,List.length_append,List.length_append]
      omega
    rw [ho body,← hout,utf8_cons]
    constructor
    · intro h
      -- neither part is too short, so the parts agree
      have hl := congrArg List.length h
      rw [List.length_append,List.length_append] at hl
      exact List.append_inj h (by omega)
    · rintro ⟨rfl,rfl⟩
      rfl

/-- The scanner reads every literal to its closing quote, whatever it makes of it. -/
theorem run_scan_literal {s : Scanner} {body out rest : Bytes} (hb : StringBody body out)
    (hs : s.tape.At (chr '"' :: body ++ chr '"' :: rest)) :
    ∃ t, Scan.scan.run s = (.ok (some (.str out)),t) ∧ t.tape.At rest ∧
      t.pos = s.pos + (body.length + 2) := by
  obtain ⟨t,hr,ht,hp⟩ := Scanner.run_scan_lexeme (.str hb) (fun h => by cases h)
    (show s.tape.At ((chr '"' :: body ++ [chr '"']) ++ rest) by simpa using hs)
  refine ⟨t,hr,ht,hp.trans ?_⟩
  simp only [List.length_append,List.length_cons,List.length_nil]
  omega

/-- A literal is read as the string it denotes exactly when its only escapes are those of a
quote, a backslash and a solidus. -/
theorem scan_literal_iff (s : Scanner) (body rest : Bytes) (cs : List Char)
    (hb : LiteralBody body cs) (hs : s.tape.At (chr '"' :: body ++ chr '"' :: rest)) :
    (∃ t, Scan.scan.run s = (.ok (some (.str (utf8 cs))),t) ∧ t.tape.At rest ∧
      t.pos = s.pos + (body.length + 2)) ↔ selfEscapes body = true := by
  obtain ⟨out,hout,-,hiff⟩ := hb.readAs
  obtain ⟨t,hr,ht,hp⟩ := run_scan_literal hout hs
  rw [← hiff]
  constructor
  · rintro ⟨t',hr',-⟩
    rw [hr] at hr'
    cases hr'
    rfl
  · rintro rfl
    exact ⟨t,hr,ht,hp⟩

theorem scan_literal_iff_solidus : (∃ t, Scan.scan.run (Scanner.init (.ofBytes
      (ascii "\"a\\/\",")) 6) = (.ok (some (.str (utf8 ['a','/']))),t) ∧
      t.tape.At (ascii ",") ∧ t.pos = 0 + (3 + 2)) ↔ selfEscapes (ascii "a\\/") = true :=
  scan_literal_iff _ (ascii "a\\/") (ascii ",") ['a','/']
    (.cons (.raw 'a' (by decide) (by decide) (by decide))
      (.cons (.escape '/' '/' (by decide)) .nil))
    (Scanner.at_init _ _)

/-- An escaped line feed is read as the letter `n`. -/
theorem scan_literal_lineFeed : ¬ ∀ (s : Scanner) (body rest : Bytes) (cs : List Char),
    LiteralBody body cs → s.tape.At (chr '"' :: body ++ chr '"' :: rest) →
      ∃ t, Scan.scan.run s = (.ok (some (.str (utf8 cs))),t) ∧ t.tape.At rest ∧
        t.pos = s.pos + (body.length + 2) := by
  intro h
  have hat : (Scanner.init (.ofBytes (ascii "\"\\n\"")) 4).tape.At
      (chr '"' :: ascii "\\n" ++ chr '"' :: []) :=
    Scanner.at_init _ _
  obtain ⟨t,hr,-⟩ := h _ (ascii "\\n") [] ['\n'] (.cons (.escape 'n' '\n' (by decide)) .nil) hat
  obtain ⟨t',hr',-⟩ := run_scan_literal (.escape (chr 'n') (by decide) .nil) hat
  have he := congrArg Prod.fst (hr.symm.trans hr')
  simp only [Except.ok.injEq,Option.some.injEq,Token.mk.injEq,Cargo.string.injEq] at he
  exact absurd he.2 (by decide)

end Gabby.Json
