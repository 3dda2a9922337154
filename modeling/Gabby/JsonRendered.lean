import Gabby.JsonText
import Gabby.DoubleText

/-! Scanning undoes rendering: a list of tokens is written as a text with white space around
the tokens, and the scanner delivers the list from that text. -/
namespace Gabby.Json

/-- The decimal notation of an integer that a double holds exactly. -/
structure Integer where
  neg : Bool
  digits : Bytes
  ne_nil : digits ≠ []
  isdigit_digits : digits.all isdigit
  length_le : digits.length ≤ 15

namespace Integer

def text (i : Integer) : Bytes := (if i.neg then [chr '-'] else []) ++ i.digits

def double (i : Integer) : Double := .ofInteger i.neg (ofDigits 10 i.digits)

theorem stod_text (i : Integer) : Double.stod i.text = some i.double := by
  have h₁ := ofDigits_lt i.isdigit_digits
  have h₂ : 10^i.digits.length ≤ 10^15 := Nat.pow_le_pow_right (by decide) i.length_le
  have hlt : ofDigits 10 i.digits ≤ 2^53 := (h₁.trans_le h₂).le.trans (by decide)
  exact (Double.stod_digits i.ne_nil i.isdigit_digits i.neg).trans
    (Double.ofFraction_ofInteger hlt i.neg)

theorem numberText (i : Integer) : NumberText i.text := by
  have h := NumberText.numeral (.integral i.neg i.digits i.ne_nil i.isdigit_digits)
    (by simp [Numeral.integral])
  rwa [Numeral.text_integral] at h

end Integer

def escape : Bytes → Bytes
  | [] => []
  | c::s => if c = chr '"' || c = chr '\\' then chr '\\' :: c :: escape s else c :: escape s

theorem stringBody_escape {s : Bytes} (h : chr '\n' ∉ s) : StringBody (escape s) s := by
  induction s with
  | nil => exact .nil
  | cons c s ih =>
    simp only [List.mem_cons,not_or] at h
    have ih := ih h.2
    rw [escape]
    split
    · exact .escape c (Ne.symm h.1) ih
    · rename_i hc
      simp only [Bool.or_eq_true,decide_eq_true_eq,not_or] at hc
      exact .plain c hc.1 hc.2 (Ne.symm h.1) ih

inductive Item
  | lbrace | rbrace | lbracket | rbracket | comma | colon | nil
  | bool (b : Bool)
  | integer (i : Integer)
  | str (s : Bytes) (h : chr '\n' ∉ s)

namespace Item

def token : Item → Token
  | lbrace => .lbrace
  | rbrace => .rbrace
  | lbracket => .lbracket
  | rbracket => .rbracket
  | comma => .comma
  | colon => .colon
  | nil => .nil
  | bool b => .bool b
  | integer i => .num i.double
  | str s _ => .str s

def text : Item → Bytes
  | lbrace => [chr '{']
  | rbrace => [chr '}']
  | lbracket => [chr '[']
  | rbracket => [chr ']']
  | comma => [chr ',']
  | colon => [chr ':']
  | nil => ascii "null"
  | bool b => if b then ascii "true" else ascii "false"
  | integer i => i.text
  | str s _ => chr '"' :: escape s ++ [chr '"']

theorem head_ne_point (i : Item) : i.text.head? ≠ some (chr '.') := by
  cases i with
  | integer i =>
    intro h
    rcases i.numberText.head h with h | h <;> cases h
  | bool b => cases b <;> decide
  | str s h => exact fun h => by cases h
  | _ => decide

def startsAlnum (i : Item) : Bool := i.text.head?.any isalnum

theorem lexeme (i : Item) : Lexeme i.text i.token := by
  cases i with
  | integer i => exact .num i.numberText i.stod_text
  | str s h => exact .str (stringBody_escape h)
  | bool b => exact .bool b
  | _ => constructor

end Item

/-- Items with the white space before each of them and after the last; a word or a number is
set apart from an item that begins with a letter or a digit. -/
structure Rendering where
  items : List (Bytes × Item)
  last : Bytes
  space : ∀ p ∈ items, p.1.all isspace
  last_space : last.all isspace
  apart : items.IsChain fun p q => p.2.token.type.isWord → q.2.startsAlnum → q.1 ≠ []

def render (items : List (Bytes × Item)) (last : Bytes) : Bytes :=
  items.flatMap (fun p => p.1 ++ p.2.text) ++ last

namespace Rendering

def text (r : Rendering) : Bytes := render r.items r.last

def tokens (r : Rendering) : List Token := r.items.map fun p => p.2.token

/-- White space ends every word and number, and so does an item that does not begin with a
letter or a digit. -/
theorem ends_render {items : List (Bytes × Item)} {last : Bytes}
    (hs : ∀ q ∈ items, q.1.all isspace) (hl : last.all isspace)
    (hq : ∀ q ∈ items.head?, q.2.startsAlnum → q.1 ≠ []) : Tape.Ends (render items last) := by
  cases items with
  | nil => simpa [render] using Tape.ends_of_space hl fun _ => Tape.ends_nil
  | cons q items =>
    have hr : render (q::items) last = q.1 ++ (q.2.text ++ render items last) := by simp [render]
    rw [hr]
    refine Tape.ends_of_space (hs q (by simp)) fun hw c hc => ?_
    have ha : q.2.startsAlnum = false := by simpa using fun h => hq q rfl h hw
    obtain ⟨b,raw,hb,-⟩ := q.2.lexeme.head
    have hp := q.2.head_ne_point
    rw [hb] at hc hp
    cases hc
    exact ⟨by simpa [Item.startsAlnum,hb] using ha,by simpa using hp⟩

theorem apart_render {items : List (Bytes × Item)} {last : Bytes}
    (hs : ∀ q ∈ items, q.1.all isspace) (hl : last.all isspace)
    (hch : items.IsChain fun p q => p.2.token.type.isWord → q.2.startsAlnum → q.1 ≠ []) :
    Tape.Apart (render items last) (items.map fun p => p.2.token) := by
  induction items with
  | nil => exact .nil hl
  | cons p items ih =>
    have hs' : ∀ q ∈ items, q.1.all isspace := fun q hq => hs q (by simp [hq])
    obtain ⟨hp,hch⟩ := List.isChain_cons.mp hch
    have := Tape.Apart.cons (hs p (by simp)) p.2.lexeme
      (fun hw => ends_render hs' hl fun q hq => hp q hq hw) (ih hs' hch)
    simpa [render] using this

/-- From such a text the scans deliver the tokens, then none, and all of it was taken. -/
theorem feeds_then_none {t : Tape} {text : Bytes} {ts : List Token} (h : Tape.Apart text ts)
    (ht : t.At text) : ∃ t' t'' : Tape, Parser.Feeds t ts t' ∧
      Scan.scanSkipWhitespace.run t' = (.ok none,t'') ∧ Tape.Took t text t'' := by
  have hend : ∃ (t' : Tape) (ws : Bytes), Parser.Feeds t ts t' ∧ ws.all isspace ∧ t'.At ws := by
    by_cases hne : ts = []
    · subst hne
      cases h with
      | nil hws => exact ⟨t,text,.nil t,hws,ht⟩
    · obtain ⟨t',hf,ht'⟩ := Tape.feeds_of_apart h hne ht
      exact ⟨t',[],hf,rfl,ht'⟩
  obtain ⟨t',ws,hf,hws,ht'⟩ := hend
  obtain ⟨t'',hr,ht''⟩ := Tape.run_scanSkipWhitespace_space hws ht'
  obtain ⟨u,-,htook⟩ :=
    Tape.spelled_of_delivers ((delivers_of_feeds hf).trans (.pause hr (.refl t'')))
  have hu := htook.bytesOf_eq
  rw [ht.input,ht''.input] at hu
  simp only [Stream.bytesOf_map,List.map_nil,Stream.bytesOf_nil,List.append_nil] at hu
  exact ⟨t',t'',hf,hr,hu ▸ htook⟩

theorem feeds_of_reads {s : Scanner} {t t' : Tape} {ts : List Token} (h : s.Reads t)
    (hf : Parser.Feeds t ts t') : ∃ s' : Scanner, Parser.Feeds s ts s' ∧ s'.Reads t' := by
  induction hf generalizing s with
  | nil t => exact ⟨s,.nil s,h⟩
  | @cons t₀ t₁ t₂ tok ts hr _ ih =>
    obtain ⟨ho,hr'⟩ := Scanner.simReads.scannerRel.scanSkipWhitespace s t₀ h
    rw [show Scan.scanSkipWhitespace.run t₀ = (.ok (some tok),t₁) from hr] at ho hr'
    obtain ⟨s',hf,hs⟩ := ih hr'
    exact ⟨s',.cons (Prod.ext ho rfl) hf,hs⟩

/-- The scanner delivers the tokens of a rendered text with their cargo, then no token, and
then it stands at the end of the text. -/
theorem scan_text (r : Rendering) : ∃ s t : Scanner,
    Parser.Feeds (Scanner.init (.ofBytes r.text) r.text.length) r.tokens s ∧
      Scan.scanSkipWhitespace.run s = (.ok none,t) ∧ t.pos = r.text.length := by
  have hat := Scanner.at_init r.text r.text.length
  rw [Int.toNat_natCast,List.take_length] at hat
  obtain ⟨t',t'',hf,hr,htook⟩ := feeds_then_none
    (apart_render r.space r.last_space r.apart) hat
  obtain ⟨s,hfs,hs⟩ := feeds_of_reads (Scanner.reads_tape _) hf
  obtain ⟨ho,hr'⟩ := Scanner.simReads.scannerRel.scanSkipWhitespace s t' hs
  rw [hr] at ho hr'
  refine ⟨s,_,hfs,Prod.ext ho rfl,?_⟩
  rw [← hr'.pos,htook.pos]
  exact zero_add _

end Rendering

end Gabby.Json
