import Gabby.JsonText
import Gabby.DoubleText

/-! Printing and reading back. The printer does not escape, so strings come back when they
have nothing to escape; numbers come back as what their six digits say. -/
namespace Gabby.Json

open Gabby.Json.Parser (moreItems moreItems_cons moreItems_nil)

def Unescaped (s : Bytes) : Prop := ∀ c ∈ s, c ≠ chr '"' ∧ c ≠ chr '\\' ∧ c ≠ chr '\n'

instance (s : Bytes) : Decidable (Unescaped s) :=
  inferInstanceAs (Decidable (∀ c ∈ s, c ≠ chr '"' ∧ c ≠ chr '\\' ∧ c ≠ chr '\n'))

theorem Unescaped.stringBody {s : Bytes} (h : Unescaped s) : StringBody s s := by
  induction s with
  | nil => exact .nil
  | cons c s ih =>
    obtain ⟨hq,hb,hn⟩ := h c (by simp)
    exact .plain c hq hb hn (ih fun d hd => h d (by simp [hd]))

/-- The second double is what `stod` makes of the printed text of the first. -/
structure RereadsNumber (d d' : Double) : Prop where
  text : NumberText d.print
  stod : Double.stod d.print = some d'

/-- The second value is what the printed text of the first means. -/
inductive Rereads : Value → Value → Prop
  | nil : Rereads .nil .nil
  | boolean (b : Bool) : Rereads (.boolean b) (.boolean b)
  | number {d d' : Double} (h : RereadsNumber d d') : Rereads (.number d) (.number d')
  | string {s : Bytes} (h : Unescaped s) : Rereads (.string s) (.string s)
  | array (ps : List (Value × Value)) (h : ∀ p ∈ ps, Rereads p.1 p.2) :
      Rereads (.array (ps.map Prod.fst)) (.array (ps.map Prod.snd))
  | object (ps : List (Bytes × Value × Value)) (hwf : (ps.map Prod.fst).Nodup)
      (hk : ∀ p ∈ ps, Unescaped p.1) (h : ∀ p ∈ ps, Rereads p.2.1 p.2.2) :
      Rereads (.object (ps.map fun p => (p.1,p.2.1))) (.object (ps.map fun p => (p.1,p.2.2)))

theorem Rereads.array_map {f : Value → Value} {vs : List Value}
    (h : ∀ v ∈ vs, Rereads v (f v)) : Rereads (.array vs) (.array (vs.map f)) := by
  have := Rereads.array (vs.map fun v => (v,f v)) (by simpa using h)
  simpa [Function.comp_def] using this

theorem Rereads.object_map {f : Value → Value} {ms : Dict Bytes Value} (hwf : ms.WF)
    (hk : ∀ m ∈ ms, Unescaped m.1) (h : ∀ m ∈ ms, Rereads m.2 (f m.2)) :
    Rereads (.object ms) (.object (ms.map fun m => (m.1,f m.2))) := by
  have := Rereads.object (ms.map fun m => (m.1,m.2,f m.2))
    (by simpa [Dict.WF,Dict.keys,Function.comp_def] using hwf)
    (by
      intro p hp
      obtain ⟨m,hm,rfl⟩ := List.mem_map.mp hp
      exact hk m hm)
    (by
      intro p hp
      obtain ⟨m,hm,rfl⟩ := List.mem_map.mp hp
      exact h m hm)
  simpa [Function.comp_def] using this

/-- A value without special strings whose numbers are printed as numbers is read back. -/
theorem exists_rereads {v : Value} (h : v.Of (fun d => ∃ d', RereadsNumber d d') Unescaped) :
    ∃ u, Rereads v u := by
  have hex : ∀ v, ∃ u, (∃ u, Rereads v u) → Rereads v u := fun v => by
    by_cases h : ∃ u, Rereads v u
    · exact ⟨_,fun _ => h.choose_spec⟩
    · exact ⟨v,fun h' => absurd h' h⟩
  choose f hf using hex
  induction h with
  | nil => exact ⟨_,.nil⟩
  | boolean b => exact ⟨_,.boolean b⟩
  | number d h => exact ⟨_,.number h.choose_spec⟩
  | string s h => exact ⟨_,.string h⟩
  | array vs _ ih => exact ⟨_,.array_map fun v hv => hf v (ih v hv)⟩
  | object ms hwf hk _ ih => exact ⟨_,.object_map hwf hk fun m hm => hf m.2 (ih m hm)⟩

/-! ## Spelling -/

theorem spelled_separator (first : Bool) :
    Spelled (Value.separator first) (if first then [] else [.comma]) := by
  cases first with
  | true => exact .nil rfl
  | false =>
    exact (Spelled.lexeme .comma).append (.nil (by decide : (ascii " ").all isspace))

theorem spelled_key {k : Bytes} (h : Unescaped k) :
    Spelled (chr '"' :: k ++ ascii "\": ") [.str k,.colon] := by
  have hk := Spelled.lexeme (Lexeme.str h.stringBody)
  have hc := (Spelled.lexeme .colon).append (.nil (by decide : (ascii " ").all isspace))
  have := hk.append hc
  simpa [ascii] using this

theorem spelled_printValues (ps : List (Value × Value))
    (h : ∀ p ∈ ps, Denotes p.1.print p.2) : ∃ items : List (List Token × Value),
      items.map Prod.snd = ps.map Prod.snd ∧ (∀ i ∈ items, Derives i.1 i.2) ∧
      ∀ first, Spelled (Value.printValues first (ps.map Prod.fst))
        (moreItems first (items.map Prod.fst)) := by
  induction ps with
  | nil => exact ⟨[],rfl,by simp,fun first => by simpa [Value.printValues] using .empty⟩
  | cons p ps ih =>
    obtain ⟨ts,hs,hd⟩ := h p (by simp)
    obtain ⟨items,hi,hds,hss⟩ := ih fun q hq => h q (by simp [hq])
    refine ⟨(ts,p.2)::items,by simp [hi],List.forall_mem_cons.mpr ⟨hd,hds⟩,fun first => ?_⟩
    rw [List.map_cons,List.map_cons,moreItems_cons,Value.printValues]
    exact ((spelled_separator first).append hs).append (hss false)

theorem spelled_printMembers (ps : List (Bytes × Value × Value))
    (hk : ∀ p ∈ ps, Unescaped p.1) (h : ∀ p ∈ ps, Denotes p.2.1.print p.2.2) :
    ∃ members : List (Bytes × List Token × Value),
      (members.map fun m => (m.1,m.2.2)) = (ps.map fun p => (p.1,p.2.2)) ∧
      (∀ m ∈ members, Derives m.2.1 m.2.2) ∧
      ∀ first, Spelled (Value.printMembers first (ps.map fun p => (p.1,p.2.1)))
        (moreItems first (members.map fun m => .str m.1 :: .colon :: m.2.1)) := by
  induction ps with
  | nil => exact ⟨[],rfl,by simp,fun first => by simpa [Value.printMembers] using .empty⟩
  | cons p ps ih =>
    rcases p with ⟨k,v,w⟩
    obtain ⟨ts,hs,hd⟩ := h (k,v,w) (by simp)
    obtain ⟨members,hi,hds,hss⟩ := ih (fun q hq => hk q (by simp [hq]))
      fun q hq => h q (by simp [hq])
    refine ⟨(k,ts,w)::members,by simp [hi],List.forall_mem_cons.mpr ⟨hd,hds⟩,fun first => ?_⟩
    rw [List.map_cons,List.map_cons,moreItems_cons,Value.printMembers]
    have := (((spelled_separator first).append (spelled_key (hk (k,v,w) (by simp)))).append
      hs).append (hss false)
    simpa using this

/-- What is printed denotes what the printed numbers say. -/
theorem denotes_print {v w : Value} (h : Rereads v w) : Denotes v.print w := by
  induction h with
  | nil => exact ⟨_,.lexeme .nil,.nil⟩
  | boolean b => exact ⟨_,.lexeme (.bool b),.bool b⟩
  | number h => exact ⟨_,.lexeme (.num h.text h.stod),.num _⟩
  | string h => exact ⟨_,.lexeme (.str h.stringBody),.str _⟩
  | array ps _ ih =>
    obtain ⟨items,hi,hd,hs⟩ := spelled_printValues ps ih
    have harr := Derives.array items hd
    rw [hi] at harr
    refine ⟨_,?_,harr⟩
    rw [Value.print]
    simpa [moreItems] using ((Spelled.lexeme .lbracket).append (hs true)).append (.lexeme .rbracket)
  | object ps hwf hk _ ih =>
    obtain ⟨members,hm,hd,hs⟩ := spelled_printMembers ps hk ih
    have hobj := Derives.object members hd
    rw [hm,Dict.assignAll_of_wf (by simpa [Dict.WF,Dict.keys,Function.comp_def] using hwf)] at hobj
    refine ⟨_,?_,hobj⟩
    rw [Value.print]
    simpa [moreItems] using ((Spelled.lexeme .lbrace).append (hs true)).append (.lexeme .rbrace)

/-! ## Small integers -/

theorem numberText_decimal (neg : Bool) (n : ℕ) :
    NumberText (if neg then chr '-' :: decimal n else decimal n) := by
  have h := NumberText.numeral (.integral neg (decimal n) (decimal_ne_nil n) (isdigit_decimal n))
    (by simp [Numeral.integral])
  rw [Numeral.text_integral] at h
  cases neg <;> exact h

def IsSmallInteger (d : Double) : Prop := ∃ n < 10^6, d.IsInteger n

theorem IsSmallInteger.rereads {d : Double} (h : IsSmallInteger d) : RereadsNumber d d := by
  obtain ⟨n,hn,hd⟩ := h
  refine ⟨?_,Double.stod_print_integer hd hn⟩
  obtain ⟨neg,m,rfl,hm⟩ := hd
  rw [Double.print,Double.showMagnitude_integer hm hn]
  exact numberText_decimal neg n

theorem rereads_self {v : Value} (h : v.Of IsSmallInteger Unescaped) : Rereads v v := by
  induction h with
  | nil => exact .nil
  | boolean b => exact .boolean b
  | number d h => exact .number h.rereads
  | string s h => exact .string h
  | array vs _ ih => simpa using Rereads.array_map (f:=id) ih
  | object ms hwf hk _ ih => simpa using Rereads.object_map (f:=id) hwf hk ih

/-- The round trip: however the members of the objects of `v` are enumerated, the printed
text is parsed as a value equal to `v`. -/
theorem parse_toString (v w : Value) (hv : v.Of IsSmallInteger Unescaped) (hw : v.Enumerates w)
    (hlen : w.toString.length < 2^31) : ∃ u, parseString w.toString = .ok u ∧ u.eq v = true := by
  refine ⟨w,(parseString_eq_ok hlen).mpr (denotes_print (rereads_self (hv.enumerates hw))),?_⟩
  refine (Value.eq_of_enumerates hw (hv.mono (fun d hd => ?_) fun _ _ => trivial)).2
  obtain ⟨n,-,neg,m,rfl,-⟩ := hd
  rfl

def seven : Double := .finite false ⟨7*2^50,-50,by decide,by decide,by decide,by decide⟩

theorem isSmallInteger_seven : IsSmallInteger seven :=
  ⟨7,by decide,false,_,rfl,by decide +kernel⟩

theorem parse_toString_object : ∃ u,
    parseString (Value.toString (.object [(ascii "b",.array [.number seven]),(ascii "a",.nil)])) =
      .ok u ∧ u.eq (.object [(ascii "a",.nil),(ascii "b",.array [.number seven])]) = true := by
  have hb : Value.Enumerates (.array [.number seven]) (.array [.number seven]) :=
    .array [(.number seven,.number seven)] (by simpa using .number seven)
  refine parse_toString _ _ ?_ (.object [(ascii "a",.nil,.nil),
    (ascii "b",.array [.number seven],.array [.number seven])] _ ?_ ?_) (by decide +kernel)
  · refine .object _ (by decide +kernel) (by decide +kernel) ?_
    simpa using ⟨.nil,.array _ (by simpa using .number seven isSmallInteger_seven)⟩
  · simpa using ⟨.nil,hb⟩
  · exact List.Perm.swap _ _ _

end Gabby.Json
