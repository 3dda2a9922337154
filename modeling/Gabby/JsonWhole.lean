import Gabby.JsonText

/-! Texts of any length. The length is made an `int`, which bounds the scanner and is compared
with its position; of a longer text only the part that the `int` accounts for is looked at. -/
namespace Gabby.Json

/-! ## What is looked at -/

/-- The part of a text that its length as an `int` accounts for. -/
def accounted (s : Bytes) : Bytes := s.take (toInt32 s.length).toNat

theorem accounted_of_lt {s : Bytes} (h : s.length < 2^31) : accounted s = s := by
  simp [accounted,toInt32_of_lt h]

theorem toInt32_le (n : ℕ) : toInt32 n ≤ n := by
  by_cases h : n < 2^31
  · rw [toInt32_of_lt h]
  · have hlt : toInt32 n < (2^32 + 1) / 2 := Int.bmod_lt (by norm_num)
    norm_num at hlt h
    omega

/-- `Parse` returns what that part denotes. -/
theorem parseOutcome_eq_ok {s : Bytes} {v : Value} :
    parseOutcome (.ofBytes s) (toInt32 s.length) = .ok v ↔ Denotes (accounted s) v := by
  rw [parseOutcome,parseRun_ofBytes,accounted]
  refine and_iff_left_of_imp fun hd => ?_
  have hle := toInt32_le s.length
  rw [List.length_take]
  -- nothing is denoted when the length is negative as an `int`
  by_cases h : 0 ≤ toInt32 s.length
  · omega
  · rw [Int.toNat_of_nonpos (by omega),List.take_zero] at hd
    exact absurd hd not_denotes_nil

/-! ## Meaning -/

theorem Denotes.unique {s : Bytes} {v w : Value} (hv : Denotes s v) (hw : Denotes s w) : v = w := by
  have h : ∀ {v}, Denotes s v → (parseRun (.ofBytes s) s.length).outcome = .ok v := fun h =>
    parseRun_complete (by simpa using h) (by simp)
  exact Except.ok.inj ((h hv).symm.trans (h hw))

theorem Denotes.append_space {s ws : Bytes} {v : Value} (h : Denotes s v) (hws : ws.all isspace) :
    Denotes (s ++ ws) v := by
  obtain ⟨ts,hs,hd⟩ := h
  exact ⟨ts,by simpa using hs.append (.nil hws),hd⟩

/-! ## Longer texts -/

namespace Tape

theorem Apart.space {ws text : Bytes} {ts : List Token} (hws : ws.all isspace)
    (h : Apart text ts) : Apart (ws ++ text) ts := by
  cases h with
  | nil h => exact .nil (by simp [hws,h])
  | cons hws' hraw he h =>
    simp only [← List.append_assoc]
    exact .cons (by simp [hws,hws']) hraw he h

theorem Apart.of_space {ws text : Bytes} {ts : List Token} (hws : ws.all isspace)
    (h : Apart (ws ++ text) ts) : Apart text ts := by
  have hdrop := h.dropWhile
  rw [List.dropWhile_append_of_pos (by simpa using hws)] at hdrop
  rw [← List.takeWhile_append_dropWhile (p:=isspace) (l:=text)]
  exact hdrop.space (List.all_takeWhile)

/-- A text that goes on after its last token has the same tokens and then others, unless that
token is a word or a number, which may go on itself. -/
theorem Apart.of_append {p r : Bytes} {ts ts' : List Token} (h : Apart p ts)
    (hlast : ∀ tok ∈ ts.getLast?, tok.type.isWord = false) (h' : Apart (p ++ r) ts') :
    ∃ us, ts' = ts ++ us ∧ Apart r us := by
  induction h generalizing ts' with
  | nil hws => exact ⟨ts',rfl,h'.of_space hws⟩
  | @cons ws raw rest tok ts hws hraw he h ih =>
    have hends : tok.type.isWord → Ends (rest ++ r) := by
      intro hword
      cases rest with
      | nil =>
        -- nothing is after the token, so it is the last one
        cases hts : ts with
        | nil => simp [hts,hword] at hlast
        | cons tok' ts =>
          rw [hts] at h
          generalize hnil : ([] : Bytes) = s at h
          cases h with
          | cons _ hraw' => simp [hraw'.ne_nil] at hnil
      | cons c rest => exact he hword
    obtain ⟨t,ht⟩ : ∃ t : Tape, t.At (ws ++ raw ++ (rest ++ r)) := ⟨⟨_,.eof,0,false,none⟩,rfl,rfl⟩
    obtain ⟨t₁,hr₁,ht₁⟩ := run_scan_at hws hraw hends ht
    have happ : ws ++ raw ++ rest ++ r = ws ++ raw ++ (rest ++ r) := List.append_assoc _ _ _
    generalize htext : ws ++ raw ++ rest ++ r = text at h'
    rw [← happ,htext] at ht
    cases h' with
    | nil hall =>
      obtain ⟨c,raw',rfl,hc⟩ := hraw.head
      rw [← htext] at hall
      simp [hc] at hall
    | @cons ws₂ raw₂ rest₂ tok₂ ts₂ hws₂ hraw₂ he₂ h₂ =>
      obtain ⟨t₂,hr₂,ht₂⟩ := run_scan_at hws₂ hraw₂ he₂ ht
      cases hr₁.symm.trans hr₂
      have hrest : rest ++ r = rest₂ := by
        have := congrArg Stream.bytesOf (ht₁.input.symm.trans ht₂.input)
        simpa only [Stream.bytesOf_map] using this
      subst hrest
      obtain ⟨us,rfl,hus⟩ := ih (fun tok' ht' => hlast tok' (by
        rw [List.getLast?_cons]
        simp [show ts.getLast? = some tok' from ht'])) h₂
      exact ⟨us,rfl,hus⟩

end Tape

/-- What may be added to a text without a change of its value: white space, or more of the
number that is all of it. -/
def Idle (p r : Bytes) : Prop :=
  r.all isspace ∨ ∃ d, Spelled p [.num d] ∧ Spelled (p ++ r) [.num d]

theorem Denotes.append {p r : Bytes} {v : Value} (h : Denotes p v) (hr : Idle p r) :
    Denotes (p ++ r) v := by
  rcases hr with hr | ⟨d,hp,hr⟩
  · exact h.append_space hr
  · obtain rfl := h.unique ⟨_,hp,.num d⟩
    exact ⟨_,hr,.num d⟩

theorem Spelled.one {text : Bytes} {tok : Token} (h : Spelled text [tok]) : ∃ ws raw ws',
    text = ws ++ raw ++ ws' ∧ ws.all isspace ∧ Lexeme raw tok ∧ ws'.all isspace := by
  cases h with
  | cons hws hraw h =>
    cases h with
    | nil hws' => exact ⟨_,_,_,rfl,hws,hraw,hws'⟩

/-- After a word that has one spelling only white space is left. -/
theorem space_of_word {p r : Bytes} (word : Bytes) {tok : Token}
    (hw : ∀ raw, Lexeme raw tok → raw = word) (h : Spelled p [tok])
    (h' : Spelled (p ++ r) [tok]) : r.all isspace := by
  obtain ⟨u,raw,w,rfl,hu,hraw,-⟩ := h.one
  obtain ⟨u',raw',w',heq,hu',hraw',hw'⟩ := h'.one
  obtain rfl : raw' = raw := (hw _ hraw').trans (hw _ hraw).symm
  obtain ⟨c,raw,rfl,hc⟩ := hraw.head
  have hdrop := congrArg (List.dropWhile isspace) heq
  simp only [List.append_assoc,List.cons_append] at hdrop
  rw [List.dropWhile_append_of_pos (by simpa using hu),
    List.dropWhile_append_of_pos (by simpa using hu'),
    List.dropWhile_cons_of_neg (by simp [hc]),List.dropWhile_cons_of_neg (by simp [hc])] at hdrop
  have htail : w ++ r = w' := List.append_cancel_left (List.cons.inj hdrop).2
  rw [← htail,List.all_append,Bool.and_eq_true] at hw'
  exact hw'.2

/-- A text and a longer one with the same value. -/
theorem Idle.of_denotes {p r : Bytes} {v : Value} (h : Denotes p v) (h' : Denotes (p ++ r) v) :
    Idle p r := by
  obtain ⟨ts,hs,hd⟩ := h
  obtain ⟨ts',hs',hd'⟩ := h'
  by_cases hlast : ∀ tok ∈ ts.getLast?, tok.type.isWord = false
  · obtain ⟨us,rfl,hus⟩ := (Tape.apart_of_spelled hs hd.shape.chain).of_append hlast
      (Tape.apart_of_spelled hs' hd'.shape.chain)
    obtain rfl : us = [] := by
      have := (hd.unique hd' (List.append_nil (ts ++ us)).symm).1
      simpa using this
    cases hus with
    | nil hws => exact .inl hws
  · cases hd with
    | num d =>
      cases hd'
      exact .inr ⟨d,hs,hs'⟩
    | bool b =>
      cases hd'
      refine .inl (space_of_word (if b then ascii "true" else ascii "false") ?_ hs hs')
      rintro raw ⟨⟩
      rfl
    | nil =>
      cases hd'
      refine .inl (space_of_word (ascii "null") ?_ hs hs')
      rintro raw ⟨⟩
      rfl
    | str s => exact absurd (by simp [TokenType.isWord]) hlast
    | array items _ => exact absurd (by simp [List.getLast?_cons,TokenType.isWord]) hlast
    | object members _ =>
      exact absurd (by simp [List.getLast?_cons,TokenType.isWord]) hlast

/-! ## Whole texts -/

/-- A value is returned only for the whole text, and white space after the text does not
change it. -/
structure CoversAll (parse : Bytes → Except (Stop Exn) Value) (s ws : Bytes) : Prop where
  whole : ∀ v, parse s = .ok v → Denotes s v
  space : ∀ v, parse s = .ok v → parse (s ++ ws) = .ok v

def IsText (s : Bytes) : Prop := ∃ v, Denotes s v

/-- The part of a text that its length as an `int` leaves out. -/
def leftOut (s : Bytes) : Bytes := s.drop (toInt32 s.length).toNat

theorem accounted_append_leftOut (s : Bytes) : accounted s ++ leftOut s = s :=
  List.take_append_drop _ _

/-- What is looked at is no text, or it is one, also with the white space, and what is left out
does not matter. -/
def CutHarmless (s ws : Bytes) : Prop := ¬ IsText (accounted s) ∨
  Idle (accounted s) (leftOut s) ∧
    IsText (accounted (s ++ ws)) ∧ Idle (accounted (s ++ ws)) (leftOut (s ++ ws))

/-- Nothing is left out of a text whose length an `int` holds. -/
theorem cutHarmless_of_lt {s ws : Bytes} (hws : ws.all isspace) (h : (s ++ ws).length < 2^31) :
    CutHarmless s ws := by
  have hnone : ∀ {t : Bytes}, t.length < 2^31 → leftOut t = [] := fun ht => by
    rw [leftOut,toInt32_of_lt ht]
    simp
  have hs : s.length < 2^31 := by
    rw [List.length_append] at h
    omega
  refine or_iff_not_imp_left.mpr fun htext => ?_
  rw [not_not,accounted_of_lt hs] at htext
  rw [hnone hs,hnone h,accounted_of_lt h]
  exact ⟨.inl rfl,htext.imp fun _ hv => hv.append_space hws,.inl rfl⟩

theorem coversAll_iff {parse : Bytes → Except (Stop Exn) Value}
    (hp : ∀ s v, parse s = .ok v ↔ Denotes (accounted s) v) {s ws : Bytes} (hws : ws.all isspace) :
    CoversAll parse s ws ↔ CutHarmless s ws := by
  have hsplit := accounted_append_leftOut
  constructor
  · intro h
    refine or_iff_not_imp_left.mpr fun htext => ?_
    obtain ⟨v,hv⟩ := not_not.mp htext
    have hok := (hp s v).mpr hv
    have hwhole := h.whole v hok
    have hspace := (hp _ v).mp (h.space v hok)
    refine ⟨.of_denotes hv ?_,⟨v,hspace⟩,.of_denotes hspace ?_⟩
    · rw [hsplit]
      exact hwhole
    · rw [hsplit]
      exact hwhole.append_space hws
  · rintro (hnone | ⟨hs,⟨u,hu⟩,ht⟩)
    · exact ⟨fun v hv => absurd ⟨v,(hp s v).mp hv⟩ hnone,
        fun v hv => absurd ⟨v,(hp s v).mp hv⟩ hnone⟩
    · have hwhole : ∀ v, parse s = .ok v → Denotes s v := fun v hv => by
        have := ((hp s v).mp hv).append hs
        rwa [hsplit] at this
      refine ⟨hwhole,fun v hv => (hp _ v).mpr ?_⟩
      have hlong := hu.append ht
      rw [hsplit] at hlong
      obtain rfl := hlong.unique ((hwhole v hv).append_space hws)
      exact hu

/-- `Parse` of a string and `ParseFile` cover all of a text exactly when what its length as an
`int` leaves out does not matter. -/
theorem parse_coversAll_iff (s ws : Bytes) (hws : ws.all isspace) :
    (CoversAll parseString s ws ↔ CutHarmless s ws) ∧
      (CoversAll parseFile s ws ↔ CutHarmless s ws) :=
  ⟨coversAll_iff (fun _ _ => parseOutcome_eq_ok) hws,
    coversAll_iff (fun _ _ => parseOutcome_eq_ok) hws⟩

theorem parse_coversAll_iff_null :
    (CoversAll parseString (ascii "null") (ascii " ") ↔ CutHarmless (ascii "null") (ascii " ")) ∧
      (CoversAll parseFile (ascii "null") (ascii " ") ↔ CutHarmless (ascii "null") (ascii " ")) :=
  parse_coversAll_iff _ _ (by decide)

def longText : Bytes := ascii "null" ++ List.replicate (2^32) (chr ',')

theorem accounted_longText : accounted longText = ascii "null" := by
  have hlen : toInt32 longText.length = 4 := by
    rw [longText,List.length_append,List.length_replicate]
    decide
  rw [accounted,hlen,longText]
  exact List.take_left' rfl

theorem Lexeme.eq_null {raw : Bytes} {tok : Token} (h : Lexeme raw tok) (ht : tok.type = .nil) :
    raw = ascii "null" := by
  cases h with
  | nil => rfl
  | _ => cases ht

/-- The commas are ignored. -/
theorem not_parse_coversAll : ¬ ∀ s ws : Bytes, ws.all isspace → (s ++ ws).length < 2^64 →
    CoversAll parseString s ws := by
  intro h
  have hcov := h longText [] rfl (by
    rw [List.append_nil,longText,List.length_append,List.length_replicate]
    decide)
  have hnull : Denotes (ascii "null") .nil := ⟨_,.lexeme .nil,.nil⟩
  obtain ⟨ts,hs,hd⟩ := hcov.whole .nil (parseOutcome_eq_ok.mpr (accounted_longText ▸ hnull))
  cases hd
  obtain ⟨raw,rest,htext,hraw,hrest⟩ := hs.of_cons (by rintro c ⟨⟩; decide)
  rw [hraw.eq_null rfl] at htext
  -- after the one token only white space may follow
  obtain rfl := List.append_cancel_left htext
  have hnil := hrest.of_nil (by rw [List.head?_replicate]; rintro c ⟨⟩; decide)
  rw [List.replicate_eq_nil_iff] at hnil
  omega

end Gabby.Json
