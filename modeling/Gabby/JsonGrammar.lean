import Gabby.JsonParser
import Mathlib.Data.List.Chain

/-! The JSON token grammar, and the parser as a decision procedure for it: what the parser
returns was derived, what can be derived is returned, and everything else is an error. -/
namespace Gabby.Json

open Exec

/-! ## Tokens -/

namespace Token

abbrev num (d : Double) : Token := ⟨.num,.double d⟩
abbrev str (s : Bytes) : Token := ⟨.str,.string s⟩
abbrev bool (b : Bool) : Token := ⟨.bool,.bool b⟩
abbrev nil : Token := ⟨.nil,.string (ascii "null")⟩
abbrev lbrace : Token := ⟨.lbrace,.char (chr '{')⟩
abbrev rbrace : Token := ⟨.rbrace,.char (chr '}')⟩
abbrev lbracket : Token := ⟨.lbracket,.char (chr '[')⟩
abbrev rbracket : Token := ⟨.rbracket,.char (chr ']')⟩
abbrev comma : Token := ⟨.comma,.char (chr ',')⟩
abbrev colon : Token := ⟨.colon,.char (chr ':')⟩

/-- The tokens the scanner delivers: the cargo is the one its type promises. -/
inductive WF : Token → Prop
  | num (d : Double) : WF (.num d)
  | str (s : Bytes) : WF (.str s)
  | bool (b : Bool) : WF (.bool b)
  | nil : WF .nil
  | lbrace : WF .lbrace
  | rbrace : WF .rbrace
  | lbracket : WF .lbracket
  | rbracket : WF .rbracket
  | comma : WF .comma
  | colon : WF .colon

end Token

/-! ## The grammar -/

/-- `(item (',' item)*)?` -/
def commaSeparated : List (List Token) → List Token
  | [] => []
  | ts::rest => ts ++ rest.flatMap (Token.comma :: ·)

/-- `value ::= NUM | STR | BOOL | NIL | '[' (value (',' value)*)? ']'
| '{' (STR ':' value (',' STR ':' value)*)? '}'`, with the value that the tokens mean. -/
inductive Derives : List Token → Value → Prop
  | num (d : Double) : Derives [.num d] (.number d)
  | str (s : Bytes) : Derives [.str s] (.string s)
  | bool (b : Bool) : Derives [.bool b] (.boolean b)
  | nil : Derives [.nil] .nil
  | array (items : List (List Token × Value)) (h : ∀ i ∈ items, Derives i.1 i.2) :
      Derives (.lbracket :: (commaSeparated (items.map Prod.fst) ++ [.rbracket]))
        (.array (items.map Prod.snd))
  | object (members : List (Bytes × List Token × Value))
      (h : ∀ m ∈ members, Derives m.2.1 m.2.2) :
      Derives (.lbrace :: (commaSeparated (members.map fun m => .str m.1 :: .colon :: m.2.1) ++
        [.rbrace])) (.object (Dict.assignAll [] (members.map fun m => (m.1,m.2.2))))

theorem Derives.head {ts : List Token} {v : Value} (h : Derives ts v) : ∃ tok ts',
    ts = tok::ts' ∧ tok.type ≠ .rbracket ∧ tok.type ≠ .rbrace ∧ tok.type ≠ .comma ∧
      tok.type ≠ .colon := by
  cases h <;> exact ⟨_,_,rfl,by simp,by simp,by simp,by simp⟩

theorem Derives.ne_nil {ts : List Token} {v : Value} (h : Derives ts v) : ts ≠ [] := by
  cases h <;> simp

/-! ### Neighbouring tokens -/

namespace TokenType

def isScalar : TokenType → Bool
  | num | str | bool | nil => true
  | _ => false

/-- A word or a number: it goes on until a character that cannot belong to it. -/
def isWord : TokenType → Bool
  | num | bool | nil => true
  | _ => false

theorem isScalar_of_isWord {t : TokenType} (h : t.isWord = true) : t.isScalar = true := by
  cases t <;> simp [isWord,isScalar] at h ⊢

def startsValue (t : TokenType) : Bool := t.isScalar || t = lbracket || t = lbrace
def endsValue (t : TokenType) : Bool := t.isScalar || t = rbracket || t = rbrace

end TokenType

/-- How two tokens may stand next to each other: two values are not neighbours (a comma would
be missing), and a comma stands between the end of a value and the start of one (it is not
leading, trailing or doubled). -/
structure Separated (a b : Token) : Prop where
  no_missing : ¬ (a.type.endsValue ∧ b.type.startsValue)
  after : a.type = .comma → b.type.startsValue
  before : b.type = .comma → a.type.endsValue

/-- Tokens from the start of a value to the end of one, with the commas where they belong. -/
structure Shape (ts : List Token) : Prop where
  chain : ts.IsChain Separated
  head : ∃ x, ts.head? = some x ∧ x.type.startsValue
  last : ∃ x, ts.getLast? = some x ∧ x.type.endsValue

namespace Shape

theorem singleton {x : Token} (h : x.type.isScalar) : Shape [x] :=
  ⟨by simp,⟨x,rfl,by simp [TokenType.startsValue,h]⟩,⟨x,rfl,by simp [TokenType.endsValue,h]⟩⟩

theorem member {k : Bytes} {ts : List Token} (h : Shape ts) :
    Shape (Token.str k :: Token.colon :: ts) := by
  obtain ⟨x,hx,hxs⟩ := h.head
  obtain ⟨y,hy,hye⟩ := h.last
  refine ⟨List.isChain_cons_cons.mpr ⟨⟨by simp [TokenType.startsValue,TokenType.isScalar],
    by simp,by simp⟩,List.isChain_cons.mpr ⟨fun z hz => ?_,h.chain⟩⟩,⟨.str k,rfl,rfl⟩,
    ⟨y,by simp [List.getLast?_cons,hy],hye⟩⟩
  rw [hx] at hz
  cases hz
  exact ⟨by simp [TokenType.endsValue,TokenType.isScalar],by simp,
    fun ht => by rw [ht] at hxs; cases hxs⟩

theorem comma {ts us : List Token} (h : Shape ts) (h' : Shape us) :
    Shape (ts ++ Token.comma :: us) := by
  obtain ⟨x,hx,hxs⟩ := h.head
  obtain ⟨y,hy,hye⟩ := h.last
  obtain ⟨x',hx',hxs'⟩ := h'.head
  obtain ⟨y',hy',hye'⟩ := h'.last
  refine ⟨h.chain.append (List.isChain_cons.mpr ⟨fun z hz => ?_,h'.chain⟩) fun u hu z hz => ?_,
    ⟨x,by simp [hx],hxs⟩,⟨y',by simp [List.getLast?_cons,hy'],hye'⟩⟩
  · rw [hx'] at hz
    cases hz
    exact ⟨by simp [TokenType.endsValue,TokenType.isScalar],fun _ => hxs',
      fun ht => by rw [ht] at hxs'; cases hxs'⟩
  · rw [hy] at hu
    cases hu
    cases hz
    exact ⟨by simp [TokenType.startsValue,TokenType.isScalar],
      fun ht => (by rw [ht] at hye; cases hye),fun _ => hye⟩

theorem commaSeparated {items : List (List Token)} (hne : items ≠ [])
    (h : ∀ ts ∈ items, Shape ts) : Shape (commaSeparated items) := by
  cases items with
  | nil => exact absurd rfl hne
  | cons ts items =>
    have key : ∀ ts, Shape ts → Shape (ts ++ items.flatMap (Token.comma :: ·)) := by
      clear hne
      induction items with
      | nil => simp
      | cons us items ih =>
        intro ts hts
        have hus := ih (fun vs hvs => h vs (by
          rcases List.mem_cons.mp hvs with rfl | hvs <;> simp [*])) us (h us (by simp))
        simpa using hts.comma hus
    exact key ts (h ts (by simp))

theorem enclosed {a b : Token} {ts : List Token} (ha : a.type = .lbracket ∨ a.type = .lbrace)
    (hb : b.type = .rbracket ∨ b.type = .rbrace) (h : ts = [] ∨ Shape ts) :
    Shape (a::(ts ++ [b])) := by
  have has : a.type.startsValue := by rcases ha with h | h <;> simp [h,TokenType.startsValue]
  have hae : a.type.endsValue = false := by rcases ha with h | h <;> rw [h] <;> rfl
  have hbe : b.type.endsValue := by rcases hb with h | h <;> simp [h,TokenType.endsValue]
  have hbs : b.type.startsValue = false := by rcases hb with h | h <;> rw [h] <;> rfl
  have hac : a.type ≠ .comma := by rcases ha with h | h <;> simp [h]
  have hbc : b.type ≠ .comma := by rcases hb with h | h <;> simp [h]
  have hlast : (a::(ts ++ [b])).getLast? = some b := by simp [List.getLast?_cons]
  have hab : ∀ x : Token, x.type.startsValue ∨ x = b → Separated a x := fun x hx =>
    ⟨by simp [hae],fun h => absurd h hac,fun h => by
      rcases hx with hx | rfl
      · rw [h] at hx
        cases hx
      · exact absurd h hbc⟩
  refine ⟨List.isChain_cons.mpr ⟨fun z hz => hab z ?_,?_⟩,⟨a,rfl,has⟩,⟨b,hlast,hbe⟩⟩
  · rcases h with rfl | h
    · exact .inr (by simpa using hz.symm)
    · obtain ⟨x,hx,hxs⟩ := h.head
      have : x = z := by simpa [hx] using hz
      exact .inl (this ▸ hxs)
  · rcases h with rfl | h
    · simp
    · refine h.chain.append (by simp) fun y hy z hz => ?_
      obtain ⟨y',hy',hye⟩ := h.last
      have hyy : y' = y := by simpa [hy'] using hy
      have hzb : b = z := by simpa using hz
      subst hyy hzb
      exact ⟨by simp [hbs],fun h => (by rw [h] at hye; cases hye),fun h => absurd h hbc⟩

end Shape

/-- No comma of a value is leading, trailing, doubled or missing, at any depth. -/
theorem Derives.shape {ts : List Token} {v : Value} (h : Derives ts v) : Shape ts := by
  induction h with
  | num d => exact .singleton rfl
  | str s => exact .singleton rfl
  | bool b => exact .singleton rfl
  | nil => exact .singleton rfl
  | array items _ ih =>
    refine .enclosed (.inl rfl) (.inl rfl) ?_
    cases items with
    | nil => exact .inl rfl
    | cons i items =>
      refine .inr (.commaSeparated (by simp) fun ts hts => ?_)
      obtain ⟨i',hi',rfl⟩ := List.mem_map.mp hts
      exact ih i' hi'
  | object members _ ih =>
    refine .enclosed (.inr rfl) (.inr rfl) ?_
    cases members with
    | nil => exact .inl rfl
    | cons m members =>
      refine .inr (.commaSeparated (by simp) fun ts hts => ?_)
      obtain ⟨m',hm',rfl⟩ := List.mem_map.mp hts
      exact (ih m' hm').member

namespace Parser

variable {σ : Type} [TokenSource σ]

/-! ## Soundness -/

/-- The tokens that some scans deliver, leaving out the scans that deliver none. -/
inductive Delivers : σ → List Token → σ → Prop
  | refl (s : σ) : Delivers s [] s
  | token {s t u : σ} {tok : Token} {ts : List Token}
      (h : TokenSource.scanSkipWhitespace.run s = (.ok (some tok),t)) (ht : Delivers t ts u) :
      Delivers s (tok::ts) u
  | pause {s t u : σ} {ts : List Token}
      (h : TokenSource.scanSkipWhitespace.run s = (.ok none,t)) (ht : Delivers t ts u) :
      Delivers s ts u

theorem Delivers.trans {s t u : σ} {ts us : List Token} (h : Delivers s ts t)
    (h' : Delivers t us u) : Delivers s (ts ++ us) u := by
  induction h with
  | refl s => exact h'
  | token hs _ ih => exact .token hs (ih h')
  | pause hs _ ih => exact .pause hs (ih h')

def Consumes (p : Parser σ) (ts : List Token) (q : Parser σ) : Prop :=
  ∃ us, Delivers p.scan us q.scan ∧ p.lookahead.toList ++ us = ts ++ q.lookahead.toList

theorem Consumes.trans {p q r : Parser σ} {ts us : List Token} (h : Consumes p ts q)
    (h' : Consumes q us r) : Consumes p (ts ++ us) r := by
  obtain ⟨ds,hd,he⟩ := h
  obtain ⟨ds',hd',he'⟩ := h'
  exact ⟨ds ++ ds',hd.trans hd',by rw [← List.append_assoc,he,List.append_assoc,he',
    List.append_assoc]⟩

/-- A source that, in states of `J`, delivers well-formed tokens and fails only with
exceptions of `A`. -/
structure SoundSource (J : σ → Prop) (A : Exn → Prop) : Prop where
  scan : ∀ s, J s → Wp TokenSource.scanSkipWhitespace (fun tok t => J t ∧
    TokenSource.tokens t + tok.toList.length ≤ TokenSource.tokens s ∧ ∀ x ∈ tok, x.WF)
    (fun e => ∃ x, e = .throw x ∧ A x) s
  parsingError : ∀ w, A (.parsingError w)

def remaining (p : Parser σ) : ℕ := TokenSource.tokens p.scan + p.lookahead.toList.length

/-- The step from `p` to `q` read these tokens; `q` is a state from which parsing can go on. -/
structure Advances (J : σ → Prop) (p : Parser σ) (ts : List Token) (q : Parser σ) : Prop where
  inv : J q.scan
  wf : ∀ x ∈ q.lookahead, x.WF
  consumes : Consumes p ts q
  le : q.remaining + ts.length ≤ p.remaining

namespace Advances

variable {J : σ → Prop} {p q r : Parser σ} {ts us : List Token}

theorem refl (hj : J p.scan) (hp : ∀ x ∈ p.lookahead, x.WF) : Advances J p [] p :=
  ⟨hj,hp,⟨[],.refl _,by simp⟩,by simp⟩

theorem trans (h : Advances J p ts q) (h' : Advances J q us r) : Advances J p (ts ++ us) r :=
  ⟨h'.inv,h'.wf,h.consumes.trans h'.consumes,by
    have := h.le
    have := h'.le
    simp only [List.length_append]
    omega⟩

theorem take {tok : Token} (hj : J p.scan) (hl : p.lookahead = some tok) :
    Advances J p [tok] (p.setLookahead none) :=
  ⟨hj,by simp [setLookahead],⟨[],.refl _,by simp [setLookahead,hl]⟩,
    by simp [remaining,setLookahead,hl]⟩

end Advances

section Soundness

variable {J : σ → Prop} {A : Exn → Prop} (h : SoundSource J A)
include h

theorem wp_peek {p : Parser σ} (hj : J p.scan) (hp : ∀ x ∈ p.lookahead, x.WF) :
    Wp peek (fun tok q => Advances J p [] q ∧ q.lookahead = tok)
      (fun e => ∃ x, e = .throw x ∧ A x) p := by
  simp only [peek,wp_bind,wp_read]
  cases hl : p.lookahead with
  | some tok => exact ⟨.refl hj hp,hl⟩
  | none =>
    simp only [wp_bind,wp_zoom,wp_modify,wp_pure]
    have hs := h.scan p.scan hj
    rcases hr : TokenSource.scanSkipWhitespace.run p.scan with ⟨e | tok,t⟩
    · simp only [Wp,hr] at hs ⊢
      exact hs
    · have hs' := hs.ok hr
      refine wp_of_ok hr ⟨⟨hs'.1,hs'.2.2,?_,?_⟩,rfl⟩
      · cases tok with
        | none => exact ⟨[],.pause hr (.refl _),by simp [hl,setLookahead]⟩
        | some tok => exact ⟨[tok],.token hr (.refl _),by simp [hl,setLookahead]⟩
      · simpa [remaining,hl,setLookahead,setScan] using hs'.2.1

theorem wp_next {p : Parser σ} (hj : J p.scan) (hp : ∀ x ∈ p.lookahead, x.WF) :
    Wp next (fun tok q => Advances J p [tok] q ∧ tok.WF ∧ q.lookahead = none)
      (fun e => ∃ x, e = .throw x ∧ A x) p := by
  simp only [next,wp_bind,wp_modify]
  refine (wp_peek h hj hp).mono ?_ fun _ he => he
  rintro (_ | tok) q ⟨hq,hl⟩
  · exact ⟨_,rfl,h.parsingError _⟩
  · exact ⟨hq.trans (.take hq.inv hl),hq.wf tok (by simp [hl]),rfl⟩

omit h in
theorem run_next {p : Parser σ} {tok : Token} (hl : p.lookahead = some tok) :
    next.run p = (.ok tok,p.setLookahead none) := by
  simp [next,peek,run_bind,hl]

omit h in
theorem run_eat {p : Parser σ} {tok : Token} (hl : p.lookahead = some tok) :
    (eat tok.type).run p = (.ok tok,p.setLookahead none) := by
  simp [eat,run_bind,run_next hl]

theorem wp_eat {p : Parser σ} (type : TokenType) (hj : J p.scan)
    (hp : ∀ x ∈ p.lookahead, x.WF) :
    Wp (eat type)
      (fun tok q => Advances J p [tok] q ∧ tok.WF ∧ tok.type = type ∧ q.lookahead = none)
      (fun e => ∃ x, e = .throw x ∧ A x) p := by
  simp only [eat,wp_bind]
  refine (wp_next h hj hp).mono ?_ fun _ he => he
  rintro tok q ⟨hq,hw,hl⟩
  split
  · exact ⟨_,rfl,h.parsingError _⟩
  · rename_i ht
    exact ⟨hq,hw,not_not.mp ht,hl⟩

theorem wp_eatSeparator {p : Parser σ} (empty : Bool) (hj : J p.scan)
    (hp : ∀ x ∈ p.lookahead, x.WF) :
    Wp (eatSeparator empty) (fun _ q => Advances J p (if empty then [] else [.comma]) q)
      (fun e => ∃ x, e = .throw x ∧ A x) p := by
  unfold eatSeparator
  cases empty with
  | true => exact .refl hj hp
  | false =>
    simp only [Bool.false_eq_true,if_false,wp_bind,wp_pure]
    refine (wp_eat h .comma hj hp).mono ?_ fun _ he => he
    rintro tok q ⟨hq,hw,ht,-⟩
    cases hw <;> simp at ht
    exact hq

/-- The items after those that are there already. -/
def moreItems (empty : Bool) (items : List (List Token)) : List Token :=
  if empty then commaSeparated items else items.flatMap (Token.comma :: ·)

omit h [TokenSource σ] in
theorem moreItems_cons (empty : Bool) (ts : List Token) (items : List (List Token)) :
    moreItems empty (ts::items) =
      (if empty then [] else [.comma]) ++ ts ++ moreItems false items := by
  cases empty <;> simp [moreItems,commaSeparated]

omit h [TokenSource σ] in
@[simp] theorem moreItems_nil (empty : Bool) : moreItems empty [] = [] := by
  cases empty <;> rfl

/-- `valueN` with this fuel returns only values that the tokens it read derive. -/
def ValueSpec (J : σ → Prop) (A : Exn → Prop) (n : ℕ) : Prop :=
  ∀ p : Parser σ, J p.scan → (∀ x ∈ p.lookahead, x.WF) → 2*p.remaining+1 ≤ n →
    Wp (valueN n) (fun v q => ∃ ts, Derives ts v ∧ Advances J p ts q ∧ q.lookahead = none)
      (fun e => ∃ x, e = .throw x ∧ A x) p

def ElementsSpec (J : σ → Prop) (A : Exn → Prop) (n : ℕ) : Prop :=
  ∀ (vs : List Value) (p : Parser σ), J p.scan → (∀ x ∈ p.lookahead, x.WF) →
    2*p.remaining+2 ≤ n →
    Wp (elementsN n vs) (fun ws q => ∃ items : List (List Token × Value),
      ws = vs ++ items.map Prod.snd ∧ (∀ i ∈ items, Derives i.1 i.2) ∧
      Advances J p (moreItems vs.isEmpty (items.map Prod.fst)) q)
      (fun e => ∃ x, e = .throw x ∧ A x) p

def MembersSpec (J : σ → Prop) (A : Exn → Prop) (n : ℕ) : Prop :=
  ∀ (ms : Dict Bytes Value) (p : Parser σ), J p.scan → (∀ x ∈ p.lookahead, x.WF) →
    2*p.remaining+2 ≤ n →
    Wp (membersN n ms) (fun ws q => ∃ members : List (Bytes × List Token × Value),
      ws = ms.assignAll (members.map fun m => (m.1,m.2.2)) ∧
      (∀ m ∈ members, Derives m.2.1 m.2.2) ∧
      Advances J p (moreItems ms.isEmpty (members.map fun m => .str m.1 :: .colon :: m.2.1)) q)
      (fun e => ∃ x, e = .throw x ∧ A x) p

theorem valueSpec_succ {n : ℕ} (he : ElementsSpec J A n) (hm : MembersSpec J A n) :
    ValueSpec J A (n+1) := by
  intro p hj hp hn
  simp only [valueN,wp_bind]
  refine (wp_peek h hj hp).mono ?_ fun _ he => he
  rintro (_ | tok) q ⟨hq,hl⟩
  · exact ⟨_,rfl,h.parsingError _⟩
  have ht : Advances J p [tok] (q.setLookahead none) := hq.trans (.take hq.inv hl)
  have hr : (q.setLookahead none).remaining < p.remaining := by
    have := ht.le
    simp only [List.length_singleton] at this
    omega
  cases hq.wf tok (by simp [hl]) with
  | num d =>
    simp only [wp_bind]
    exact wp_of_ok (run_next hl) ⟨_,.num d,ht,rfl⟩
  | str s =>
    simp only [wp_bind]
    exact wp_of_ok (run_next hl) ⟨_,.str s,ht,rfl⟩
  | bool b =>
    simp only [wp_bind]
    exact wp_of_ok (run_next hl) ⟨_,.bool b,ht,rfl⟩
  | nil =>
    simp only [wp_bind]
    exact wp_of_ok (run_next hl) ⟨_,.nil,ht,rfl⟩
  | lbracket =>
    simp only [wp_bind]
    refine wp_of_ok (run_eat hl) ?_
    refine (he [] _ ht.inv ht.wf (by omega)).mono ?_ fun _ he => he
    rintro ws q' ⟨items,rfl,hi,hq'⟩
    refine (wp_eat h .rbracket hq'.inv hq'.wf).mono ?_ fun _ he => he
    rintro tok q'' ⟨hq'',hw,hty,hl'⟩
    cases hw <;> simp at hty
    exact wp_pure.mpr ⟨_,.array items hi,
      by simpa [moreItems] using (ht.trans hq').trans hq'',hl'⟩
  | lbrace =>
    simp only [wp_bind]
    refine wp_of_ok (run_next hl) ?_
    refine (hm [] _ ht.inv ht.wf (by omega)).mono ?_ fun _ he => he
    rintro ws q' ⟨members,rfl,hi,hq'⟩
    refine (wp_eat h .rbrace hq'.inv hq'.wf).mono ?_ fun _ he => he
    rintro tok q'' ⟨hq'',hw,hty,hl'⟩
    cases hw <;> simp at hty
    exact wp_pure.mpr ⟨_,.object members hi,
      by simpa [moreItems] using (ht.trans hq').trans hq'',hl'⟩
  | rbrace => exact ⟨_,rfl,h.parsingError _⟩
  | rbracket => exact ⟨_,rfl,h.parsingError _⟩
  | comma => exact ⟨_,rfl,h.parsingError _⟩
  | colon => exact ⟨_,rfl,h.parsingError _⟩

theorem elementsSpec_succ {n : ℕ} (hv : ValueSpec J A n) (he : ElementsSpec J A n) :
    ElementsSpec J A (n+1) := by
  intro vs p hj hp hn
  simp only [elementsN,wp_bind]
  refine (wp_peek h hj hp).mono ?_ fun _ he => he
  rintro (_ | tok) q ⟨hq,hl⟩
  · exact wp_pure.mpr ⟨[],by simp,by simp,by simpa using hq⟩
  dsimp only
  split
  · exact wp_pure.mpr ⟨[],by simp,by simp,by simpa using hq⟩
  simp only [wp_bind]
  refine (wp_eatSeparator h vs.isEmpty hq.inv hq.wf).mono ?_ fun _ he => he
  intro _ q₁ hq₁
  have h₁ := hq.trans hq₁
  refine (hv q₁ hq₁.inv hq₁.wf (by have := h₁.le; omega)).mono ?_ fun _ he => he
  rintro v q₂ ⟨ts,hd,hq₂,-⟩
  have h₂ := h₁.trans hq₂
  have hts := List.length_pos_of_ne_nil hd.ne_nil
  refine (he (vs ++ [v]) q₂ hq₂.inv hq₂.wf (by
    have := h₂.le
    simp only [List.length_append] at this
    omega)).mono ?_ fun _ he => he
  rintro ws q₃ ⟨items,rfl,hi,hq₃⟩
  refine ⟨(ts,v)::items,by simp,List.forall_mem_cons.mpr ⟨hd,hi⟩,?_⟩
  have hne : (vs ++ [v]).isEmpty = false := by simp
  rw [hne] at hq₃
  simpa [moreItems_cons] using h₂.trans hq₃

theorem membersSpec_succ {n : ℕ} (hv : ValueSpec J A n) (hm : MembersSpec J A n) :
    MembersSpec J A (n+1) := by
  intro ms p hj hp hn
  simp only [membersN,wp_bind]
  refine (wp_peek h hj hp).mono ?_ fun _ he => he
  rintro (_ | tok) q ⟨hq,hl⟩
  · exact wp_pure.mpr ⟨[],by simp,by simp,by simpa using hq⟩
  dsimp only
  split
  · exact wp_pure.mpr ⟨[],by simp,by simp,by simpa using hq⟩
  simp only [wp_bind]
  refine (wp_eatSeparator h ms.isEmpty hq.inv hq.wf).mono ?_ fun _ he => he
  intro _ q₁ hq₁
  refine (wp_eat h .str hq₁.inv hq₁.wf).mono ?_ fun _ he => he
  rintro tok₁ q₂ ⟨hq₂,hw₁,hty₁,-⟩
  cases hw₁ <;> simp at hty₁
  rename_i k
  refine (wp_eat h .colon hq₂.inv hq₂.wf).mono ?_ fun _ he => he
  rintro tok₂ q₃ ⟨hq₃,hw₂,hty₂,-⟩
  cases hw₂ <;> simp at hty₂
  have h₃ := ((hq.trans hq₁).trans hq₂).trans hq₃
  refine (hv q₃ hq₃.inv hq₃.wf (by
    have := h₃.le
    simp only [List.length_append] at this
    omega)).mono ?_ fun _ he => he
  rintro v q₄ ⟨ts,hd,hq₄,-⟩
  have h₄ := h₃.trans hq₄
  refine (hm (ms.assign k v) q₄ hq₄.inv hq₄.wf (by
    have := h₄.le
    simp only [List.length_append,List.length_singleton] at this
    omega)).mono ?_ fun _ he => he
  rintro ws q₅ ⟨members,rfl,hi,hq₅⟩
  refine ⟨(k,ts,v)::members,by simp,List.forall_mem_cons.mpr ⟨hd,hi⟩,?_⟩
  have hne : (ms.assign k v).isEmpty = false := by
    simp [Dict.assign_ne_nil ms k v]
  rw [hne] at hq₅
  simpa [moreItems_cons] using h₄.trans hq₅

theorem valueN_sound (n : ℕ) : ValueSpec J A n ∧ ElementsSpec J A n ∧ MembersSpec J A n := by
  induction n with
  | zero =>
    exact ⟨fun _ _ _ hn => by omega,fun _ _ _ _ hn => by omega,fun _ _ _ _ hn => by omega⟩
  | succ n ih =>
    obtain ⟨hv,he,hm⟩ := ih
    exact ⟨valueSpec_succ h he hm,elementsSpec_succ h hv he,membersSpec_succ h hv hm⟩

omit h in
theorem run_value_eq (p : Parser σ) : value.run p = (valueN p.fuel).run p := by
  simp only [run,value]

/-- What `Value` returns was derived from the tokens it read, and otherwise it throws one of
the exceptions of its source. -/
theorem value_sound {p : Parser σ} (hj : J p.scan) (hp : ∀ x ∈ p.lookahead, x.WF) :
    Wp value (fun v q => ∃ ts, Derives ts v ∧ Advances J p ts q ∧ q.lookahead = none)
      (fun e => ∃ x, e = .throw x ∧ A x) p := by
  rw [Wp,run_value_eq]
  exact (valueN_sound h p.fuel).1 p hj hp (by simp [fuel,remaining])

end Soundness

/-! ## Completeness -/

inductive Feeds : σ → List Token → σ → Prop
  | nil (s : σ) : Feeds s [] s
  | cons {s t u : σ} {tok : Token} {ts : List Token}
      (h : TokenSource.scanSkipWhitespace.run s = (.ok (some tok),t)) (ht : Feeds t ts u) :
      Feeds s (tok::ts) u

def Ready (p : Parser σ) (ts : List Token) (s : σ) : Prop :=
  ∃ us, p.lookahead.toList ++ us = ts ∧ Feeds p.scan us s

variable {p : Parser σ} {s : σ} {tok : Token} {ts rest : List Token}

theorem run_peek (h : Ready p (tok::ts) s) : ∃ q, peek.run p = (.ok (some tok),q) ∧
    q.lookahead = some tok ∧ Ready q (tok::ts) s ∧ Ready (q.setLookahead none) ts s := by
  obtain ⟨us,hu,hf⟩ := h
  cases hl : p.lookahead with
  | some tok' =>
    simp only [hl,Option.toList_some,List.cons_append,List.nil_append,List.cons.injEq] at hu
    obtain ⟨rfl,rfl⟩ := hu
    exact ⟨p,by simp [peek,run_bind,hl],hl,⟨us,by simp [hl],hf⟩,⟨us,by simp [setLookahead],hf⟩⟩
  | none =>
    simp only [hl,Option.toList_none,List.nil_append] at hu
    subst hu
    cases hf with
    | cons hs ht =>
      refine ⟨(p.setScan _).setLookahead (some tok),by simp [peek,run_bind,hl,hs],rfl,
        ⟨ts,rfl,ht⟩,⟨ts,rfl,ht⟩⟩

theorem run_next_ready (h : Ready p (tok::ts) s) :
    ∃ q, next.run p = (.ok tok,q) ∧ Ready q ts s := by
  obtain ⟨q,hq,-,-,hr⟩ := run_peek h
  exact ⟨_,by simp [next,run_bind,hq],hr⟩

theorem run_eat_ready (h : Ready p (tok::ts) s) :
    ∃ q, (eat tok.type).run p = (.ok tok,q) ∧ Ready q ts s := by
  obtain ⟨q,hq,hr⟩ := run_next_ready h
  exact ⟨q,by simp [eat,run_bind,hq],hr⟩

theorem run_eatSeparator_ready (empty : Bool)
    (h : Ready p ((if empty then [] else [Token.comma]) ++ ts) s) :
    ∃ q, (eatSeparator empty).run p = (.ok (),q) ∧ Ready q ts s := by
  cases empty with
  | true => exact ⟨p,rfl,h⟩
  | false =>
    obtain ⟨q,hq,hr⟩ := run_eat_ready h
    exact ⟨q,by simp [eatSeparator,run_bind,hq],hr⟩

/-- With enough fuel these tokens, whatever follows them, are parsed as this value. -/
def Parses (σ : Type) [TokenSource σ] (ts : List Token) (v : Value) : Prop :=
  ∀ (n : ℕ) (p : Parser σ) (rest : List Token) (s : σ), 2*ts.length ≤ n →
    Ready p (ts ++ rest) s → ∃ q, (valueN n).run p = (.ok v,q) ∧ Ready q rest s

theorem run_elementsN (items : List (List Token × Value)) (hd : ∀ i ∈ items, Derives i.1 i.2)
    (ih : ∀ i ∈ items, Parses σ i.1 i.2) (n : ℕ) (vs : List Value) (p : Parser σ)
    (hn : 2*(moreItems vs.isEmpty (items.map Prod.fst)).length+1 ≤ n)
    (hp : Ready p (moreItems vs.isEmpty (items.map Prod.fst) ++ .rbracket :: rest) s) :
    ∃ q, (elementsN n vs).run p = (.ok (vs ++ items.map Prod.snd),q) ∧
      Ready q (.rbracket :: rest) s := by
  induction items generalizing n vs p with
  | nil =>
    cases n with
    | zero => omega
    | succ n =>
      simp only [List.map_nil,moreItems_nil,List.nil_append] at hp
      obtain ⟨q,hq,-,hr,-⟩ := run_peek hp
      exact ⟨q,by simp [elementsN,run_bind,hq],hr⟩
  | cons i items ih' =>
    rcases i with ⟨ts,v⟩
    cases n with
    | zero => omega
    | succ n =>
      simp only [List.map_cons,moreItems_cons,List.length_append,List.append_assoc] at hn hp
      obtain ⟨tok,ts',he,ht,-⟩ := (hd (ts,v) (by simp)).head
      dsimp only at he
      have hpos : 0 < ts.length := by simp [he]
      -- the next token is the comma or the first token of the element, never a bracket
      obtain ⟨tok',us,he',ht'⟩ : ∃ tok' us, (if vs.isEmpty then [] else [Token.comma]) ++
          (ts ++ (moreItems false (items.map Prod.fst) ++ .rbracket :: rest)) = tok'::us ∧
          tok'.type ≠ .rbracket := by
        cases hb : vs.isEmpty with
        | true => exact ⟨tok,_,by rw [he]; rfl,ht⟩
        | false => exact ⟨.comma,_,rfl,by simp⟩
      rw [he'] at hp
      obtain ⟨q₁,hq₁,-,hr₁,-⟩ := run_peek hp
      rw [← he'] at hr₁
      obtain ⟨q₂,hq₂,hr₂⟩ := run_eatSeparator_ready vs.isEmpty hr₁
      obtain ⟨q₃,hq₃,hr₃⟩ := ih (ts,v) (by simp) n q₂ _ s (by dsimp only; omega) hr₂
      have hne : (vs ++ [v]).isEmpty = false := by simp
      obtain ⟨q,hq,hr⟩ := ih' (fun i hi => hd i (by simp [hi])) (fun i hi => ih i (by simp [hi]))
        n (vs ++ [v]) q₃ (by rw [hne]; omega) (by rw [hne]; exact hr₃)
      refine ⟨q,?_,hr⟩
      simp only [elementsN,run_bind,hq₁,ht',if_false,hq₂,hq₃,hq]
      simp

theorem run_membersN (members : List (Bytes × List Token × Value))
    (ih : ∀ m ∈ members, Parses σ m.2.1 m.2.2) (n : ℕ) (ms : Dict Bytes Value) (p : Parser σ)
    (hn : 2*(moreItems ms.isEmpty
      (members.map fun m => .str m.1 :: .colon :: m.2.1)).length+1 ≤ n)
    (hp : Ready p (moreItems ms.isEmpty
      (members.map fun m => .str m.1 :: .colon :: m.2.1) ++ .rbrace :: rest) s) :
    ∃ q, (membersN n ms).run p = (.ok (ms.assignAll (members.map fun m => (m.1,m.2.2))),q) ∧
      Ready q (.rbrace :: rest) s := by
  induction members generalizing n ms p with
  | nil =>
    cases n with
    | zero => omega
    | succ n =>
      simp only [List.map_nil,moreItems_nil,List.nil_append] at hp
      obtain ⟨q,hq,-,hr,-⟩ := run_peek hp
      exact ⟨q,by simp [membersN,run_bind,hq],hr⟩
  | cons m members ih' =>
    rcases m with ⟨k,ts,v⟩
    cases n with
    | zero => omega
    | succ n =>
      simp only [List.map_cons,moreItems_cons,List.length_append,List.length_cons,
        List.append_assoc,List.cons_append] at hn hp
      obtain ⟨tok',us,he',ht'⟩ : ∃ tok' us, (if ms.isEmpty then [] else [Token.comma]) ++
          Token.str k :: Token.colon :: (ts ++ (moreItems false
            (members.map fun m => .str m.1 :: .colon :: m.2.1) ++ .rbrace :: rest)) = tok'::us ∧
          tok'.type ≠ .rbrace := by
        cases hb : ms.isEmpty with
        | true => exact ⟨.str k,_,rfl,by simp⟩
        | false => exact ⟨.comma,_,rfl,by simp⟩
      rw [he'] at hp
      obtain ⟨q₁,hq₁,-,hr₁,-⟩ := run_peek hp
      rw [← he'] at hr₁
      obtain ⟨q₂,hq₂,hr₂⟩ := run_eatSeparator_ready ms.isEmpty hr₁
      obtain ⟨q₃,hq₃,hr₃⟩ := run_eat_ready hr₂
      obtain ⟨q₄,hq₄,hr₄⟩ := run_eat_ready hr₃
      obtain ⟨q₅,hq₅,hr₅⟩ := ih (k,ts,v) (by simp) n q₄ _ s (by dsimp only; omega) hr₄
      have hne : (ms.assign k v).isEmpty = false := by simp [Dict.assign_ne_nil ms k v]
      obtain ⟨q,hq,hr⟩ := ih' (fun m hm => ih m (by simp [hm])) n (ms.assign k v) q₅
        (by rw [hne]; omega) (by rw [hne]; exact hr₅)
      refine ⟨q,?_,hr⟩
      simp only [membersN,run_bind,hq₁,ht',if_false,hq₂,hq₃,Cargo.getString,run_pure,hq₄,hq₅,hq]
      simp

/-- A value of one token is parsed by looking at the token and taking it. -/
theorem parses_token {tok : Token} {v : Value} (h : ∀ (n : ℕ) (p q q' : Parser σ),
    peek.run p = (.ok (some tok),q) → next.run q = (.ok tok,q') →
      (valueN (n+1)).run p = (.ok v,q')) : Parses σ [tok] v := by
  intro n p rest s hn hp
  cases n with
  | zero => simp at hn
  | succ n =>
    obtain ⟨q,hq,-,hr,-⟩ := run_peek hp
    obtain ⟨q',hq',hr'⟩ := run_next_ready hr
    exact ⟨q',h n p q q' hq hq',hr'⟩

theorem parses_of_derives {v : Value} (h : Derives ts v) : Parses σ ts v := by
  induction h with
  | num d =>
    exact parses_token fun n p q q' hq hq' => by simp [valueN,run_bind,hq,hq',Cargo.getDouble]
  | str s =>
    exact parses_token fun n p q q' hq hq' => by simp [valueN,run_bind,hq,hq',Cargo.getString]
  | bool b =>
    exact parses_token fun n p q q' hq hq' => by simp [valueN,run_bind,hq,hq',Cargo.getBool]
  | nil => exact parses_token fun n p q q' hq hq' => by simp [valueN,run_bind,hq,hq']
  | array items hd ih =>
    intro n p rest s hn hp
    cases n with
    | zero => simp at hn
    | succ n =>
      simp only [List.length_cons,List.length_append,List.length_nil] at hn
      simp only [List.cons_append,List.append_assoc,List.nil_append] at hp
      obtain ⟨q₁,hq₁,hl,hr₁,-⟩ := run_peek hp
      obtain ⟨q₂,hq₂,hr₂⟩ := run_eat_ready hr₁
      obtain ⟨q₃,hq₃,hr₃⟩ := run_elementsN items hd ih n [] q₂ (by simp [moreItems]; omega)
        (by simpa [moreItems] using hr₂)
      obtain ⟨q₄,hq₄,hr₄⟩ := run_eat_ready hr₃
      exact ⟨q₄,by simp [valueN,run_bind,hq₁,hq₂,hq₃,hq₄],hr₄⟩
  | object members hd ih =>
    intro n p rest s hn hp
    cases n with
    | zero => simp at hn
    | succ n =>
      simp only [List.length_cons,List.length_append,List.length_nil] at hn
      simp only [List.cons_append,List.append_assoc,List.nil_append] at hp
      obtain ⟨q₁,hq₁,hl,hr₁,-⟩ := run_peek hp
      obtain ⟨q₂,hq₂,hr₂⟩ := run_next_ready hr₁
      obtain ⟨q₃,hq₃,hr₃⟩ := run_membersN members ih n [] q₂ (by simp [moreItems]; omega)
        (by simpa [moreItems] using hr₂)
      obtain ⟨q₄,hq₄,hr₄⟩ := run_eat_ready hr₃
      exact ⟨q₄,by simp [valueN,run_bind,hq₁,hq₂,hq₃,hq₄],hr₄⟩

theorem run_value {v : Value} (h : Derives ts v) (hn : ts.length ≤ p.remaining)
    (hp : Ready p (ts ++ rest) s) : ∃ q, value.run p = (.ok v,q) ∧ Ready q rest s := by
  rw [run_value_eq]
  exact parses_of_derives h p.fuel p rest s (by simp only [remaining,fuel] at *; omega) hp

end Parser

/-! ## A list of tokens -/

/-- A scanner that delivers the tokens of a list and then none. -/
instance : TokenSource (List Token) where
  scanSkipWhitespace := Exec.step fun
    | [] => (.ok none,[])
    | tok::ts => (.ok (some tok),ts)
  tokens := List.length

namespace Parser

def unread (p : Parser (List Token)) : List Token := p.lookahead.toList ++ p.scan

theorem delivers_list {ts us vs : List Token} (h : Delivers ts us vs) : ts = us ++ vs := by
  induction h with
  | refl => rfl
  | @token s t u tok us hs ht ih =>
    cases s <;> simp [TokenSource.scanSkipWhitespace] at hs
    simp [hs,ih]
  | @pause s t u us hs ht ih =>
    cases s <;> simp [TokenSource.scanSkipWhitespace] at hs
    rw [← ih,hs]

theorem feeds_list (ts us : List Token) : Feeds (ts ++ us) ts us := by
  induction ts with
  | nil => exact .nil us
  | cons tok ts ih => exact .cons rfl ih

theorem feeds_list_nil {ts us : List Token} (h : Feeds ts us []) : ts = us := by
  generalize hs : ([] : List Token) = s at h
  induction h with
  | nil => exact hs.symm
  | @cons s t u tok us h _ ih =>
    cases s <;> simp [TokenSource.scanSkipWhitespace] at h
    simp [h,← ih hs]

theorem ready_unread {p : Parser (List Token)} {ts : List Token} (h : Ready p ts []) :
    p.unread = ts := by
  obtain ⟨us,hu,hf⟩ := h
  rw [unread,feeds_list_nil hf,hu]

theorem soundList : SoundSource (σ:=List Token) (fun ts => ∀ t ∈ ts, t.WF)
    (fun x => ∃ w, x = .parsingError w) where
  scan := by
    rintro (_ | ⟨tok,ts⟩) hts
    · exact wp_of_ok (a:=none) (t:=[]) rfl ⟨by simp,by simp,by simp⟩
    · exact wp_of_ok (a:=some tok) (t:=ts) rfl ⟨fun t ht => hts t (by simp [ht]),
        by simp [TokenSource.tokens],by simpa using hts tok (by simp)⟩
  parsingError w := ⟨w,rfl⟩

end Parser

namespace Derives

variable {p p' r r' : List Token} {v v' : Value}

theorem run_value_list (hd : Derives p v) (r : List Token) :
    ∃ q, Parser.value.run (Parser.init (p ++ r)) = (.ok v,q) ∧ q.unread = r := by
  have hready : Parser.Ready (Parser.init (p ++ r)) (p ++ r) [] :=
    ⟨p ++ r,rfl,by simpa [Parser.init] using Parser.feeds_list (p ++ r) []⟩
  obtain ⟨q,hq,hr⟩ := Parser.run_value hd
    (by simp [Parser.remaining,Parser.init,TokenSource.tokens]) hready
  exact ⟨q,hq,Parser.ready_unread hr⟩

/-- No value begins with the tokens of another. -/
theorem unique (hd : Derives p v) (hd' : Derives p' v') (h : p ++ r = p' ++ r') :
    p = p' ∧ v = v' := by
  obtain ⟨q,hq,hr⟩ := hd.run_value_list r
  obtain ⟨q',hq',hr'⟩ := hd'.run_value_list r'
  rw [h,hq'] at hq
  cases hq
  subst hr hr'
  exact ⟨List.append_cancel_right h,rfl⟩

end Derives

/-- `Value` accepts exactly what the grammar derives: on the tokens `ts` it returns `v` and
leaves `r` unread if and only if `r` is what follows tokens that derive `v`; these tokens
and the value are unique; everything else is a parsing error; and no comma of what it
accepts is leading, trailing, doubled or missing, at any depth. -/
theorem value_accepts_grammar (ts : List Token) (hts : ∀ t ∈ ts, t.WF) :
    (∀ v r, (∃ q, Parser.value.run (Parser.init ts) = (.ok v,q) ∧ q.unread = r) ↔
      ∃ p, ts = p ++ r ∧ Derives p v) ∧
    (∀ p v r p' v' r', ts = p ++ r → Derives p v → ts = p' ++ r' → Derives p' v' →
      p = p' ∧ v = v') ∧
    ((¬ ∃ p v r, ts = p ++ r ∧ Derives p v) →
      ∃ w q, Parser.value.run (Parser.init ts) = (.error (.throw (.parsingError w)),q)) ∧
    ∀ p v r, ts = p ++ r → Derives p v → p.IsChain Separated := by
  have hsound := Parser.value_sound Parser.soundList (p:=Parser.init ts) hts (by simp [Parser.init])
  refine ⟨fun v r => ⟨?_,?_⟩,?_,?_,fun p v r _ hd => hd.shape.chain⟩
  · rintro ⟨q,hq,rfl⟩
    obtain ⟨p,hd,hadv,-⟩ := hsound.ok hq
    obtain ⟨us,hdel,hus⟩ := hadv.consumes
    refine ⟨p,?_,hd⟩
    have := Parser.delivers_list hdel
    simp only [Parser.init,Option.toList_none,List.nil_append] at this hus
    rw [this,hus,Parser.unread,List.append_assoc]
  · rintro ⟨p,rfl,hd⟩
    exact hd.run_value_list r
  · rintro p v r p' v' r' rfl hd h' hd'
    exact hd.unique hd' h'
  · intro hno
    rcases hrun : Parser.value.run (Parser.init ts) with ⟨e | v,q⟩
    · obtain ⟨x,rfl,w,rfl⟩ := hsound.error hrun
      exact ⟨w,q,rfl⟩
    · obtain ⟨p,hd,hadv,-⟩ := hsound.ok hrun
      obtain ⟨us,hdel,hus⟩ := hadv.consumes
      have := Parser.delivers_list hdel
      simp only [Parser.init,Option.toList_none,List.nil_append] at this hus
      exact absurd ⟨p,v,q.unread,by rw [this,hus,Parser.unread,List.append_assoc],hd⟩ hno

theorem value_accepts_grammar_array : ∃ q, Parser.value.run
    (Parser.init [.lbracket,.bool true,.comma,.nil,.rbracket,.colon]) =
      (.ok (.array [.boolean true,.nil]),q) ∧ q.unread = [.colon] :=
  ((value_accepts_grammar [.lbracket,.bool true,.comma,.nil,.rbracket,.colon] (by
    simp only [List.forall_mem_cons,List.not_mem_nil,false_imp_iff,implies_true,and_true]
    exact ⟨.lbracket,.bool true,.comma,.nil,.rbracket,.colon⟩)).1 _ _).mpr
    ⟨[.lbracket,.bool true,.comma,.nil,.rbracket],rfl,
      .array [([.bool true],.boolean true),([.nil],.nil)] (by
        simp only [List.forall_mem_cons,List.not_mem_nil,false_imp_iff,implies_true,and_true]
        exact ⟨.bool true,.nil⟩)⟩

end Gabby.Json
