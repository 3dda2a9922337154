import Gabby.JsonTapeComplete
import Gabby.JsonFraming
import Gabby.JsonEquality

/-! What `Parse` does with a text: it returns exactly the values that the text denotes, and
read timeouts can only make it fail. -/
namespace Gabby.Json

open Exec
open Gabby.Stream (bytesOf)

theorem mem_commaSeparated {items : List (List Token)} {ts : List Token} {x : Token}
    (hi : ts ∈ items) (hx : x ∈ ts) : x ∈ commaSeparated items := by
  cases items with
  | nil => simp at hi
  | cons us items =>
    simp only [commaSeparated,List.mem_append,List.mem_flatMap,List.mem_cons]
    rcases List.mem_cons.mp hi with rfl | hi
    · exact .inl hx
    · exact .inr ⟨ts,hi,.inr hx⟩

/-- Every number, string and key of a derived value stands in its tokens. -/
theorem Derives.of {ts : List Token} {v : Value} (h : Derives ts v) :
    v.Of (fun d => Token.num d ∈ ts) (fun s => Token.str s ∈ ts) := by
  induction h with
  | num d => exact .number d (by simp)
  | str s => exact .string s (by simp)
  | bool b => exact .boolean b
  | nil => exact .nil
  | array items _ ih =>
    refine .array _ fun v hv => ?_
    obtain ⟨i,hi,rfl⟩ := List.mem_map.mp hv
    have hsub : ∀ x ∈ i.1, x ∈ Token.lbracket ::
        (commaSeparated (items.map Prod.fst) ++ [.rbracket]) := fun x hx => by
      simp [mem_commaSeparated (List.mem_map_of_mem (f:=Prod.fst) hi) hx]
    exact (ih i hi).mono (fun d => hsub _) fun s => hsub _
  | object members _ ih =>
    have hsub : ∀ m ∈ members, ∀ x ∈ Token.str m.1 :: Token.colon :: m.2.1,
        x ∈ Token.lbrace :: (commaSeparated
          (members.map fun m => .str m.1 :: .colon :: m.2.1) ++ [.rbrace]) := fun m hm x hx => by
      have := mem_commaSeparated (List.mem_map_of_mem
        (f:=fun m : Bytes × List Token × Value => Token.str m.1 :: Token.colon :: m.2.1) hm) hx
      simp [this]
    have hmem : ∀ m ∈ Dict.assignAll [] (members.map fun m => (m.1,m.2.2)),
        ∃ m' ∈ members, m = (m'.1,m'.2.2) := fun m hm => by
      rcases Dict.mem_assignAll hm with hm | hm
      · simp at hm
      · obtain ⟨m',hm',rfl⟩ := List.mem_map.mp hm
        exact ⟨m',hm',rfl⟩
    refine .object _ (Dict.wf_assignAll (by simp [Dict.WF,Dict.keys]) _) (fun m hm => ?_)
      fun m hm => ?_
    · obtain ⟨m',hm',rfl⟩ := hmem m hm
      exact hsub m' hm' _ (by simp)
    · obtain ⟨m',hm',rfl⟩ := hmem m hm
      exact (ih m' hm').mono (fun d hd => hsub m' hm' _ (by simp [hd]))
        fun s hs => hsub m' hm' _ (by simp [hs])

namespace Scanner

theorem bytesOf_window (n : ℕ) (l : List Input) :
    bytesOf (window n l) = (bytesOf l).take n := by
  induction l generalizing n with
  | nil => cases n <;> simp [window]
  | cons i l ih =>
    cases n with
    | zero => simp [window]
    | succ n => cases i <;> simp [window,ih]

theorem mem_of_mem_window {n : ℕ} {l : List Input} {i : Input} (h : i ∈ window n l) : i ∈ l := by
  induction l generalizing n with
  | nil => cases n <;> simp [window] at h
  | cons j l ih =>
    cases n with
    | zero => simp [window] at h
    | succ n =>
      cases j <;> rcases List.mem_cons.mp h with h | h <;>
        first | exact List.mem_cons.mpr (.inl h) | exact List.mem_cons_of_mem _ (ih h)

theorem tape_init (f : Stream) (size : ℤ) : (init f size).tape =
    ⟨window size.toNat f.pending,windowEnding size.toNat f.pending f.ending,0,false,none⟩ := by
  simp [tape,view,init,budget]

theorem windowEnding_eof (n : ℕ) (l : List Input) : windowEnding n l .eof = .eof := by
  induction l generalizing n with
  | nil => cases n <;> rfl
  | cons i l ih =>
    cases n with
    | zero => rfl
    | succ n => cases i <;> exact ih _

theorem at_init (s : Bytes) (size : ℤ) :
    (init (.ofBytes s) size).tape.At (s.take size.toNat) := by
  rw [tape_init]
  refine ⟨?_,windowEnding_eof _ _⟩
  simp only [Stream.ofBytes,Stream.ofInput]
  generalize size.toNat = n
  induction s generalizing n with
  | nil => cases n <;> simp [window]
  | cons c s ih => cases n <;> simp [window,ih]

variable {s : Scanner} {t : Tape} {text : Bytes}

theorem Reads.at (h : s.Reads t) (ht : t.At text) : s.tape.At text :=
  ⟨h.input.symm.trans ht.input,h.ending.symm.trans ht.ending⟩

/-- What `Scan` does on the tape it does on the scanner, which moves on by what was taken. -/
theorem run_scan_of_tape {tok : Option Token} {rest : Bytes} (hs : s.tape.At (text ++ rest))
    (hr : Scan.scan.run s.tape = (.ok tok,t)) (ht : t.At rest) :
    ∃ s', Scan.scan.run s = (.ok tok,s') ∧ s'.tape.At rest ∧ s'.pos = s.pos + text.length := by
  obtain ⟨ho,hs'⟩ := simReads.scannerRel.scan s s.tape s.reads_tape
  rw [hr] at ho hs'
  refine ⟨_,Prod.ext ho rfl,hs'.at ht,?_⟩
  obtain ⟨u,-,htook⟩ := (Tape.wp_scan (t:=s.tape) (False.elim : False → _)).ok hr
  have hu := htook.bytesOf_eq
  rw [hs.input,ht.input,Stream.bytesOf_map,Stream.bytesOf_map] at hu
  have hlen : text.length = u.length := by simpa using congrArg List.length hu
  have hp := htook.pos
  rw [hs'.pos] at hp
  rw [hp,← hlen]
  rfl

theorem run_scan_lexeme {raw rest : Bytes} {tok : Token} (hl : Lexeme raw tok)
    (he : tok.type.isWord → Tape.Ends rest) (hs : s.tape.At (raw ++ rest)) :
    ∃ s', Scan.scan.run s = (.ok (some tok),s') ∧ s'.tape.At rest ∧
      s'.pos = s.pos + raw.length := by
  obtain ⟨t,hr,ht⟩ := Tape.run_scan_at (rfl : ([] : Bytes).all isspace = true) hl he hs
  exact run_scan_of_tape hs hr ht

end Scanner

/-- A returned value is denoted by the first `size` bytes, however the reads went. -/
theorem parseRun_sound {f : Stream} {size : ℤ} {v : Value}
    (h : (parseRun f size).outcome = .ok v) :
    Denotes ((bytesOf f.pending).take size.toNat) v ∧
      ((bytesOf f.pending).take size.toNat).length = size := by
  rw [(parseRun_reads f size).1,Scanner.tape_init] at h
  generalize hr : (Parser.parse (σ:=Tape) size).run (Parser.init _) = r at h
  rcases r with ⟨o,q⟩
  obtain rfl : o = .ok v := h
  have hpos : q.scan.pos = size := pos_of_parse_ok hr
  obtain ⟨v',q',hv,hq⟩ := run_bind_eq_ok.mp hr
  obtain ⟨rfl,rfl⟩ : v' = v ∧ q' = q := by
    obtain ⟨n,q'',hn,hq⟩ := run_bind_eq_ok.mp hq
    rw [run_read] at hn
    cases hn
    by_cases hs : CharSource.pos q'.scan = size <;> simp [hs] at hq
    exact hq
  obtain ⟨ts,hd,hadv,hl⟩ :=
    (Parser.value_sound (Tape.soundSource False) (p:=Parser.init _) (by simp)
      (by simp [Parser.init])).ok hv
  obtain ⟨us,hdel,hus⟩ := hadv.consumes
  simp only [Parser.init,Option.toList_none,List.nil_append,hl,List.append_nil] at hus hdel
  subst hus
  obtain ⟨u,hu,htook⟩ := Tape.spelled_of_delivers hdel
  have hb := htook.bytesOf_eq
  have hp := htook.pos
  rw [hpos] at hp
  simp only [Scanner.bytesOf_window,zero_add] at hb hp
  have hut : (bytesOf f.pending).take size.toNat = u := by
    have hlen := congrArg List.length hb
    rw [List.length_append,List.length_take] at hlen
    have : (bytesOf q'.scan.input) = [] := List.eq_nil_of_length_eq_zero (by omega)
    rw [hb,this,List.append_nil]
  rw [hut]
  exact ⟨⟨us,hu,hd⟩,hp.symm⟩

theorem delivers_of_feeds {σ : Type} [TokenSource σ] {s t : σ} {ts : List Token}
    (h : Parser.Feeds s ts t) : Parser.Delivers s ts t := by
  induction h with
  | nil s => exact .refl s
  | cons hs _ ih => exact .token hs ih

/-- A value denoted by the first `size` bytes is returned when no read fails. -/
theorem parseRun_complete {s : Bytes} {size : ℤ} {v : Value}
    (h : Denotes (s.take size.toNat) v) (hlen : (s.take size.toNat).length = size) :
    (parseRun (.ofBytes s) size).outcome = .ok v := by
  obtain ⟨ts,hs,hd⟩ := h
  rw [(parseRun_reads _ size).1]
  have hat := Scanner.at_init s size
  have hpos : (Scanner.init (.ofBytes s) size).tape.pos = 0 := rfl
  generalize (Scanner.init (.ofBytes s) size).tape = t at hat hpos
  obtain ⟨t',hf,ht'⟩ := Tape.feeds_of_spelled hs hd.ne_nil hd.shape.chain hat
  have hready : Parser.Ready (Parser.init t) (ts ++ []) t' := ⟨ts,by simp [Parser.init],hf⟩
  obtain ⟨q,hq,us,hus,hfq⟩ := Parser.run_value hd
    (by
      have := hs.length_le
      simp only [Parser.remaining,Parser.init,TokenSource.tokens,hat.reads]
      omega) hready
  obtain ⟨-,rfl⟩ : q.lookahead.toList = [] ∧ us = [] := by simpa using hus
  have hqt : q.scan = t' := by
    cases hfq
    rfl
  -- the position is the number of characters that the tokens took
  obtain ⟨u,-,htook⟩ := Tape.spelled_of_delivers (delivers_of_feeds hf)
  have hu := htook.bytesOf_eq
  rw [hat.input,ht'.input] at hu
  simp only [Stream.bytesOf_map,List.map_nil,Stream.bytesOf_nil,List.append_nil] at hu
  have hsize : CharSource.pos q.scan = size := by
    have := htook.pos
    rw [hpos,← hu] at this
    rw [hqt]
    show t'.pos = size
    omega
  rw [Parser.parse,run_bind_ok hq,run_bind_ok (run_read _ q)]
  simp [hsize]

/-- On a stream of bytes `Parse` returns exactly the values that the first `size` denote. -/
theorem parseRun_ofBytes {s : Bytes} {size : ℤ} {v : Value} :
    (parseRun (.ofBytes s) size).outcome = .ok v ↔
      Denotes (s.take size.toNat) v ∧ (s.take size.toNat).length = size := by
  constructor
  · intro h
    simpa [Stream.ofBytes,Stream.ofInput] using parseRun_sound h
  · exact fun h => parseRun_complete h.1 h.2

theorem not_denotes_nil {v : Value} : ¬ Denotes [] v := by
  rintro ⟨ts,hs,hd⟩
  have := hs.length_le
  exact hd.ne_nil (List.eq_nil_of_length_eq_zero (by simpa using this))

theorem parseString_denotes {s : Bytes} {v : Value} (h : parseString s = .ok v) :
    Denotes (s.take (toInt32 s.length).toNat) v ∧
      (s.take (toInt32 s.length).toNat).length = toInt32 s.length := by
  rwa [parseString,parseOutcome,parseRun_ofBytes] at h

theorem parseString_eq_ok {s : Bytes} {v : Value} (hs : s.length < 2^31) :
    parseString s = .ok v ↔ Denotes s v := by
  rw [parseString,toInt32_of_lt hs,parseOutcome,parseRun_ofBytes]
  simp

/-- `Parse` fails with a `ParsingError`, or with a `SystemError` when a read can fail. -/
theorem parseRun_error (plain : Prop) {f : Stream} {size : ℤ}
    (hf : plain → f.ending = .eof ∧ ∀ i ∈ f.pending, ∃ b, i = .byte b) {e : Stop Exn}
    (h : (parseRun f size).outcome = .error e) :
    ∃ x, e = .throw x ∧ ((∃ w, x = .parsingError w) ∨ ¬ plain ∧ ∃ n, x = .systemError n) := by
  rw [(parseRun_reads f size).1,Scanner.tape_init] at h
  have hplain : plain → Tape.Plain ⟨Scanner.window size.toNat f.pending,
      Scanner.windowEnding size.toNat f.pending f.ending,0,false,none⟩ := fun hp =>
    ⟨by rw [(hf hp).1,Scanner.windowEnding_eof],
      fun i hi => (hf hp).2 i (Scanner.mem_of_mem_window hi)⟩
  generalize (Tape.mk _ _ _ _ _) = t at h hplain
  have hv := Parser.value_sound (Tape.soundSource plain) (p:=Parser.init t) hplain
    (by simp [Parser.init])
  have hparse : Wp (Parser.parse (σ:=Tape) size) (fun _ _ => True) (fun e => ∃ x, e = .throw x ∧
      ((∃ w, x = .parsingError w) ∨ ¬ plain ∧ ∃ n, x = .systemError n)) (Parser.init t) := by
    simp only [Parser.parse,wp_bind,wp_read]
    refine hv.mono (fun v q _ => ?_) fun e he => he
    split
    · exact ⟨_,rfl,.inl ⟨_,rfl⟩⟩
    · exact wp_pure.mpr trivial
  exact hparse.error (Prod.ext h rfl)

/-- Where no read fails, `Parse` returns or throws a `ParsingError`. -/
theorem parseRun_fails {f : Stream} {size : ℤ} (hf : f.ending = .eof)
    (hb : ∀ i ∈ f.pending, ∃ b, i = .byte b) {e : Stop Exn}
    (h : (parseRun f size).outcome = .error e) : ∃ w, e = .throw (.parsingError w) := by
  obtain ⟨x,rfl,⟨w,rfl⟩ | ⟨hn,-⟩⟩ := parseRun_error True (fun _ => ⟨hf,hb⟩) h
  · exact ⟨w,rfl⟩
  · exact absurd trivial hn

/-- Read failures can make `Parse` fail but never change what it returns. -/
theorem parse_timeouts (f : Stream) (size : ℤ) (v : Value)
    (h : (parseRun f size).outcome = .ok v) :
    (parseRun (.ofBytes (bytesOf f.pending)) size).outcome = .ok v ∧
      (v.eq v = true ∨ v.HasNumber fun d => d.isNaN = true) := by
  obtain ⟨hd,hlen⟩ := parseRun_sound h
  refine ⟨parseRun_complete hd hlen,or_iff_not_imp_right.mpr fun hn => ?_⟩
  obtain ⟨ts,-,hd⟩ := hd
  have hv : v.Of (fun d => d.isNaN = false) fun _ => True :=
    (hd.of.of_not_hasNumber hn).mono (by simp) (by simp)
  exact (Value.eq_of_enumerates (Value.enumerates_refl hv) hv).1

theorem parse_timeouts_array :
    (parseRun (.ofBytes (ascii "[]")) 2).outcome = .ok (.array []) ∧
      (Value.eq (.array []) (.array []) = true ∨
        Value.HasNumber (fun d => d.isNaN = true) (.array [])) :=
  parse_timeouts (.ofInput [.byte (chr '['),.fail EAGAIN,.byte (chr ']')] .eof) 2 (.array []) rfl

/-- `stod` reads NaNs, and a NaN is not equal to itself. -/
theorem parse_timeouts_nan :
    ¬ ∀ (pending : List Input) (size : ℤ) (v : Value),
      (∀ i ∈ pending, ∀ e, i = .fail e → e = EAGAIN) →
      (parseRun (.ofInput pending .eof) size).outcome = .ok v →
      ∃ w, (parseRun (.ofBytes (bytesOf pending)) size).outcome = .ok w ∧ w.eq v = true := by
  intro h
  have hl : Lexeme (ascii "-nan") (.num (.nan true)) :=
    .num (.mk [chr '-'] (chr 'n') (ascii "an") [] [] (.inr rfl) (by decide) (.inl rfl) (.inl rfl))
      (by decide)
  have hr : (parseRun (.ofBytes (ascii "-nan")) 4).outcome = .ok (.number (.nan true)) :=
    parseRun_complete ⟨_,.lexeme hl,.num _⟩ rfl
  obtain ⟨w,hw,he⟩ := h ((ascii "-nan").map Input.byte) 4 _ (by simp) hr
  rw [Stream.bytesOf_map,hr] at hw
  cases hw
  simp [Value.eq,Double.eq] at he

/-! ## Clean failure -/

/-- From any state a scan delivers a well-formed token or none, or it throws a `ParsingError`
or a `SystemError`. -/
theorem Scanner.wp_scanSkipWhitespace (s : Scanner) :
    Wp Scan.scanSkipWhitespace (fun tok _ => ∀ x ∈ tok, x.WF)
      (fun e => ∃ x, e = .throw x ∧ ((∃ w, x = .parsingError w) ∨ ∃ n, x = .systemError n)) s := by
  have htok : Wp Scan.scanSkipWhitespace (fun tok _ => ∀ x ∈ tok, x.WF)
      (fun e => ∃ x, e = .throw x ∧ ((∃ w, x = .parsingError w) ∨ ∃ n, x = .systemError n))
      s.tape := by
    refine ((Tape.soundSource False).scan s.tape False.elim).mono (fun _ _ h => h.2.2) ?_
    rintro e ⟨x,rfl,h⟩
    exact ⟨x,rfl,h.imp_right And.right⟩
  exact htok.of_outcome (simReads.scannerRel.scanSkipWhitespace s s.tape s.reads_tape).1

/-- Without read failures `Parse` returns or throws a `ParsingError`; every token its scanner
delivers has the cargo of its type, and no scan ends in any other way than by an exception. -/
theorem parse_clean :
    (∀ (f : Stream) (bytes : Bytes) (size : ℤ),
      let outcome := (parseRun { f with pending := bytes.map .byte, ending := .eof } size).outcome
      (∃ v, outcome = .ok v) ∨ ∃ w, outcome = .error (.throw (.parsingError w))) ∧
    (∀ (s t : Scanner) (tok : Token),
      Scan.scanSkipWhitespace.run s = (.ok (some tok),t) → tok.WF) ∧
    ∀ (s t : Scanner) (e : Stop Exn), Scan.scanSkipWhitespace.run s = (.error e,t) →
      (∃ w, e = .throw (.parsingError w)) ∨ ∃ n, e = .throw (.systemError n) := by
  refine ⟨fun f bytes size => ?_,fun s t tok h => ?_,fun s t e h => ?_⟩
  · dsimp only
    cases h : (parseRun { f with pending := bytes.map .byte, ending := .eof } size).outcome with
    | ok v => exact .inl ⟨v,rfl⟩
    | error e =>
      obtain ⟨w,rfl⟩ := parseRun_fails (f:={ f with pending := bytes.map .byte, ending := .eof })
        rfl (by simp) h
      exact .inr ⟨w,rfl⟩
  · exact s.wp_scanSkipWhitespace.ok h tok rfl
  · obtain ⟨x,rfl,hx⟩ := s.wp_scanSkipWhitespace.error h
    simpa using hx

end Gabby.Json
