import Gabby.JsonTape

/-! Framing of a request body: `Parse(FILE*, int)` takes from the stream what its position
accounts for and never more than `size` bytes, at every point of its run. -/
namespace Gabby.Json

open Exec

/-- A property of a character source that its primitives keep. `free` says that no
character is held back, which `UngetChar` asserts. -/
structure InvSource {σ : Type} [CharSource σ] (I free : σ → Prop) : Prop where
  getChar : Spec I I (CharSource.getChar (σ:=σ)) (fun c s => I s ∧ (c.isSome → free s))
    (fun _ _ => False)
  ungetChar : ∀ c, Spec (fun s => I s ∧ free s) I (CharSource.ungetChar (σ:=σ) c)
    (fun _ => I) (fun _ _ => False)

namespace InvSource

variable {σ : Type} [CharSource σ] {I free : σ → Prop} (h : InvSource I free)
include h

theorem getChar_bind {α : Type} {f : Option UInt8 → Exec σ Exn α}
    (hn : Keeps I (· ≠ .assertion) (f none))
    (hs : ∀ c, Spec (fun s => I s ∧ free s) I (f (some c)) (fun _ => I)
      (fun e s => I s ∧ e ≠ .assertion)) : Keeps I (· ≠ .assertion) (CharSource.getChar >>= f) := by
  refine Spec.bind (h.getChar.weaken (fun _ h => h) (fun _ _ h => h) (fun _ _ h => h.elim)) ?_
  rintro (_ | c)
  · exact hn.weaken (fun s hs => hs.1) (fun _ _ h => h) (fun _ _ h => h)
  · exact (hs c).weaken (fun s hs => ⟨hs.1,hs.2 rfl⟩) (fun _ _ h => h) (fun _ _ h => h)

theorem ungetChar_bind {α : Type} (c : UInt8) {f : Unit → Exec σ Exn α}
    (hf : ∀ u, Keeps I (· ≠ .assertion) (f u)) :
    Spec (fun s => I s ∧ free s) I (CharSource.ungetChar c >>= f) (fun _ => I)
      (fun e s => I s ∧ e ≠ .assertion) :=
  Spec.bind ((h.ungetChar c).weaken (fun _ h => h) (fun _ _ h => h) (fun _ _ h => h.elim)) hf

theorem skipWhitespace : Keeps I (· ≠ .assertion) (Scan.skipWhitespace (σ:=σ)) := by
  refine keeps_loop (by simp) (fun _ => h.getChar_bind (keeps_pure _) fun c => ?_) _
  dsimp only
  split
  · exact h.ungetChar_bind c fun _ => keeps_pure _
  · exact spec_pure fun _ hs => hs.1

theorem peek : Keeps I (· ≠ .assertion) (Scan.peek (σ:=σ)) := by
  refine h.getChar_bind ?_ fun c => h.ungetChar_bind c fun _ => keeps_pure _
  refine (keeps_read _).bind fun e => ?_
  split
  · exact keeps_pure _
  · refine (keeps_read _).bind fun b => ?_
    split
    · exact keeps_throw (by simp)
    · exact keeps_pure _

theorem advance : Keeps I (· ≠ .assertion) (Scan.advance (σ:=σ)) := by
  refine h.getChar_bind ?_ fun c => spec_pure fun _ hs => hs.1
  refine (keeps_read _).bind fun b => ?_
  split
  · exact (keeps_read _).bind fun e => keeps_throw (by simp)
  · exact keeps_throw (by simp)

theorem scannerRel : ScannerRel fun _ m (_ : Exec σ Exn _) => Keeps I (· ≠ .assertion) m where
  pure := keeps_pure
  stop _ h := keeps_stop h
  bind := Keeps.bind
  repeatUntil := keeps_loop (by simp)
  skipWhitespace := h.skipWhitespace
  peek := h.peek
  advance := h.advance

end InvSource

namespace Parser

variable {σ : Type} [CharSource σ] {I free : σ → Prop} (h : InvSource I free)
include h

theorem keepsRel : ParserRel fun _ m (_ : Exec (Parser σ) Exn _) =>
    Keeps (fun p : Parser σ => I p.scan) (· ≠ .assertion) m where
  pure := keeps_pure
  stop _ h := keeps_stop h
  bind := Keeps.bind
  lookahead := keeps_read _
  setLookahead _ := keeps_modify fun _ h => h
  scan := keeps_zoom h.scannerRel.scanSkipWhitespace (fun _ h => h) (fun _ _ _ h => h)

/-- What the primitives of the source keep, a whole run of `Parse` keeps. -/
theorem keeps_parse (size : ℤ) :
    Keeps (fun p : Parser σ => I p.scan) (· ≠ .assertion) (parse (σ:=σ) size) := by
  have hv : Keeps (fun p : Parser σ => I p.scan) (· ≠ .assertion) (value (σ:=σ)) :=
    fun p hp => ((keepsRel h).valueN p.fuel).1 p hp
  refine hv.bind fun v => (keeps_read _).bind fun pos => ?_
  split
  · exact keeps_throw (by simp)
  · exact keeps_pure _

end Parser

/-! ## Bytes taken from the stream -/

namespace Scanner

def held (s : Scanner) : ℤ := if s.lookahead.isSome then 1 else 0

/-- The scanner of a stream `f₀`: the bytes that left the stream are those before its
position and the one it holds back, they are at most `size`, and nothing was written. -/
structure Framed (f₀ : Stream) (size : ℤ) (s : Scanner) : Prop where
  size_eq : s.size = size
  pos_nonneg : 0 ≤ s.pos
  taken : ∃ bytes, Stream.bytesOf f₀.pending = bytes ++ Stream.bytesOf s.f.pending ∧
    (bytes.length : ℤ) = s.pos + s.held
  le : s.pos + s.held ≤ max size 0
  unsent : Stream.Unsent f₀ s.f

theorem framed_init (f : Stream) (size : ℤ) : Framed f size (init f size) :=
  ⟨rfl,le_refl _,⟨[],rfl,by simp [init,held]⟩,by simp [init,held],.refl f⟩

theorem getChar_framed {f₀ : Stream} {size : ℤ} {s : Scanner} (h : Framed f₀ size s) :
    ∃ c, (getChar.run s).1 = .ok c ∧ Framed f₀ size (getChar.run s).2 ∧
      (c.isSome → (getChar.run s).2.lookahead = none ∧ 0 < (getChar.run s).2.pos) := by
  rcases s with ⟨f,size',pos,l⟩
  obtain ⟨rfl,hp,⟨bytes,hb,hl⟩,hle,hplan,hsent,hdel⟩ := h
  dsimp only at hp hb hl hle hplan hsent hdel
  cases l with
  | some c =>
    simp only [held,Option.isSome_some,if_true] at hl hle
    refine ⟨some c,rfl,⟨rfl,?_,⟨bytes,hb,?_⟩,?_,hplan,hsent,hdel⟩,fun _ => ⟨rfl,?_⟩⟩ <;>
      simp [getChar,held] <;> omega
  | none =>
    simp only [held,Option.isSome_none,Bool.false_eq_true,if_false,add_zero] at hl hle
    by_cases hs : size' ≤ pos
    · refine ⟨none,?_⟩
      simp only [getChar,run_step,hs,if_true]
      exact ⟨trivial,⟨rfl,hp,⟨bytes,hb,by simp [held,hl]⟩,by simp [held]; omega,hplan,hsent,hdel⟩,
        by simp⟩
    · rcases f with ⟨pending,ending,err,eof,errno,plan,sent,reads,delivered⟩
      rcases pending with _ | ⟨b | e,p⟩
      · refine ⟨none,?_⟩
        cases ending <;> simp only [getChar,run_step,hs,if_false,Stream.clearerr,Stream.fgetc] <;>
          exact ⟨trivial,⟨rfl,hp,⟨bytes,hb,by simp [held,hl]⟩,by simp [held]; omega,hplan,hsent,
            hdel⟩,by simp⟩
      · refine ⟨some b,?_⟩
        simp only [getChar,run_step,hs,if_false,Stream.clearerr,Stream.fgetc]
        have hp' : 0 < pos+1 := by omega
        refine ⟨trivial,⟨rfl,hp'.le,⟨bytes ++ [b],by simpa using hb,?_⟩,?_,hplan,hsent,hdel⟩,
          fun _ => ⟨trivial,hp'⟩⟩ <;> simp [held] <;> omega
      · refine ⟨none,?_⟩
        simp only [getChar,run_step,hs,if_false,Stream.clearerr,Stream.fgetc]
        exact ⟨trivial,⟨rfl,hp,⟨bytes,by simpa using hb,by simp [held,hl]⟩,by simp [held]; omega,
          hplan,hsent,hdel⟩,by simp⟩

theorem ungetChar_framed {f₀ : Stream} {size : ℤ} (c : UInt8) {s : Scanner}
    (h : Framed f₀ size s) (hn : s.lookahead = none) (hp : 0 < s.pos) :
    (ungetChar c).run s = (.ok (),{ s with pos := s.pos-1, lookahead := some c }) ∧
      Framed f₀ size { s with pos := s.pos-1, lookahead := some c } := by
  obtain ⟨hsz,-,⟨bytes,hb,hl⟩,hle,hu⟩ := h
  simp only [held,hn,Option.isSome_none,Bool.false_eq_true,if_false] at hl hle
  refine ⟨by simp [ungetChar,hn],⟨hsz,?_,⟨bytes,hb,?_⟩,?_,hu⟩⟩ <;> simp [held] <;> omega

/-- Reading and putting back keep the framing, and nothing else touches the scanner. -/
theorem invFramed (f₀ : Stream) (size : ℤ) :
    InvSource (Framed f₀ size) fun s => s.lookahead = none ∧ 0 < s.pos where
  getChar := by
    refine spec_step (fun s hs => ?_) (fun s c hs hr => ?_) fun s e hs hr => ?_ <;>
      obtain ⟨c',hc,hf,hfree⟩ := getChar_framed hs
    · exact hf
    · rw [getChar,run_step] at hc
      cases hc.symm.trans hr
      exact ⟨hf,hfree⟩
    · rw [getChar,run_step] at hc
      cases hc.symm.trans hr
  ungetChar c := by
    refine spec_step (fun s hs => ?_) (fun s _ hs _ => ?_) fun s e hs hr => ?_ <;>
      obtain ⟨hrun,hf⟩ := ungetChar_framed c hs.1 hs.2.1 hs.2.2 <;>
      rw [ungetChar,run_step] at hrun
    · exact (congrArg Prod.snd hrun) ▸ hf
    · exact (congrArg Prod.snd hrun) ▸ hf
    · cases (congrArg Prod.fst hrun).symm.trans hr

def delivered (s : Scanner) : Bytes := Stream.bytesOf s.view

/-- `Peek` changes neither the position nor what is still to be delivered. -/
theorem peek_delivered (s : Scanner) :
    (Scan.peek.run s).2.pos = s.pos ∧ (Scan.peek.run s).2.delivered = s.delivered := by
  have h := (simReads.peek s s.tape s.reads_tape).2
  have ht := s.tape.peek_input
  exact ⟨by rw [← h.pos,ht.1]; rfl,by rw [delivered,← h.input,ht.2]; rfl⟩

/-- The windows of two streams are the same: they agree up to the `n`-th byte. -/
def Agree (n : ℕ) (f g : Stream) : Prop :=
  window n f.pending = window n g.pending ∧
    windowEnding n f.pending f.ending = windowEnding n g.pending g.ending

theorem agree_ofBytes {n : ℕ} {a b : Bytes} (h : a.take n = b.take n) :
    Agree n (.ofBytes a) (.ofBytes b) := by
  have hw : ∀ (n : ℕ) (a : Bytes),
      window n (a.map Input.byte) = (a.take n).map Input.byte ∧
        windowEnding n (a.map Input.byte) .eof = .eof := by
    intro n a
    induction a generalizing n with
    | nil => cases n <;> simp [window,windowEnding]
    | cons c a ih => cases n <;> simp [window,windowEnding,ih]
  exact ⟨by simp only [Stream.ofBytes,Stream.ofInput,hw,h],
    by simp only [Stream.ofBytes,Stream.ofInput,hw]⟩

theorem tape_of_agree {f g : Stream} {size : ℤ} (h : Agree size.toNat f g) :
    (init f size).tape = (init g size).tape := by
  have hb : ∀ f : Stream, (init f size).budget = size.toNat := fun f => by simp [init,budget]
  simp only [tape,view,hb]
  simp only [init,h.1,h.2]

end Scanner

def taken (f₀ f : Stream) : ℤ :=
  (Stream.bytesOf f₀.pending).length - (Stream.bytesOf f.pending).length

theorem Scanner.Framed.taken_eq {f₀ : Stream} {size : ℤ} {s : Scanner} (h : s.Framed f₀ size) :
    Json.taken f₀ s.f = s.pos + s.held := by
  obtain ⟨-,-,⟨bytes,hb,hl⟩,-,-⟩ := h
  rw [Json.taken,hb,List.length_append]
  omega

/-- A value comes only after the whole position was checked. -/
theorem pos_of_parse_ok {σ : Type} [CharSource σ] {size : ℤ} {p q : Parser σ} {v : Value}
    (h : (Parser.parse size).run p = (.ok v,q)) : CharSource.pos q.scan = size := by
  obtain ⟨v',q',-,h⟩ := run_bind_eq_ok.mp h
  obtain ⟨n,q'',hr,h⟩ := run_bind_eq_ok.mp h
  rw [run_read] at hr
  cases hr
  by_cases hs : CharSource.pos q'.scan = size
  · simp only [hs,ne_eq,not_true_eq_false,if_false,run_pure,Prod.mk.injEq] at h
    exact h.2 ▸ hs
  · simp [hs] at h

theorem framed_points (f : Stream) (size : ℤ) :
    ∀ p ∈ (parseRun f size).points (Parser.init (Scanner.init f size)), p.scan.Framed f size :=
  (Parser.keeps_parse (Scanner.invFramed f size) size).points (Scanner.framed_init f size)

theorem framed_final (f : Stream) (size : ℤ) : (parseRun f size).final.scan.Framed f size :=
  framed_points f size _ (by simp [Run.points,parseRun])

/-- A value means that `size` bytes were taken. -/
theorem taken_of_ok {f : Stream} {size : ℤ} {v : Value} (hv : (parseRun f size).outcome = .ok v) :
    taken f (parseRun f size).final.scan.f = size := by
  have hpos : (parseRun f size).final.scan.pos = size :=
    pos_of_parse_ok (p:=Parser.init (Scanner.init f size)) (Prod.ext hv rfl)
  obtain ⟨-,hp,-,hle,-⟩ := framed_final f size
  rw [(framed_final f size).taken_eq]
  have hh : 0 ≤ (parseRun f size).final.scan.held := by
    unfold Scanner.held
    split <;> omega
  omega

/-- Nothing after the first `size` bytes matters. -/
theorem parseRun_agree {f g : Stream} {size : ℤ} (hg : Scanner.Agree size.toNat f g) :
    (parseRun g size).outcome = (parseRun f size).outcome ∧
      taken g (parseRun g size).final.scan.f = taken f (parseRun f size).final.scan.f := by
  have hf := parseRun_reads f size
  have hg' := parseRun_reads g size
  rw [← Scanner.tape_of_agree hg] at hg'
  refine ⟨hg'.1.trans hf.1.symm,?_⟩
  rw [(framed_final f size).taken_eq,(framed_final g size).taken_eq]
  simp only [Scanner.held,← hf.2.pos,← hg'.2.pos,← hf.2.held,← hg'.2.held]

/-- Body framing: at every point of a run of `Parse` the bytes taken from the stream are
those before the position and the one held back, and at most `size`; no assertion fails;
`Peek` loses nothing; a value means that `size` bytes were taken; and nothing after them
matters. -/
theorem parse_framing (f : Stream) (size : ℤ) :
    (∀ p ∈ (parseRun f size).points (Parser.init (Scanner.init f size)),
      taken f p.scan.f = p.scan.pos + p.scan.held ∧ taken f p.scan.f ≤ max size 0) ∧
    (parseRun f size).outcome ≠ .error .assertion ∧
    (∀ s : Scanner, (Scan.peek.run s).2.pos = s.pos ∧
      (Scan.peek.run s).2.delivered = s.delivered) ∧
    (∀ v, (parseRun f size).outcome = .ok v → taken f (parseRun f size).final.scan.f = size) ∧
    (∀ g, Scanner.Agree size.toNat f g →
      (parseRun g size).outcome = (parseRun f size).outcome ∧
        taken g (parseRun g size).final.scan.f = taken f (parseRun f size).final.scan.f) := by
  refine ⟨fun p hp => ?_,fun h => ?_,Scanner.peek_delivered,fun v => taken_of_ok,
    fun g => parseRun_agree⟩
  · have h := framed_points f size p hp
    exact ⟨h.taken_eq,h.taken_eq ▸ h.le⟩
  · exact (Parser.keeps_parse (Scanner.invFramed f size) size).allowed
      (Scanner.framed_init f size) h rfl

theorem parse_unsent (f : Stream) (size : ℤ) : f.Unsent ((parse size).run f).2 :=
  (framed_final f size).unsent

end Gabby.Json
