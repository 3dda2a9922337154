import Gabby.JsonRelations

/-! What a scanner is for: it reads a tape of the characters that are still to come. The
tape forgets the stream, the size and the bytes after it, and the scanner of the program
runs in step with its tape. -/
namespace Gabby.Json

open Exec

/-- The inputs still to be delivered and what follows them, the position, whether the first
input was read before and put back, and the error number of the last read if it failed. -/
structure Tape where
  input : List Input
  ending : Ending
  pos : ℤ
  held : Bool
  failure : Option ℕ

namespace Tape

def getChar : Exec Tape Exn (Option UInt8) := Exec.step fun t =>
  match t.input with
  | .byte b :: l =>
    (.ok (some b),{ t with input := l, pos := t.pos+1, held := false, failure := none })
  | .fail e :: l => (.ok none,{ t with input := l, failure := some e })
  | [] => match t.ending with
    | .eof => (.ok none,{ t with failure := none })
    | .fail e => (.ok none,{ t with failure := some e })

def ungetChar (c : UInt8) : Exec Tape Exn Unit := Exec.step fun t =>
  if t.held then (.error .assertion,t)
  else (.ok (),{ t with input := .byte c :: t.input, pos := t.pos-1, held := true })

instance : CharSource Tape where
  getChar := getChar
  ungetChar := ungetChar
  ferror t := t.failure.isSome
  errno t := t.failure.getD 0
  pos t := t.pos
  reads t := t.input.length

theorem peek_input (t : Tape) : (Scan.peek.run t).2.pos = t.pos ∧
    Stream.bytesOf (Scan.peek.run t).2.input = Stream.bytesOf t.input := by
  rcases t with ⟨input,ending,pos,held,failure⟩
  rcases input with _ | ⟨b | e,l⟩
  · cases ending <;> simp [Scan.peek,run_bind,CharSource.getChar,getChar] <;>
      split <;> simp [run_bind,CharSource.ferror]
  · simp [Scan.peek,run_bind,CharSource.getChar,getChar,CharSource.ungetChar,ungetChar]
  · simp [Scan.peek,run_bind,CharSource.getChar,getChar]
    split <;> simp [run_bind,CharSource.ferror]

end Tape

/-! ## Sources in step -/

/-- Two character sources whose primitives run in step on related states. Only after a read
that delivered nothing must they agree on whether and how it failed. -/
structure SimSource {σ τ : Type} [CharSource σ] [CharSource τ] (R : σ → τ → Prop) : Prop where
  getChar : Sim R (CharSource.getChar (σ:=σ)) (CharSource.getChar (σ:=τ))
  failure : ∀ s t, R s t → (CharSource.getChar.run s).1 = .ok none →
    CharSource.ferror (CharSource.getChar.run s).2 =
      CharSource.ferror (CharSource.getChar.run t).2 ∧
    (CharSource.ferror (CharSource.getChar.run t).2 = true →
      CharSource.errno (CharSource.getChar.run s).2 =
        CharSource.errno (CharSource.getChar.run t).2)
  ungetChar : ∀ c, Sim R (CharSource.ungetChar (σ:=σ) c) (CharSource.ungetChar (σ:=τ) c)
  pos : ∀ s t, R s t → CharSource.pos s = CharSource.pos t
  reads : ∀ s t, R s t → CharSource.reads s = CharSource.reads t

namespace SimSource

variable {σ τ : Type} [CharSource σ] [CharSource τ] {R : σ → τ → Prop} (h : SimSource R)
include h

theorem getChar_bind {α : Type} {f : Option UInt8 → Exec σ Exn α} {f' : Option UInt8 → Exec τ Exn α}
    (hn : ∀ s t, R s t → CharSource.ferror s = CharSource.ferror t →
      (CharSource.ferror t = true → CharSource.errno s = CharSource.errno t) →
      ((f none).run s).1 = ((f' none).run t).1 ∧ R ((f none).run s).2 ((f' none).run t).2)
    (hs : ∀ c, Sim R (f (some c)) (f' (some c))) :
    Sim R (CharSource.getChar >>= f) (CharSource.getChar >>= f') := by
  intro s t hr
  obtain ⟨ho,hr'⟩ := h.getChar s t hr
  have hf := h.failure s t hr
  rw [run_bind,run_bind]
  rcases hs' : CharSource.getChar.run s with ⟨o,s'⟩
  rcases ht' : CharSource.getChar.run t with ⟨o',t'⟩
  simp only [hs',ht'] at ho hr' hf
  subst ho
  rcases o with e | _ | c
  · exact ⟨rfl,hr'⟩
  · exact hn s' t' hr' (hf rfl).1 (hf rfl).2
  · exact hs c s' t' hr'

theorem skipWhitespace : Sim R (Scan.skipWhitespace (σ:=σ)) (Scan.skipWhitespace (σ:=τ)) := by
  refine sim_loop (fun s t hr => by rw [h.reads s t hr]) (fun _ => h.getChar.bind ?_) _
  rintro (_ | c)
  · exact sim_pure _
  · dsimp only
    split
    · exact (h.ungetChar c).bind fun _ => sim_pure _
    · exact sim_pure _

theorem peek : Sim R (Scan.peek (σ:=σ)) (Scan.peek (σ:=τ)) := by
  refine h.getChar_bind (fun s t hr hf he => ?_)
    fun c => (h.ungetChar c).bind fun _ => sim_pure _
  cases hft : CharSource.ferror t with
  | false => simp [run_bind,apply_ite run,ite_apply,hf,hft,hr]
  | true =>
    simp only [run_bind,run_read,he hft]
    split
    · exact ⟨rfl,hr⟩
    · simp [run_bind,hf,hft,hr]

theorem advance : Sim R (Scan.advance (σ:=σ)) (Scan.advance (σ:=τ)) := by
  refine h.getChar_bind (fun s t hr hf he => ?_) fun c => sim_pure _
  cases hft : CharSource.ferror t with
  | false => simp [run_bind,hf,hft,hr]
  | true => simp [run_bind,hf,hft,he hft,hr]

theorem scannerRel : ScannerRel fun _ m m' => Sim R m m' where
  pure := sim_pure
  stop e _ := sim_stop e
  bind := Sim.bind
  repeatUntil := sim_loop fun s t hr => by rw [h.reads s t hr]
  skipWhitespace := h.skipWhitespace
  peek := h.peek
  advance := h.advance

end SimSource

namespace Parser

def Related {σ τ : Type} (R : σ → τ → Prop) (p : Parser σ) (q : Parser τ) : Prop :=
  R p.scan q.scan ∧ p.lookahead = q.lookahead

variable {σ τ : Type} {R : σ → τ → Prop} [CharSource σ] [CharSource τ] (h : SimSource R)
include h

theorem simRel : ParserRel fun _ m m' => Sim (Related R) (σ:=Parser σ) (τ:=Parser τ) m m' where
  pure := sim_pure
  stop e _ := sim_stop e
  bind := Sim.bind
  lookahead := sim_read fun _ _ hr => hr.2
  setLookahead _ := fun _ _ hr => ⟨rfl,hr.1,rfl⟩
  scan := fun p q hr =>
    ⟨(h.scannerRel.scanSkipWhitespace p.scan q.scan hr.1).1,
      (h.scannerRel.scanSkipWhitespace p.scan q.scan hr.1).2,hr.2⟩

theorem sim_value : Sim (Related R) (value (σ:=σ)) (value (σ:=τ)) := by
  intro p q hr
  have hf : p.fuel = q.fuel := by
    simp only [fuel,TokenSource.tokens,h.reads _ _ hr.1,hr.2]
  have hn := ((simRel h).valueN p.fuel).1 p q hr
  rw [hf] at hn
  simpa only [value,run,hf] using hn

theorem sim_parse (size : ℤ) : Sim (Related R) (parse (σ:=σ) size) (parse (σ:=τ) size) := by
  refine (sim_value h).bind fun v => (sim_read fun p q hr => h.pos _ _ hr.1).bind fun pos => ?_
  split
  · exact sim_throw _
  · exact sim_pure _

end Parser

/-! ## The scanner and its tape -/

namespace Scanner

/-- What follows the window: the end of the file once `n` bytes were read. -/
def windowEnding : ℕ → List Input → Ending → Ending
  | 0, _, _ => .eof
  | _+1, [], e => e
  | n+1, .byte _ :: l, e => windowEnding n l e
  | n+1, .fail _ :: l, e => windowEnding (n+1) l e

/-- The tape holds what the scanner can still be given; the last failure may differ. -/
structure Reads (s : Scanner) (t : Tape) : Prop where
  input : t.input = s.view
  ending : t.ending = windowEnding s.budget s.f.pending s.f.ending
  pos : t.pos = s.pos
  held : t.held = s.lookahead.isSome

def tape (s : Scanner) : Tape :=
  ⟨s.view,windowEnding s.budget s.f.pending s.f.ending,s.pos,s.lookahead.isSome,none⟩

theorem reads_tape (s : Scanner) : s.Reads s.tape := ⟨rfl,rfl,rfl,rfl⟩

theorem budget_lookahead (f : Stream) (size pos : ℤ) (c : UInt8) :
    budget ⟨f,size,pos,some c⟩ = budget ⟨f,size,pos+1,none⟩ := by
  simp [budget,Int.sub_sub]

theorem budget_zero {f : Stream} {size pos : ℤ} (h : size ≤ pos) :
    budget ⟨f,size,pos,none⟩ = 0 := by
  simp [budget]
  omega

theorem budget_succ {f : Stream} {size pos : ℤ} (h : ¬ size ≤ pos) :
    budget ⟨f,size,pos,none⟩ = budget ⟨f,size,pos+1,none⟩ + 1 := by
  simp only [budget,Option.isSome_none]
  have : (size - (pos+1) - 0).toNat + 1 = (size - pos - 0).toNat := by omega
  simpa using this.symm

/-- One read of the scanner and of its tape: the same character, or the same failure. -/
theorem getChar_reads {s : Scanner} {t : Tape} (h : s.Reads t) :
    (getChar.run s).1 = (Tape.getChar.run t).1 ∧
      (getChar.run s).2.Reads (Tape.getChar.run t).2 ∧
      (getChar.run s).2.f.err = (Tape.getChar.run t).2.failure.isSome ∧
      ((Tape.getChar.run t).2.failure.isSome →
        (getChar.run s).2.f.errno = (Tape.getChar.run t).2.failure.getD 0) := by
  rcases s with ⟨f,size,spos,l⟩
  rcases t with ⟨input,ending,pos,held,failure⟩
  obtain ⟨h₁,h₂,h₃,h₄⟩ := h
  dsimp only at h₁ h₂ h₃ h₄
  subst h₁ h₂ h₃ h₄
  cases l with
  | some c =>
    simp [getChar,Tape.getChar,view,Stream.clearerr,budget_lookahead]
    exact ⟨rfl,rfl,rfl,rfl⟩
  | none =>
    by_cases hp : size ≤ pos
    · simp [getChar,Tape.getChar,view,Stream.clearerr,budget_zero hp,hp,window,windowEnding]
      exact ⟨by simp [view,budget_zero hp,window],by simp [budget_zero hp,windowEnding],rfl,rfl⟩
    · rcases f with ⟨pending,ending,err,eof,errno,plan,sent,reads,delivered⟩
      rcases pending with _ | ⟨b | e,p⟩
      · cases ending <;>
          simp [getChar,Tape.getChar,view,Stream.clearerr,Stream.fgetc,budget_succ hp,hp,
            window,windowEnding] <;>
          exact ⟨by simp [view,budget_succ hp,window],by simp [budget_succ hp,windowEnding],
            rfl,rfl⟩
      · simp [getChar,Tape.getChar,view,Stream.clearerr,Stream.fgetc,budget_succ hp,hp,
          window,windowEnding]
        exact ⟨rfl,rfl,rfl,rfl⟩
      · simp [getChar,Tape.getChar,view,Stream.clearerr,Stream.fgetc,budget_succ hp,hp,
          window,windowEnding]
        refine ⟨?_,?_,rfl,rfl⟩
        · simp [view,budget_succ hp]
          rfl
        · simp [budget_succ hp]
          rfl

theorem ungetChar_reads (c : UInt8) : Sim Reads (ungetChar c) (Tape.ungetChar c) := by
  rintro ⟨f,size,spos,l⟩ ⟨input,ending,pos,held,failure⟩ ⟨h₁,h₂,h₃,h₄⟩
  dsimp only at h₁ h₂ h₃ h₄
  subst h₁ h₂ h₃ h₄
  cases l with
  | some c' => exact ⟨rfl,⟨rfl,rfl,rfl,rfl⟩⟩
  | none =>
    refine ⟨rfl,⟨?_,?_,rfl,rfl⟩⟩ <;> simp [ungetChar,Tape.ungetChar,view,budget_lookahead]

/-- The scanner of the program reads what its tape says. -/
theorem simReads : SimSource Reads where
  getChar _ _ h := ⟨(getChar_reads h).1,(getChar_reads h).2.1⟩
  failure _ _ h _ := ⟨(getChar_reads h).2.2.1,(getChar_reads h).2.2.2⟩
  ungetChar := ungetChar_reads
  pos _ _ h := h.pos.symm
  reads _ _ h := congrArg List.length h.input.symm

end Scanner

/-- `Parse` has the outcome that its tape determines and leaves what its tape leaves. -/
theorem parseRun_reads (f : Stream) (size : ℤ) :
    (parseRun f size).outcome =
        ((Parser.parse size).run (Parser.init (Scanner.init f size).tape)).1 ∧
      (parseRun f size).final.scan.Reads
        ((Parser.parse size).run (Parser.init (Scanner.init f size).tape)).2.scan := by
  have h := Parser.sim_parse Scanner.simReads size (Parser.init (Scanner.init f size))
    (Parser.init (Scanner.init f size).tape) ⟨Scanner.reads_tape _,rfl⟩
  exact ⟨h.1,h.2.1⟩

end Gabby.Json
