import Gabby.JsonParser

/-! Relations between two runs of the scanner and the parser. Both are put together from
a few operations on their source by sequencing and loops, so a relation that these respect
holds of every function; equality of two runs and invariants of one run are the examples. -/
namespace Gabby.Json

open Exec

/-- A relation between programs over two kinds of state that sequencing respects. -/
structure ProgramRel {σ τ : Type} (P : (α : Type) → Exec σ Exn α → Exec τ Exn α → Prop) :
    Prop where
  pure : ∀ {α : Type} (a : α), P α (pure a) (pure a)
  stop : ∀ {α : Type} (e : Stop Exn), e ≠ .assertion → P α (stop e) (stop e)
  bind : ∀ {α β : Type} {m : Exec σ Exn α} {m' : Exec τ Exn α} {f : α → Exec σ Exn β}
    {f' : α → Exec τ Exn β}, P α m m' → (∀ a, P β (f a) (f' a)) → P β (m >>= f) (m' >>= f')

namespace ProgramRel

variable {σ τ : Type} {P : (α : Type) → Exec σ Exn α → Exec τ Exn α → Prop}

theorem throw (h : ProgramRel P) {α : Type} (e : Exn) : P α (throw e) (throw e) :=
  h.stop _ (by simp)

theorem ite {α : Type} {b : Prop} [Decidable b] {m n : Exec σ Exn α} {m' n' : Exec τ Exn α}
    (hm : P α m m') (hn : P α n n') : P α (if b then m else n) (if b then m' else n') := by
  split
  · exact hm
  · exact hn

end ProgramRel

/-- A program relation that the scanner's access to its characters respects. -/
structure ScannerRel {σ τ : Type} [CharSource σ] [CharSource τ]
    (P : (α : Type) → Exec σ Exn α → Exec τ Exn α → Prop) : Prop extends ProgramRel P where
  repeatUntil : ∀ {α β : Type} {body : α → Exec σ Exn (α ⊕ β)} {body' : α → Exec τ Exn (α ⊕ β)},
    (∀ a, P _ (body a) (body' a)) →
      ∀ a, P β (Scan.repeatUntil body a) (Scan.repeatUntil body' a)
  skipWhitespace : P Unit Scan.skipWhitespace Scan.skipWhitespace
  peek : P (Option UInt8) Scan.peek Scan.peek
  advance : P UInt8 Scan.advance Scan.advance

namespace ScannerRel

variable {σ τ : Type} [CharSource σ] [CharSource τ]
  {P : (α : Type) → Exec σ Exn α → Exec τ Exn α → Prop} (h : ScannerRel P)
include h

theorem push (s : Bytes) : P _ (Scan.push s) (Scan.push s) := h.bind h.advance fun _ => h.pure _

theorem pushIf (b : Bool) (s : Bytes) : P _ (Scan.pushIf b s) (Scan.pushIf b s) := by
  unfold Scan.pushIf
  split
  · exact h.push s
  · exact h.pure _

theorem pushWhile {more : Exec σ Exn Bool} {more' : Exec τ Exn Bool} (hm : P _ more more')
    (s : Bytes) : P _ (Scan.pushWhile more s) (Scan.pushWhile more' s) := by
  apply h.repeatUntil
  intro s
  refine h.bind hm fun b => ?_
  split
  · exact h.bind (h.push s) fun _ => h.pure _
  · exact h.pure _

theorem inWord : P _ Scan.inWord Scan.inWord := h.bind h.peek fun _ => h.pure _

theorem inDigits : P _ Scan.inDigits Scan.inDigits := by
  refine h.bind h.peek fun c => ?_
  split
  · exact h.pure _
  · refine h.bind h.peek ?_
    rintro (_ | c)
    · exact h.stop _ (by simp)
    · exact h.pure _

theorem scanPunctuation (type : TokenType) :
    P _ (Scan.scanPunctuation type) (Scan.scanPunctuation type) :=
  h.bind h.advance fun _ => h.pure _

theorem scanString : P _ Scan.scanString Scan.scanString := by
  refine h.bind h.advance fun _ => h.bind ?_ fun r => ?_
  · apply h.repeatUntil
    intro p
    refine h.bind h.advance fun c => ?_
    split
    · exact h.pure _
    · split <;> exact h.pure _
  · split
    · exact h.throw _
    · exact h.pure _

theorem scanFraction (s : Bytes) : P _ (Scan.scanFraction s) (Scan.scanFraction s) := by
  refine h.bind h.peek fun c => ?_
  split
  · exact h.bind (h.push s) fun s => h.pushWhile h.inDigits s
  · exact h.pure _

theorem scanExponent (s : Bytes) : P _ (Scan.scanExponent s) (Scan.scanExponent s) := by
  refine h.bind h.peek fun c => ?_
  split
  · exact h.bind (h.push s) fun s => h.bind h.peek fun _ => h.bind (h.pushIf _ s) fun s =>
      h.pushWhile h.inWord s
  · exact h.pure _

theorem scanLexeme (c : UInt8) : P _ (Scan.scanLexeme c) (Scan.scanLexeme c) :=
  h.bind (h.pushIf _ []) fun s => h.bind (h.push s) fun s =>
    h.bind (h.pushWhile h.inDigits s) fun s => h.bind (h.scanFraction s) fun s =>
      h.scanExponent s

theorem scanNumber (c : UInt8) : P _ (Scan.scanNumber c) (Scan.scanNumber c) := by
  refine h.bind (h.scanLexeme c) fun s => ?_
  split
  · exact h.throw _
  · exact h.pure _

theorem scanWord (c : UInt8) : P _ (Scan.scanWord c) (Scan.scanWord c) := by
  refine h.bind (h.push []) fun s => h.bind (h.pushWhile h.inWord s) fun s => ?_
  split
  · exact h.pure _
  · split
    · exact h.pure _
    · exact h.throw _

theorem scanToken (c : UInt8) : P _ (Scan.scanToken c) (Scan.scanToken c) := by
  -- six kinds of punctuation
  iterate 6 refine ProgramRel.ite (P:=P) (h.scanPunctuation _) ?_
  refine ProgramRel.ite (P:=P) h.scanString (ProgramRel.ite (P:=P) (h.scanNumber c) ?_)
  exact ProgramRel.ite (P:=P) (h.scanWord c) (h.throw _)

theorem scan : P _ Scan.scan Scan.scan := by
  refine h.bind h.skipWhitespace fun _ => h.bind h.peek ?_
  rintro (_ | c)
  · exact h.pure _
  · exact h.scanToken c

theorem scanSkipWhitespace : P _ Scan.scanSkipWhitespace Scan.scanSkipWhitespace :=
  h.bind h.scan fun _ => h.bind h.skipWhitespace fun _ => h.pure _

end ScannerRel

/-- A program relation that the parser's access to its tokens respects. -/
structure ParserRel {σ τ : Type} [TokenSource σ] [TokenSource τ]
    (P : (α : Type) → Exec (Parser σ) Exn α → Exec (Parser τ) Exn α → Prop) : Prop
    extends ProgramRel P where
  lookahead : P _ (read Parser.lookahead) (read Parser.lookahead)
  setLookahead : ∀ tok, P _ (modify (Parser.setLookahead tok)) (modify (Parser.setLookahead tok))
  scan : P _ (zoom Parser.scan Parser.setScan TokenSource.scanSkipWhitespace)
    (zoom Parser.scan Parser.setScan TokenSource.scanSkipWhitespace)

namespace ParserRel

variable {σ τ : Type} [TokenSource σ] [TokenSource τ]
  {P : (α : Type) → Exec (Parser σ) Exn α → Exec (Parser τ) Exn α → Prop} (h : ParserRel P)
include h

theorem getDouble (c : Cargo) : P _ c.getDouble c.getDouble := by
  cases c <;> first | exact h.pure _ | exact h.throw _

theorem getString (c : Cargo) : P _ c.getString c.getString := by
  cases c <;> first | exact h.pure _ | exact h.throw _

theorem getBool (c : Cargo) : P _ c.getBool c.getBool := by
  cases c <;> first | exact h.pure _ | exact h.throw _

theorem peek : P _ Parser.peek Parser.peek := by
  refine h.bind h.lookahead ?_
  rintro (_ | tok)
  · exact h.bind h.scan fun tok => h.bind (h.setLookahead tok) fun _ => h.pure _
  · exact h.pure _

theorem next : P _ Parser.next Parser.next := by
  refine h.bind h.peek fun tok => h.bind (h.setLookahead none) fun _ => ?_
  cases tok with
  | none => exact h.throw _
  | some tok => exact h.pure _

theorem eat (type : TokenType) : P _ (Parser.eat type) (Parser.eat type) := by
  refine h.bind h.next fun tok => ?_
  split
  · exact h.throw _
  · exact h.pure _

theorem eatSeparator (empty : Bool) :
    P _ (Parser.eatSeparator empty) (Parser.eatSeparator empty) := by
  unfold Parser.eatSeparator
  split
  · exact h.pure _
  · exact h.bind (h.eat .comma) fun _ => h.pure _

theorem valueN (n : ℕ) : P _ (Parser.valueN n) (Parser.valueN n) ∧
    (∀ vs, P _ (Parser.elementsN n vs) (Parser.elementsN n vs)) ∧
    ∀ ms, P _ (Parser.membersN n ms) (Parser.membersN n ms) := by
  induction n with
  | zero =>
    exact ⟨h.stop _ (by simp),fun _ => h.stop _ (by simp),fun _ => h.stop _ (by simp)⟩
  | succ n ih =>
    obtain ⟨hv,he,hm⟩ := ih
    refine ⟨h.bind h.peek ?_,fun vs => h.bind h.peek ?_,fun ms => h.bind h.peek ?_⟩
    · rintro (_ | tok)
      · exact h.throw _
      · dsimp only
        split
        · exact h.bind h.next fun t => h.bind (h.getDouble t.cargo) fun _ => h.pure _
        · exact h.bind h.next fun t => h.bind (h.getString t.cargo) fun _ => h.pure _
        · exact h.bind h.next fun t => h.bind (h.getBool t.cargo) fun _ => h.pure _
        · exact h.bind h.next fun _ => h.pure _
        · exact h.bind (h.eat _) fun _ => h.bind (he []) fun _ => h.bind (h.eat _) fun _ =>
            h.pure _
        · exact h.bind h.next fun _ => h.bind (hm []) fun _ => h.bind (h.eat _) fun _ =>
            h.pure _
        · exact h.throw _
    · rintro (_ | tok)
      · exact h.pure _
      · dsimp only
        split
        · exact h.pure _
        · exact h.bind (h.eatSeparator _) fun _ => h.bind hv fun v => he _
    · rintro (_ | tok)
      · exact h.pure _
      · dsimp only
        split
        · exact h.pure _
        · exact h.bind (h.eatSeparator _) fun _ => h.bind (h.eat _) fun t =>
            h.bind (h.getString t.cargo) fun key => h.bind (h.eat _) fun _ =>
              h.bind hv fun v => hm _

end ParserRel

end Gabby.Json
