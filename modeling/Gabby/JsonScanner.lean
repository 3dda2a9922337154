import Gabby.Exec
import Gabby.Stream
import Gabby.Double
import Gabby.Errors

/-! The JSON scanner. Its code above `GetChar` and `UngetChar` is written once, for any
source of characters; the scanner of the program reads a stream with one character of
lookahead and stops after `size` bytes. -/
namespace Gabby.Json

inductive TokenType
  | num | str | bool | lbrace | rbrace | lbracket | rbracket | comma | colon | nil
  deriving DecidableEq

namespace TokenType

def toString : TokenType → Bytes
  | num => ascii "NUM"
  | str => ascii "STR"
  | bool => ascii "BOOL"
  | lbrace => ascii "LBRACE"
  | rbrace => ascii "RBRACE"
  | lbracket => ascii "LBRACKET"
  | rbracket => ascii "RBRACKET"
  | comma => ascii "COMMA"
  | colon => ascii "COLON"
  | nil => ascii "NIL"

end TokenType

/-- `std::variant<double, bool, char, std::string>`. -/
inductive Cargo
  | double (value : Double) | bool (value : Bool) | char (value : UInt8) | string (value : Bytes)
  deriving DecidableEq

structure Token where
  type : TokenType
  cargo : Cargo
  deriving DecidableEq

/-- What the scanner needs of the characters it reads. `reads` bounds the characters and
read failures still to come before every further read fails. -/
class CharSource (σ : Type) where
  getChar : Exec σ Exn (Option UInt8)
  ungetChar : UInt8 → Exec σ Exn Unit
  ferror : σ → Bool
  errno : σ → ℕ
  pos : σ → ℤ
  reads : σ → ℕ

namespace Scan

open CharSource

variable {σ : Type} [CharSource σ]

/-- A `while (true)` loop; each round but the last takes a character or a failure. -/
def repeatUntil {α β : Type} (body : α → Exec σ Exn (α ⊕ β)) (a : α) : Exec σ Exn β :=
  Exec.loop (fun s => reads s+1) body a

def skipWhitespace : Exec σ Exn Unit :=
  repeatUntil (fun _ => do
    match ← getChar with
    | none => pure (.inr ())
    | some c =>
      if !isspace c then do
        ungetChar c
        pure (.inr ())
      else pure (.inl ())) ()

def peek : Exec σ Exn (Option UInt8) := do
  match ← getChar with
  | none =>
    let errno ← Exec.read (σ:=σ) errno
    if errno = EAGAIN then pure none
    else if ← Exec.read (σ:=σ) ferror then Exec.throw (.systemError errno)
    else pure none
  | some c =>
    ungetChar c
    pure (some c)

def advance : Exec σ Exn UInt8 := do
  match ← getChar with
  | none =>
    if ← Exec.read (σ:=σ) ferror then Exec.throw (.systemError (← Exec.read (σ:=σ) errno))
    else Exec.throw (.parsingError (ascii "unexpected eof"))
  | some c => pure c

def isDelim : Option UInt8 → Bool
  | none => true
  | some c => !isalnum c

def push (s : Bytes) : Exec σ Exn Bytes := do
  let c ← advance
  pure (s ++ [c])

/-- `while (more) s.push_back(Advance());` -/
def pushWhile (more : Exec σ Exn Bool) (s : Bytes) : Exec σ Exn Bytes :=
  repeatUntil (fun s => do
    if ← more then do
      let s ← push s
      pure (.inl s)
    else pure (.inr s)) s

def inWord : Exec σ Exn Bool := do
  let c ← peek
  pure !(isDelim c)

/-- `!is_delim(Peek()) && *Peek() != 'e'` -/
def inDigits : Exec σ Exn Bool := do
  if isDelim (← peek) then pure false
  else match ← peek with
    | none => Exec.stop .undefined
    | some c => pure (c != chr 'e')

/-- `Token{.type = type, .cargo = Advance()}` -/
def scanPunctuation (type : TokenType) : Exec σ Exn (Option Token) := do
  let c ← advance
  pure (some ⟨type,.char c⟩)

/-- A round of the loop over a string; the state is `s` and `escaped`. -/
def stringStep (p : Bytes × Bool) : Exec σ Exn ((Bytes × Bool) ⊕ (Bytes × UInt8)) := do
  let c ← advance
  if (c == chr '"' && !p.2) || c == chr '\n' then pure (.inr (p.1,c))
  else if c == chr '\\' && !p.2 then pure (.inl (p.1,true))
  else pure (.inl (p.1 ++ [c],false))

def scanString : Exec σ Exn (Option Token) := do
  let _ ← advance
  let r ← repeatUntil stringStep ([],false)
  if r.2 != chr '"' then Exec.throw (.parsingError (ascii "unterminated string"))
  else pure (some ⟨.str,.string r.1⟩)

def pushIf (b : Bool) (s : Bytes) : Exec σ Exn Bytes := if b then push s else pure s

def scanFraction (s : Bytes) : Exec σ Exn Bytes := do
  if (← peek) = some (chr '.') then do
    let s ← push s
    pushWhile inDigits s
  else pure s

def scanExponent (s : Bytes) : Exec σ Exn Bytes := do
  if (← peek) = some (chr 'e') then do
    let s ← push s
    let maybeC ← peek
    -- the second operand of || is an optional with a value, not a comparison with it
    let s ← pushIf (maybeC == some (chr '+') || (some (chr '-')).isSome) s
    pushWhile inWord s
  else pure s

/-- The number branch of `Scan`, up to the call of `stod`. -/
def scanLexeme (c : UInt8) : Exec σ Exn Bytes := do
  let s ← pushIf (c == chr '-') []
  let s ← push s
  let s ← pushWhile inDigits s
  let s ← scanFraction s
  scanExponent s

def scanNumber (c : UInt8) : Exec σ Exn (Option Token) := do
  let s ← scanLexeme c
  match Double.stod s with
  | none => Exec.throw (.parsingError (ascii "bad number: " ++ s))
  | some value => pure (some ⟨.num,.double value⟩)

def badToken (c : UInt8) : Exn := .parsingError (ascii "bad token: " ++ [c])

def scanWord (c : UInt8) : Exec σ Exn (Option Token) := do
  let s ← push []
  let s ← pushWhile inWord s
  if s = ascii "true" || s = ascii "false" then pure (some ⟨.bool,.bool (s == ascii "true")⟩)
  else if s = ascii "null" then pure (some ⟨.nil,.string (ascii "null")⟩)
  else Exec.throw (badToken c)

/-- The part of `Scan` that the next character decides. -/
def scanToken (c : UInt8) : Exec σ Exn (Option Token) :=
  if c = chr '[' then scanPunctuation .lbracket
  else if c = chr ']' then scanPunctuation .rbracket
  else if c = chr '{' then scanPunctuation .lbrace
  else if c = chr '}' then scanPunctuation .rbrace
  else if c = chr ',' then scanPunctuation .comma
  else if c = chr ':' then scanPunctuation .colon
  else if c = chr '"' then scanString
  else if c = chr '-' || isdigit c then scanNumber c
  else if isalpha c then scanWord c
  else Exec.throw (badToken c)

def scan : Exec σ Exn (Option Token) := do
  skipWhitespace
  match ← peek with
  | none => pure none
  | some c => scanToken c

def scanSkipWhitespace : Exec σ Exn (Option Token) := do
  let tok ← scan
  skipWhitespace
  pure tok

end Scan

/-! ## The scanner over a stream -/

structure Scanner where
  f : Stream
  size : ℤ
  pos : ℤ
  lookahead : Option UInt8

namespace Scanner

def init (f : Stream) (size : ℤ) : Scanner := ⟨f,size,0,none⟩

def getChar : Exec Scanner Exn (Option UInt8) := Exec.step fun s =>
  let f := s.f.clearerr
  match s.lookahead with
  | some c => (.ok (some c),{ s with f := f, lookahead := none, pos := s.pos+1 })
  | none =>
    if s.size ≤ s.pos then (.ok none,{ s with f := f })
    else match f.fgetc with
      | (none,f) => (.ok none,{ s with f := f })
      | (some c,f) => (.ok (some c),{ s with f := f, pos := s.pos+1 })

def ungetChar (c : UInt8) : Exec Scanner Exn Unit := Exec.step fun s =>
  if s.lookahead.isSome then (.error .assertion,s)
  else (.ok (),{ s with pos := s.pos-1, lookahead := some c })

/-- The inputs up to and including the `n`-th byte; nothing is read after it. -/
def window : ℕ → List Input → List Input
  | 0, _ => []
  | _, [] => []
  | n+1, .byte b :: l => .byte b :: window n l
  | n+1, .fail e :: l => .fail e :: window (n+1) l

def budget (s : Scanner) : ℕ := (s.size - s.pos - (if s.lookahead.isSome then 1 else 0)).toNat

/-- What the scanner will still be given: the lookahead, then the rest of its window. -/
def view (s : Scanner) : List Input :=
  (s.lookahead.map Input.byte).toList ++ window s.budget s.f.pending

instance : CharSource Scanner where
  getChar := getChar
  ungetChar := ungetChar
  ferror s := s.f.err
  errno s := s.f.errno
  pos s := s.pos
  reads s := s.view.length

end Scanner

end Gabby.Json
