import Gabby.JsonScanner
import Gabby.JsonValue

/-! The JSON parser: recursive descent with one token of lookahead, written for any source
of tokens. Every descent and every round of a loop uses one unit of fuel; `Parser.value`
takes enough for all the tokens its source can still deliver. -/
namespace Gabby.Json

class TokenSource (σ : Type) where
  scanSkipWhitespace : Exec σ Exn (Option Token)
  tokens : σ → ℕ

instance {σ : Type} [CharSource σ] : TokenSource σ where
  scanSkipWhitespace := Scan.scanSkipWhitespace
  tokens := CharSource.reads

structure Parser (σ : Type) where
  scan : σ
  lookahead : Option Token

/-- `std::get<T>(cargo)` for the three alternatives the parser asks for. -/
def Cargo.getDouble {σ : Type} : Cargo → Exec σ Exn Double
  | .double d => pure d
  | _ => Exec.throw .badVariantAccess

def Cargo.getString {σ : Type} : Cargo → Exec σ Exn Bytes
  | .string s => pure s
  | _ => Exec.throw .badVariantAccess

def Cargo.getBool {σ : Type} : Cargo → Exec σ Exn Bool
  | .bool b => pure b
  | _ => Exec.throw .badVariantAccess

namespace Parser

variable {σ : Type} [TokenSource σ]

def init (scan : σ) : Parser σ := ⟨scan,none⟩

def setScan (p : Parser σ) (scan : σ) : Parser σ := { p with scan := scan }
def setLookahead (tok : Option Token) (p : Parser σ) : Parser σ := { p with lookahead := tok }

def peek : Exec (Parser σ) Exn (Option Token) := do
  match ← Exec.read lookahead with
  | none => do
    let tok ← Exec.zoom scan setScan TokenSource.scanSkipWhitespace
    Exec.modify (setLookahead tok)
    pure tok
  | some tok => pure (some tok)

def unexpectedEof : Exn := .parsingError (ascii "unexpected eof")

def next : Exec (Parser σ) Exn Token := do
  let tok ← peek
  Exec.modify (setLookahead none)
  match tok with
  | none => Exec.throw unexpectedEof
  | some tok => pure tok

def unexpectedToken (want got : TokenType) : Exn :=
  .parsingError (ascii "want " ++ want.toString ++ ascii ", got " ++ got.toString)

def eat (type : TokenType) : Exec (Parser σ) Exn Token := do
  let tok ← next
  if tok.type ≠ type then Exec.throw (unexpectedToken type tok.type) else pure tok

/-- `if (!values.empty()) Eat(COMMA);` -/
def eatSeparator (empty : Bool) : Exec (Parser σ) Exn Unit :=
  if empty then pure () else do
    let _ ← eat .comma
    pure ()

def badValue (type : TokenType) : Exn := .parsingError (ascii "bad value: " ++ type.toString)

mutual

/-- `Parser::Value`. -/
def valueN : ℕ → Exec (Parser σ) Exn Value
  | 0 => Exec.stop .outOfFuel
  | n+1 => do
    match ← peek with
    | none => Exec.throw unexpectedEof
    | some tok =>
      match tok.type with
      | .num => do
        let d ← (← next).cargo.getDouble
        pure (.number d)
      | .str => do
        let s ← (← next).cargo.getString
        pure (.string s)
      | .bool => do
        let b ← (← next).cargo.getBool
        pure (.boolean b)
      | .nil => do
        let _ ← next
        pure .nil
      | .lbracket => do
        let _ ← eat .lbracket
        let values ← elementsN n []
        let _ ← eat .rbracket
        pure (.array values)
      | .lbrace => do
        let _ ← next
        let values ← membersN n []
        let _ ← eat .rbrace
        pure (.object values)
      | type => Exec.throw (badValue type)

/-- The loop over the elements of an array. -/
def elementsN : ℕ → List Value → Exec (Parser σ) Exn (List Value)
  | 0, _ => Exec.stop .outOfFuel
  | n+1, values => do
    match ← peek with
    | none => pure values
    | some next =>
      if next.type = .rbracket then pure values
      else do
        eatSeparator values.isEmpty
        let v ← valueN n
        elementsN n (values ++ [v])

/-- The loop over the members of an object. -/
def membersN : ℕ → Dict Bytes Value → Exec (Parser σ) Exn (Dict Bytes Value)
  | 0, _ => Exec.stop .outOfFuel
  | n+1, values => do
    match ← peek with
    | none => pure values
    | some next =>
      if next.type = .rbrace then pure values
      else do
        eatSeparator values.isEmpty
        let key ← (← eat .str).cargo.getString
        let _ ← eat .colon
        let value ← valueN n
        membersN n (values.assign key value)

end

/-- Every token costs at most two descents. -/
def fuel (p : Parser σ) : ℕ := 2 * (TokenSource.tokens p.scan + p.lookahead.toList.length) + 2

def value : Exec (Parser σ) Exn Value := fun p => valueN p.fuel p

def trailingData : Exn := .parsingError (ascii "unexpected trailing data")

/-- The body of `Parse(FILE*, int)`. -/
def parse {σ : Type} [CharSource σ] (size : ℤ) : Exec (Parser σ) Exn Value := do
  let value ← value
  if (← Exec.read fun p : Parser σ => CharSource.pos p.scan) ≠ size then Exec.throw trailingData
  else pure value

end Parser

def parseRun (f : Stream) (size : ℤ) : Run (Parser Scanner) Exn Value :=
  Parser.parse size (Parser.init (Scanner.init f size))

def parseOutcome (f : Stream) (size : ℤ) : Except (Stop Exn) Value := (parseRun f size).outcome

def parse (size : ℤ) : Exec Stream Exn Value := fun f =>
  let r := parseRun f size
  ⟨r.visited.map (fun p => p.scan.f),r.outcome,r.final.scan.f⟩

/-- `Parse(const std::string&)`: the string opened as a stream of its own. -/
def parseString (s : Bytes) : Except (Stop Exn) Value :=
  parseOutcome (.ofBytes s) (toInt32 s.length)

/-- `ParseFile`: the file opened as a stream, with its size. -/
def parseFile (content : Bytes) : Except (Stop Exn) Value :=
  parseOutcome (.ofBytes content) (toInt32 content.length)

end Gabby.Json
