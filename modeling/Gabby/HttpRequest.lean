import Gabby.Exec
import Gabby.Stream
import Gabby.Dict
import Gabby.Errors

/-! Reading the head of a request: lines through a buffer of 256 bytes, the request line and
the headers. -/
namespace Gabby.Http

open Exec

def kMaxLineLen : ℕ := 256

def fgets (size : ℕ) : Exec Stream Exn Bytes := Exec.step fun s =>
  (.ok (s.fgets size).1,(s.fgets size).2)

/-- `strnlen` of a buffer in which a NUL follows the stored bytes. -/
def strnlen (stored : Bytes) (n : ℕ) : ℕ := min (stored.takeWhile (· != 0)).length n

/-- `buf[i]`, defined only within the stored bytes. -/
def charAt (stored : Bytes) (i : ℤ) : Exec Stream Exn UInt8 :=
  if h : 0 ≤ i ∧ i.toNat < stored.length then pure (stored.get ⟨i.toNat,h.2⟩)
  else Exec.stop .undefined

/-- `read >= 2 && buf[read - 2] == '\r'` -/
def endsInCr (stored : Bytes) (read : ℤ) : Exec Stream Exn Bool := do
  if 2 ≤ read then
    let c ← charAt stored (read-2)
    pure (c == 13)
  else pure false

def ReadLine.check (buf : Bytes) : Exec Stream Exn Bytes := do
  let read : ℤ := strnlen buf kMaxLineLen
  if ¬ 0 < read then Exec.stop .assertion
  else if (← charAt buf (read-1)) ≠ 10 then
    Exec.throw (.badRequestException (ascii "header line too long"))
  else if ← endsInCr buf read then pure (buf.take (read-2).toNat)
  else Exec.throw (.badRequestException (ascii "invalid line ending"))

def readLine : Exec Stream Exn Bytes := do
  let buf ← fgets kMaxLineLen
  if (← Exec.read Stream.err) && (← Exec.read Stream.errno) == EAGAIN then
    Exec.throw .timeoutException
  else if ← Exec.read Stream.err then
    Exec.throw (.badRequestException (ascii "failed to read from stream"))
  else if ← Exec.read Stream.eof then
    Exec.throw (.badRequestException (ascii "unexpected eof"))
  else ReadLine.check buf

def parseMethod (requestLine : Bytes) : Except Exn Method :=
  let stop := toInt (find (ascii " ") requestLine)
  if stop = -1 then .error (.badRequestException (ascii "missing http method"))
  else
    let method := requestLine.take stop.toNat
    if method = ascii "GET" then .ok .get
    else if method = ascii "POST" then .ok .post
    else .error (.badRequestException (ascii "invalid http method"))

def parsePath (requestLine : Bytes) : Except Exn Bytes :=
  let start := toInt (find (ascii " ") requestLine)
  let stop := toInt (findFrom (ascii " ") requestLine (start+1).toNat)
  if start = -1 ∨ stop = -1 then .error (.badRequestException (ascii "missing http path"))
  else .ok ((requestLine.take stop.toNat).drop (start+1).toNat)

def parseHeader (line : Bytes) : Except Exn (Bytes × Bytes) :=
  let delim := toInt (find (ascii ": ") line)
  if delim = -1 then .error (.badRequestException (ascii "missing colon in http header"))
  else .ok (line.take delim.toNat,line.drop (delim+2).toNat)

/-- The fields of a request that are read from the stream; the rest of the stream is its body. -/
structure Request where
  method : Method
  path : Bytes
  headers : Dict Bytes Bytes

def ofExcept {σ α : Type} : Except Exn α → Exec σ Exn α
  | .ok a => pure a
  | .error e => Exec.throw e

def readHeader (headers : Dict Bytes Bytes) :
    Exec Stream Exn (Dict Bytes Bytes ⊕ Dict Bytes Bytes) := do
  let line ← readLine
  if line.isEmpty then pure (.inr headers)
  else do
    let h ← ofExcept (parseHeader line)
    pure (.inl (headers.insert h.1 h.2))

def readHeaders (headers : Dict Bytes Bytes) : Exec Stream Exn (Dict Bytes Bytes) :=
  Exec.loop (fun s => s.pending.length+1) readHeader headers

def parseRequest : Exec Stream Exn Request := do
  let line ← readLine
  if line.isEmpty then Exec.throw (.badRequestException (ascii "missing request line"))
  else
    let method ← ofExcept (parseMethod line)
    let path ← ofExcept (parsePath line)
    let headers ← readHeaders []
    pure ⟨method,path,headers⟩

/-! ## Reading writes nothing -/

section Unsent

variable {f₀ : Stream}

abbrev Reads {α : Type} (f₀ : Stream) (m : Exec Stream Exn α) : Prop :=
  Keeps (Stream.Unsent f₀) (fun _ => True) m

theorem reads_fgets (size : ℕ) : Reads f₀ (fgets size) :=
  spec_step (fun _ h => h.getLine _) (fun _ _ h _ => h.getLine _)
    fun _ _ h _ => ⟨h.getLine _,trivial⟩

theorem reads_charAt (stored : Bytes) (i : ℤ) : Reads f₀ (charAt stored i) := by
  unfold charAt
  split
  · exact keeps_pure _
  · exact keeps_stop trivial

theorem reads_check (buf : Bytes) : Reads f₀ (ReadLine.check buf) := by
  unfold ReadLine.check endsInCr
  dsimp only
  split
  · exact keeps_stop trivial
  refine (reads_charAt _ _).bind fun c => ?_
  split
  · exact keeps_throw trivial
  refine Keeps.bind ?_ fun b => ?_
  · split
    · exact (reads_charAt _ _).bind fun _ => keeps_pure _
    · exact keeps_pure _
  · split
    · exact keeps_pure _
    · exact keeps_throw trivial

theorem reads_readLine : Reads f₀ readLine := by
  refine (reads_fgets _).bind fun buf => (keeps_read _).bind fun e =>
    (keeps_read _).bind fun n => ?_
  split
  · exact keeps_throw trivial
  refine (keeps_read _).bind fun e => ?_
  split
  · exact keeps_throw trivial
  refine (keeps_read _).bind fun e => ?_
  split
  · exact keeps_throw trivial
  · exact reads_check buf

theorem reads_ofExcept {α : Type} (x : Except Exn α) : Reads f₀ (ofExcept x) := by
  cases x with
  | ok a => exact keeps_pure a
  | error e => exact keeps_throw trivial

theorem reads_parseRequest : Reads f₀ parseRequest := by
  refine reads_readLine.bind fun line => ?_
  split
  · exact keeps_throw trivial
  refine (reads_ofExcept _).bind fun method => (reads_ofExcept _).bind fun path => ?_
  refine Keeps.bind (keeps_loop trivial (fun headers => ?_) _) fun _ => keeps_pure _
  refine reads_readLine.bind fun line => ?_
  split
  · exact keeps_pure _
  · exact (reads_ofExcept _).bind fun _ => keeps_pure _

theorem parseRequest_unsent (f : Stream) : f.Unsent (parseRequest.run f).2 :=
  reads_parseRequest.final (.refl f)

end Unsent

end Gabby.Http
