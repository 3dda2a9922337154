import Gabby.HttpClient
import Gabby.HttpListener
import Gabby.JsonParser

/-! The test client on its sockets: connecting, writing what the kernel takes in parts, reading
until the peer closes, and trying again when the connection is reset. -/
namespace Gabby.Http

open Exec

def ECONNRESET : ℕ := 104

inductive ClientError
  | systemError (errno : ℕ) | runtimeError (what : Bytes) | invalidArgument (what : Bytes)
  | exn (e : Exn)
  deriving DecidableEq

/-- One end of a connection and what its system calls meet. `connects` are the error numbers
of the calls of `connect` that fail before one succeeds; `writes` and `reads` are error
numbers or what is taken and delivered (past their ends everything is taken, and the peer has
closed). `received` is what has reached the peer. -/
structure Socket where
  connects : List ℕ
  writes : List (Except ℕ ℕ)
  reads : List (Except ℕ Bytes)
  errno : ℕ
  received : Bytes

namespace Socket

/-- `::connect`; the result is whether it succeeded. -/
def connect (s : Socket) : Bool × Socket :=
  match s.connects with
  | [] => (true,s)
  | e::es => (false,{ s with connects := es, errno := e })

/-- `::write`; none is its failure. -/
def write (data : Bytes) (s : Socket) : Option ℕ × Socket :=
  match s.writes with
  | [] => (some data.length,{ s with received := s.received ++ data })
  | .error e :: ws => (none,{ s with writes := ws, errno := e })
  | .ok k :: ws => (some (min k data.length),
      { s with writes := ws, received := s.received ++ data.take k })

/-- `::read` into a buffer of `size` bytes; none is its failure. -/
def read (size : ℕ) (s : Socket) : Option Bytes × Socket :=
  match s.reads with
  | [] => (some [],s)
  | .error e :: rs => (none,{ s with reads := rs, errno := e })
  | .ok chunk :: rs =>
    if chunk.length ≤ size then (some chunk,{ s with reads := rs })
    else (some (chunk.take size),{ s with reads := .ok (chunk.drop size) :: rs })

/-- How many bytes and results the reads can still deliver. -/
def unread (s : Socket) : ℕ :=
  (s.reads.map fun | .error _ => 1 | .ok chunk => chunk.length + 1).sum

end Socket

namespace UnbufferedClientSocket

/-- The result of a system call as an `int`; its failure is -1. -/
def result : Option ℕ → ℤ
  | none => -1
  | some n => Json.toInt32 n

def systemError {α : Type} : Exec Socket ClientError α := do
  Exec.throw (.systemError (← Exec.read Socket.errno))

def connect : Exec Socket ClientError Unit :=
  Exec.loop (fun s => s.connects.length + 1) (fun _ => do
    if ← Exec.step fun s => (.ok s.connect.1,s.connect.2) then pure (.inr ())
    else if (← Exec.read Socket.errno) == ECONNABORTED then pure (.inl ())
    else systemError) ()

/-- One round of the loop in `Write`; the sum that the `int` cannot hold is undefined. -/
def writeRound (data : Bytes) (n : ℕ) : Exec Socket ClientError (ℕ ⊕ Unit) :=
  if n < data.length then do
    let k ← Exec.step fun s => (.ok (result (s.write (data.drop n)).1),(s.write (data.drop n)).2)
    if k < 0 then systemError
    else if 2^31 ≤ n + k then Exec.stop .undefined
    else pure (.inl (n + k.toNat))
  else pure (.inr ())

def write (data : Bytes) : Exec Socket ClientError Unit :=
  if data.isEmpty then pure ()
  else Exec.loop (fun s => s.writes.length + 2) (writeRound data) 0

def readRound (data : Bytes) : Exec Socket ClientError (Bytes ⊕ Bytes) := do
  match ← Exec.step fun s => (.ok (s.read 1024).1,(s.read 1024).2) with
  | none => systemError
  | some chunk => if chunk.isEmpty then pure (.inr data) else pure (.inl (data ++ chunk))

def readAll : Exec Socket ClientError Bytes := Exec.loop (fun s => s.unread + 1) readRound []

end UnbufferedClientSocket

open UnbufferedClientSocket

/-! ## Calls -/

namespace Call

def writeHeader (key value : Bytes) : Exec Socket ClientError Unit :=
  write (Client.headerLine key value)

def writeHeaders : Dict Bytes Bytes → Exec Socket ClientError Unit
  | [] => pure ()
  | (key,value)::headers => do
    writeHeader key value
    write (Client.headerLine key value)
    writeHeaders headers

def send (method : Method) (path : Bytes) (headers : Dict Bytes Bytes) (data : Bytes) :
    Exec Socket ClientError Unit := do
  write (method.toString ++ ascii " " ++ path ++ ascii " HTTP/1.1\r\n")
  writeHeaders headers
  if !data.isEmpty then
    writeHeader (ascii "Content-Length") (decimal data.length)
    write (Client.headerLine (ascii "Content-Length") (decimal data.length))
  write crlf
  if !data.isEmpty then write data

/-- The `try` block: one connection, one request and its response. -/
def attempt (method : Method) (path : Bytes) (headers : Dict Bytes Bytes) (data : Bytes) :
    Exec Socket ClientError Bytes := do
  connect
  send method path headers data
  readAll

end Call

/-- The sockets of a client in the order in which they are created, and those it has used. -/
structure Network where
  sockets : ℕ → Socket
  used : List Socket

namespace Network

def onSocket {α : Type} : Exec Socket ClientError α → Exec Network ClientError α :=
  Exec.zoom (fun net => net.sockets net.used.length)
    fun net s => { net with used := net.used ++ [s] }

end Network

def kNumRetries : ℕ := 3

section Calls

variable (method : Method) (path : Bytes) (headers : Dict Bytes Bytes) (data : Bytes)

/-- The loop of `Call` with so many attempts left. -/
def Call.retry : ℕ → Exec Network ClientError Bytes
  | 0 => Exec.throw (.runtimeError (ascii "exceeded max retries"))
  | n+1 => Exec.tryCatch (Network.onSocket (Call.attempt method path headers data)) fun e =>
      if e = .systemError ECONNRESET then Call.retry n else Exec.throw e

def call : Exec Network ClientError Bytes := Call.retry method path headers data kNumRetries

end Calls

def ofStop {α : Type} : Except (Stop Exn) α → Except (Stop ClientError) α
  | .ok a => .ok a
  | .error (.throw e) => .error (.throw (.exn e))
  | .error .assertion => .error .assertion
  | .error .undefined => .error .undefined
  | .error .outOfFuel => .error .outOfFuel

def PostJson.extract (result : Bytes) : Except (Stop ClientError) Json.Value :=
  match find (crlf ++ crlf) result with
  | none => .error (.throw (.invalidArgument (ascii "invalid http response")))
  | some split => ofStop (Json.parseString (result.drop split))

/-- `PostJson`, with the members of `data` in the order in which they are printed. -/
def postJson (path : Bytes) (data : Json.Value) : Exec Network ClientError Json.Value := do
  let result ← call .post path [] data.toString
  Exec.step fun net => (PostJson.extract result,net)

end Gabby.Http
