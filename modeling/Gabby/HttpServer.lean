import Gabby.HttpRequest
import Gabby.JsonParser
import Mathlib.Computability.RegularExpressions

/-! The response writer, the router and the server loop's handling of one client. -/
namespace Gabby.Http

open Exec

/-! ## Writing a response -/

structure SocketWriter where
  stream : Stream
  status : Option StatusCode
  headers : Dict Bytes Bytes
  sendingData : Bool
  bytesWritten : ℤ

namespace SocketWriter

def init (stream : Stream) : SocketWriter := ⟨stream,none,[],false,0⟩

def onStream {α : Type} : Exec Stream Exn α → Exec SocketWriter Exn α :=
  Exec.zoom stream fun w f => { w with stream := f }

def fwrite (data : Bytes) : Exec Stream Exn ℕ := Exec.step fun f =>
  (.ok (f.fwrite data).1,(f.fwrite data).2)

def write (s : Bytes) : Exec SocketWriter Exn Unit :=
  if s.isEmpty then pure ()
  else do
    let n ← onStream (fwrite s)
    if n = 0 then
      if (← Exec.read fun w => w.stream.err) && (← Exec.read fun w => w.stream.errno) == EAGAIN
      then Exec.throw .timeoutException
      else Exec.throw (.internalError (ascii "failed to write data"))
    else Exec.modify fun w =>
      { w with bytesWritten := (w.bytesWritten + s.length).bmod (2^32) }

def flush : Exec SocketWriter Exn Unit := onStream (Exec.modify Stream.fflush)

def writeHeader (key value : Bytes) : Exec SocketWriter Exn Unit := do
  if ← Exec.read sendingData then Exec.throw (.internalError (ascii "failed to send http status"))
  else
    write (key ++ ascii ": " ++ value ++ crlf)
    Exec.modify fun w => { w with headers := w.headers.assign key value }

def statusLine (status : StatusCode) : Bytes :=
  ascii "HTTP/1.1 " ++ decimal status.code ++ ascii " " ++ status.toString

def writeStatus (status : StatusCode) : Exec SocketWriter Exn Unit := do
  if ← Exec.read sendingData then Exec.throw (.internalError (ascii "failed to send http status"))
  else
    write (statusLine status ++ crlf)
    writeHeader (ascii "Connection") (ascii "close")
    Exec.modify fun w => { w with status := some status }

def writeData (data : Bytes) : Exec SocketWriter Exn Unit := do
  if !(← Exec.read sendingData) then
    if (← Exec.read SocketWriter.status).isNone then writeStatus .ok
    write crlf
    Exec.modify fun w => { w with sendingData := true }
  write data

/-- `MustSend`: failures to send are logged and dropped. -/
def mustSend (status : StatusCode) : Exec SocketWriter Exn Unit := do
  if (← Exec.read SocketWriter.status).isSome then pure ()
  else Exec.tryCatch (do writeStatus status; flush) fun _ => pure ()

end SocketWriter

/-! ## Connections -/

/-- The response to one client, and the state that belongs to the request handlers. -/
structure Conn (σ : Type) where
  writer : SocketWriter
  app : σ

namespace Conn

variable {σ α : Type}

def onWriter : Exec SocketWriter Exn α → Exec (Conn σ) Exn α :=
  Exec.zoom writer fun c w => { c with writer := w }

def onStream (m : Exec Stream Exn α) : Exec (Conn σ) Exn α := onWriter (SocketWriter.onStream m)

/-- The bytes that the writes to the client have accepted. -/
def output (c : Conn σ) : Bytes := c.writer.stream.output

/-- The bytes that have left for the client. -/
def delivered (c : Conn σ) : Bytes := c.writer.stream.delivered

end Conn

abbrev Handler (σ : Type) := Request → Exec (Conn σ) Exn Unit

/-! ## Router -/

structure Route (σ : Type) where
  pat : Bytes
  re : RegularExpression UInt8
  handler : Handler σ

namespace Router

variable {σ : Type}

/-- `std::regex` of a pattern without special characters. -/
def regex (pat : Bytes) : RegularExpression UInt8 := pat.foldr (fun c r => .char c * r) 1

theorem rmatch_regex {pat s : Bytes} : (regex pat).rmatch s = true ↔ s = pat := by
  induction pat generalizing s with
  | nil => exact RegularExpression.one_rmatch_iff s
  | cons c pat ih =>
    rw [regex,List.foldr_cons,RegularExpression.mul_rmatch_iff]
    constructor
    · rintro ⟨t,u,rfl,ht,hu⟩
      rw [RegularExpression.char_rmatch_iff] at ht
      rw [ht,ih.mp hu]
      rfl
    · rintro rfl
      exact ⟨[c],pat,rfl,(RegularExpression.char_rmatch_iff c _).mpr rfl,ih.mpr rfl⟩

def route (pat : Bytes) (handler : Handler σ) : Route σ := ⟨pat,regex pat,handler⟩

/-- `Router::handle`: the first route that matches the path. -/
def handle : List (Route σ) → Handler σ
  | [], _ => Conn.onWriter (SocketWriter.writeStatus .notFound)
  | r::routes, req => if r.re.rmatch req.path then r.handler req else handle routes req

end Router

/-! ## The server -/

variable {σ : Type}

/-- The body of the `try` block. The log line dereferences the optional status. -/
def serve (handler : Handler σ) : Exec (Conn σ) Exn Unit := do
  let req ← Conn.onStream parseRequest
  handler req
  Conn.onWriter SocketWriter.flush
  match ← Exec.read fun c => c.writer.status with
  | some _ => pure ()
  | none => Exec.stop .undefined

def rescue (e : Exn) : Exec (Conn σ) Exn Unit :=
  Conn.onWriter <|
    if e.isJSONError then SocketWriter.mustSend .badRequest
    else match e.status with
      | some status => SocketWriter.mustSend status
      | none => SocketWriter.mustSend .internalServerError

/-- `HttpServer::Handle` on an open connection. The destructor of the writer flushes again. -/
def handle (handler : Handler σ) : Exec (Conn σ) Exn Unit := do
  Exec.tryCatch (serve handler) rescue
  Conn.onWriter SocketWriter.flush

end Gabby.Http
