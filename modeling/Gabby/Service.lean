import Gabby.HttpServer
import Gabby.ServiceResponse

/-! The inference service: its handlers and its routes. -/
namespace Gabby.Service

open Exec Http

/-- The generator and the order in which hash maps are enumerated when a value is printed. -/
structure Env where
  generate : Question → Except Exn Message
  enumerate : Json.Value → Json.Value

abbrev Asked := List Question

def healthCheck : Handler Asked := fun _ => Conn.onWriter (SocketWriter.writeStatus .ok)

def generate (env : Env) (question : Question) : Exec (Conn Asked) Exn Message := do
  Exec.modify fun c => { c with app := c.app ++ [question] }
  ofExcept (env.generate question)

def ofResult {σ α : Type} : Except (Stop Exn) α → Exec σ Exn α
  | .ok a => pure a
  | .error e => Exec.stop e

def chatCompletions (env : Env) : Handler Asked := fun req => do
  ofExcept (checkMethod [.post] req.method)
  let contentLength ← ofExcept (getIntHeader req (ascii "Content-Length"))
  let jsonReq ← Conn.onStream (Json.parse contentLength)
  let question ← ofExcept (extractRequest jsonReq)
  let answer ← generate env question
  let jsonResp ← ofResult (makeResponse answer)
  Conn.onWriter (SocketWriter.writeStatus .ok)
  Conn.onWriter (SocketWriter.writeData (env.enumerate jsonResp).toString)

def routes (env : Env) : List (Route Asked) := [
  Router.route (ascii "/healthz") healthCheck,
  Router.route (ascii "/v1/chat/completions") (chatCompletions env)]

/-- The server that `InferenceService::Start` starts, on one client's stream. -/
def handle (env : Env) : Exec (Conn Asked) Exn Unit := Http.handle (Router.handle (routes env))

/-- A connection on which nothing has happened. -/
def accept (stream : Stream) : Conn Asked := ⟨.init stream,[]⟩

end Gabby.Service
