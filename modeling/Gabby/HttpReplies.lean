import Gabby.HttpServer
import Gabby.HttpLines

/-! What a client receives when no write fails: the bytes of each kind of reply. -/
namespace Gabby.Http

open Exec

namespace SocketWriter

/-- Everything written so far was sent, and these are the writer's flags. -/
structure Has (out : Bytes) (status : Option StatusCode) (sending : Bool) (w : SocketWriter) :
    Prop where
  plan : w.stream.plan = []
  output : w.stream.output = out
  status_eq : w.status = status
  sending_eq : w.sendingData = sending

def head (status : StatusCode) : Bytes := lines [statusLine status,ascii "Connection: close"]

variable {w : SocketWriter} {out : Bytes} {st : Option StatusCode} {sd : Bool}

theorem Has.onStream (h : w.Has out st sd) {f : Stream} (hf : w.stream.Unsent f) :
    Has out st sd { w with stream := f } :=
  ⟨hf.plan.trans h.plan,by rw [← h.output,Stream.output,Stream.output,hf.sent],h.status_eq,
    h.sending_eq⟩

theorem run_write (h : w.Has out st sd) (s : Bytes) :
    ∃ w', (write s).run w = (.ok (),w') ∧ w'.Has (out ++ s) st sd := by
  obtain ⟨hp,ho,hs,hd⟩ := h
  by_cases hne : s = []
  · subst hne
    exact ⟨w,rfl,hp,by simpa using ho,hs,hd⟩
  · have hpos := List.length_pos_iff.mpr hne
    have hf : (onStream (fwrite s)).run w =
        (.ok s.length,{ w with stream := { w.stream with sent := w.stream.sent ++ [s] } }) := by
      simp [onStream,fwrite,Stream.fwrite,hp]
    rw [write,if_neg (by simpa using hne),run_bind_ok hf,if_neg (by omega)]
    exact ⟨_,run_modify _ _,hp,by simpa [Stream.output] using ho,hs,hd⟩

theorem run_flush (h : w.Has out st sd) : ∃ w', flush.run w = (.ok (),w') ∧ w'.Has out st sd :=
  ⟨{ w with stream := w.stream.fflush },rfl,(Stream.fflush_plan _).trans h.plan,
    (Stream.fflush_output _).trans h.output,h.status_eq,h.sending_eq⟩

theorem run_writeHeader (h : w.Has out st false) (key value : Bytes) :
    ∃ w', (writeHeader key value).run w = (.ok (),w') ∧
      w'.Has (out ++ (key ++ ascii ": " ++ value ++ crlf)) st false := by
  obtain ⟨w',hw,h'⟩ := run_write h (key ++ ascii ": " ++ value ++ crlf)
  refine ⟨{ w' with headers := w'.headers.assign key value },?_,h'.plan,h'.output,h'.status_eq,
    h'.sending_eq⟩
  rw [writeHeader,run_bind_ok (run_read _ _),if_neg (by simp [h.sending_eq]),run_bind_ok hw]
  exact run_modify _ _

theorem run_writeStatus (h : w.Has out st false) (status : StatusCode) :
    ∃ w', (writeStatus status).run w = (.ok (),w') ∧
      w'.Has (out ++ head status) (some status) false := by
  obtain ⟨w₁,hw₁,h₁⟩ := run_write h (statusLine status ++ crlf)
  obtain ⟨w₂,hw₂,h₂⟩ := run_writeHeader h₁ (ascii "Connection") (ascii "close")
  refine ⟨{ w₂ with status := some status },?_,h₂.plan,?_,rfl,h₂.sending_eq⟩
  · rw [writeStatus,run_bind_ok (run_read _ _),if_neg (by simp [h.sending_eq]),run_bind_ok hw₁,
      run_bind_ok hw₂]
    exact run_modify _ _
  · have hc : ascii "Connection" ++ ascii ": " ++ ascii "close" = ascii "Connection: close" := by
      decide
    rw [h₂.output,hc]
    simp [head]

theorem run_writeData {status : StatusCode} (h : w.Has out (some status) false) (data : Bytes) :
    ∃ w', (writeData data).run w = (.ok (),w') ∧
      w'.Has (out ++ (crlf ++ data)) (some status) true := by
  obtain ⟨w₁,hw₁,h₁⟩ := run_write h crlf
  have h₁' : Has (out ++ crlf) (some status) true { w₁ with sendingData := true } :=
    ⟨h₁.plan,h₁.output,h₁.status_eq,rfl⟩
  obtain ⟨w₂,hw₂,h₂⟩ := run_write h₁' data
  refine ⟨w₂,?_,by simpa using h₂⟩
  rw [writeData,run_bind_ok (run_read _ _),h.sending_eq]
  simp only [Bool.not_false,if_true]
  rw [run_bind_ok (run_read _ _),h.status_eq,if_neg (by simp),run_bind_ok hw₁,
    run_bind_ok (run_modify _ _),hw₂]

theorem run_mustSend (h : w.Has out none false) (status : StatusCode) :
    ∃ w', (mustSend status).run w = (.ok (),w') ∧
      w'.Has (out ++ head status) (some status) false := by
  obtain ⟨w₁,hw₁,h₁⟩ := run_writeStatus h status
  obtain ⟨w₂,hw₂,h₂⟩ := run_flush h₁
  refine ⟨w₂,?_,h₂⟩
  rw [mustSend,run_bind_ok (run_read _ _),if_neg (by simp [h.status_eq])]
  exact run_tryCatch_ok (by rw [run_bind_ok hw₁,hw₂])

end SocketWriter

/-! ## Connections -/

namespace Conn

variable {σ α : Type}

def withStream (c : Conn σ) (f : Stream) : Conn σ :=
  { c with writer := { c.writer with stream := f } }

@[simp] theorem run_onStream (m : Exec Stream Exn α) (c : Conn σ) : (onStream m).run c =
    ((m.run c.writer.stream).1,c.withStream (m.run c.writer.stream).2) := rfl

@[simp] theorem run_onWriter (m : Exec SocketWriter Exn α) (c : Conn σ) : (onWriter m).run c =
    ((m.run c.writer).1,{ c with writer := (m.run c.writer).2 }) := rfl

theorem run_onWriter_ok {m : Exec SocketWriter Exn α} {c : Conn σ} {a : α} {w : SocketWriter}
    (h : m.run c.writer = (.ok a,w)) : (onWriter m).run c = (.ok a,{ c with writer := w }) := by
  rw [run_onWriter,h]

structure Replied (out : Bytes) (status : StatusCode) (app : σ) (c : Conn σ) : Prop where
  writer : ∃ sending, c.writer.Has out (some status) sending
  app_eq : c.app = app

theorem Replied.output_eq {out : Bytes} {status : StatusCode} {app : σ} {c : Conn σ}
    (h : c.Replied out status app) : c.output = out := by
  obtain ⟨⟨_,h⟩,-⟩ := h
  exact h.output

end Conn

def rescueStatus (e : Exn) : StatusCode :=
  if e.isJSONError then .badRequest else e.status.getD .internalServerError

section Handle

variable {σ : Type} {handler : Handler σ} {c c' : Conn σ} {out : Bytes}

theorem run_writeStatus_conn (h : c.writer.Has out none false) (status : StatusCode) :
    ∃ c', (Conn.onWriter (SocketWriter.writeStatus status)).run c = (.ok (),c') ∧
      c'.writer.Has (out ++ SocketWriter.head status) (some status) false ∧ c'.app = c.app := by
  obtain ⟨w,hw,h'⟩ := SocketWriter.run_writeStatus h status
  exact ⟨{ c with writer := w },Conn.run_onWriter_ok hw,h',rfl⟩

theorem run_rescue (h : c.writer.Has out none false) (e : Exn) :
    ∃ c', (rescue e).run c = (.ok (),c') ∧
      c'.Replied (out ++ SocketWriter.head (rescueStatus e)) (rescueStatus e) c.app := by
  have hr : rescue (σ:=σ) e = Conn.onWriter (SocketWriter.mustSend (rescueStatus e)) := by
    unfold rescue rescueStatus
    split
    · rfl
    · cases e.status <;> rfl
  obtain ⟨w,hw,h'⟩ := SocketWriter.run_mustSend h (rescueStatus e)
  exact ⟨{ c with writer := w },by rw [hr,Conn.run_onWriter_ok hw],⟨_,h'⟩,rfl⟩

/-- What was replied stays so when the writer is destroyed. -/
theorem run_destroyed {status : StatusCode} {app : σ} (h : c.Replied out status app) :
    ∃ c', (Conn.onWriter SocketWriter.flush).run c = (.ok (),c') ∧ c'.Replied out status app := by
  obtain ⟨⟨sd,hw⟩,ha⟩ := h
  obtain ⟨w,hf,h'⟩ := SocketWriter.run_flush hw
  exact ⟨{ c with writer := w },Conn.run_onWriter_ok hf,⟨sd,h'⟩,ha⟩

/-- An exception before anything was sent is answered with its status. -/
theorem handle_of_throw {e : Exn} (hs : (serve handler).run c = (.error (.throw e),c'))
    (h : c'.writer.Has out none false) : ∃ c'', (handle handler).run c = (.ok (),c'') ∧
      c''.Replied (out ++ SocketWriter.head (rescueStatus e)) (rescueStatus e) c'.app := by
  obtain ⟨d,hd,hr⟩ := run_rescue h e
  obtain ⟨c'',hc,h'⟩ := run_destroyed hr
  have ht : (Exec.tryCatch (serve handler) rescue).run c = (.ok (),d) := by
    rw [run_tryCatch_throw hs,hd]
  exact ⟨c'',by rw [handle,run_bind_ok ht,hc],h'⟩

theorem handle_of_stop {e : Stop Exn} (hs : (serve handler).run c = (.error e,c'))
    (he : ∀ x, e ≠ .throw x) : (handle handler).run c = (.error e,c') := by
  rw [handle,run_bind_error (run_tryCatch_stop hs he)]

/-- A handler that returns after a reply ends the exchange. -/
theorem handle_of_ok {req : Request} {f : Stream} {status : StatusCode} {app : σ}
    (hp : parseRequest.run c.writer.stream = (.ok req,f))
    (hh : (handler req).run (c.withStream f) = (.ok (),c')) (h : c'.Replied out status app) :
    ∃ c'', (handle handler).run c = (.ok (),c'') ∧ c''.Replied out status app := by
  obtain ⟨d,hflush,hd⟩ := run_destroyed h
  obtain ⟨c'',hc,h'⟩ := run_destroyed hd
  have hreq : (Conn.onStream parseRequest).run c = (.ok req,c.withStream f) := by
    rw [Conn.run_onStream,hp]
  have hs : (serve handler).run c = (.ok (),d) := by
    obtain ⟨⟨_,hw⟩,-⟩ := hd
    rw [serve,run_bind_ok hreq,run_bind_ok hh,run_bind_ok hflush,run_bind_ok (run_read _ _)]
    simp only [hw.status_eq]
    rfl
  exact ⟨c'',by rw [handle,run_bind_ok (run_tryCatch_ok hs),hc],h'⟩

theorem serve_of_error {req : Request} {f : Stream} {e : Stop Exn}
    (hp : parseRequest.run c.writer.stream = (.ok req,f))
    (hh : (handler req).run (c.withStream f) = (.error e,c')) :
    (serve handler).run c = (.error e,c') := by
  have hreq : (Conn.onStream parseRequest).run c = (.ok req,c.withStream f) := by
    rw [Conn.run_onStream,hp]
  rw [serve,run_bind_ok hreq,run_bind_error hh]

theorem serve_of_reject {f : Stream} {e : Stop Exn}
    (hp : parseRequest.run c.writer.stream = (.error e,f)) :
    (serve handler).run c = (.error e,c.withStream f) := by
  have hreq : (Conn.onStream parseRequest).run c = (.error e,c.withStream f) := by
    rw [Conn.run_onStream,hp]
  rw [serve,run_bind_error hreq]

end Handle

end Gabby.Http
