import Gabby.HttpReplies

/-! What reaches the client. A reply stands in the buffer of the stream behind the input that was
taken. It leaves when nothing is unread there; otherwise every flush of it fails. -/
namespace Gabby.Http

open Exec

/-! ## Writing reads nothing -/

section Writes

variable {f : Stream}

/-- Writing keeps what is read, however it ends. -/
abbrev Writes {α : Type} (f : Stream) (m : Exec SocketWriter Exn α) : Prop :=
  Keeps (fun w => f.Over w.stream) (fun _ => True) m

namespace SocketWriter

theorem writes_mark {g : SocketWriter → SocketWriter} (h : ∀ w, (g w).stream = w.stream) :
    Writes f (Exec.modify g) := keeps_modify fun w hw => by rwa [h]

theorem writes_flush : Writes f flush :=
  keeps_zoom (keeps_modify fun _ h => h.fflush) (fun _ h => h) fun _ _ _ h => h

theorem writes_write (s : Bytes) : Writes f (write s) := by
  unfold write
  split
  · exact keeps_pure _
  · have hs : Keeps f.Over (fun _ => True) (fwrite s) :=
      spec_step (fun _ h => h.fwrite s) (fun _ _ h _ => h.fwrite s)
        fun _ _ h _ => ⟨h.fwrite s,trivial⟩
    refine (keeps_zoom hs (fun _ h => h) fun _ _ _ h => h).bind fun n => ?_
    split
    · refine (keeps_read _).bind fun err => (keeps_read _).bind fun errno => ?_
      split <;> exact keeps_throw trivial
    · exact writes_mark fun _ => rfl

theorem writes_writeHeader (key value : Bytes) : Writes f (writeHeader key value) := by
  refine (keeps_read _).bind fun sending => ?_
  split
  · exact keeps_throw trivial
  · exact (writes_write _).bind fun _ => writes_mark fun _ => rfl

theorem writes_writeStatus (status : StatusCode) : Writes f (writeStatus status) := by
  refine (keeps_read _).bind fun sending => ?_
  split
  · exact keeps_throw trivial
  · exact (writes_write _).bind fun _ => (writes_writeHeader _ _).bind fun _ =>
      writes_mark fun _ => rfl

theorem writes_writeData (data : Bytes) : Writes f (writeData data) := by
  have htail : Writes f (write crlf >>= fun _ => (Exec.modify fun w : SocketWriter =>
      { w with sendingData := true }) >>= fun _ => write data) :=
    (writes_write _).bind fun _ => Keeps.bind (writes_mark fun _ => rfl) fun _ => writes_write data
  refine (keeps_read _).bind fun sending => ?_
  split
  · refine (keeps_read _).bind fun status => ?_
    split
    · exact (writes_writeStatus _).bind fun _ => htail
    · exact htail
  · exact writes_write _

theorem writes_mustSend (status : StatusCode) : Writes f (mustSend status) := by
  refine (keeps_read _).bind fun sent => ?_
  split
  · exact keeps_pure _
  · exact keeps_tryCatch ((writes_writeStatus _).bind fun _ => writes_flush) fun _ => keeps_pure _

end SocketWriter

/-! ## Connections -/

variable {σ : Type}

abbrev Conn.Writes {α : Type} (f : Stream) (m : Exec (Conn σ) Exn α) : Prop :=
  Keeps (fun c => f.Over c.writer.stream) (fun _ => True) m

theorem writes_onWriter {α : Type} {m : Exec SocketWriter Exn α} (h : Writes f m) :
    Conn.Writes f (Conn.onWriter m : Exec (Conn σ) Exn α) :=
  keeps_zoom h (fun _ h => h) fun _ _ _ h => h

theorem writes_rescue (e : Exn) : Conn.Writes f (rescue e : Exec (Conn σ) Exn Unit) := by
  unfold rescue
  refine writes_onWriter ?_
  split
  · exact SocketWriter.writes_mustSend _
  · split <;> exact SocketWriter.writes_mustSend _

/-- What is left of the `try` block once the request was taken from the stream. -/
theorem writes_reply {handler : Exec (Conn σ) Exn Unit} (h : Conn.Writes f handler) :
    Conn.Writes f (handler >>= fun _ => Conn.onWriter SocketWriter.flush >>= fun _ =>
      Exec.read (fun c : Conn σ => c.writer.status) >>= fun
        | some _ => pure ()
        | none => Exec.stop .undefined) := by
  refine h.bind fun _ => (writes_onWriter SocketWriter.writes_flush).bind fun _ =>
    (keeps_read _).bind fun status => ?_
  split
  · exact keeps_pure _
  · exact keeps_stop trivial

/-- When `Handle` returns, the whole reply has left if nothing is unread, and nothing else. -/
theorem delivered_handle {handler : Handler σ} {c c' c'' : Conn σ}
    {r : Except (Stop Exn) Unit} (hs : (serve handler).run c = (r,c'))
    (ho : f.Over c'.writer.stream) (h : (handle handler).run c = (.ok (),c'')) :
    f.Over c''.writer.stream ∧ c''.delivered = if f.unread then f.delivered else c''.output := by
  obtain ⟨⟨⟩,d,hd,hflush⟩ := run_bind_eq_ok.mp h
  have hover : f.Over d.writer.stream := by
    rcases r with e | u
    · by_cases he : ∃ x, e = .throw x
      · obtain ⟨x,rfl⟩ := he
        rw [run_tryCatch_throw hs] at hd
        have := (writes_rescue (f:=f) x).final ho
        rwa [hd] at this
      · rw [run_tryCatch_stop hs fun x hx => he ⟨x,hx⟩] at hd
        cases hd
    · rw [run_tryCatch_ok hs] at hd
      cases hd
      exact ho
  obtain rfl : d.withStream d.writer.stream.fflush = c'' := congrArg Prod.snd hflush
  have hout : (d.withStream d.writer.stream.fflush).output = d.writer.stream.output :=
    Stream.fflush_output _
  rw [hout]
  exact ⟨hover.fflush,hover.delivered_fflush⟩

end Writes
end Gabby.Http
