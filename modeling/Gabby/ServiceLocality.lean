import Gabby.JsonFraming
import Gabby.ServiceReplies

/-! What a reply depends on: the head of the request and as many bytes of the body as its
length header announces. What a client sends after them, and when, decides only whether the reply
leaves the buffer. -/
namespace Gabby.Service

open Exec Http Json

/-- The replies to two clients are the same: how the handler ends, what it wrote, and what the
generator was asked. -/
structure SameReply (r r' : Except (Stop Exn) Unit × Conn Asked) : Prop where
  outcome : r.1 = r'.1
  output : r.2.output = r'.2.output
  asked : r.2.app = r'.2.app

/-- The reply to a client has left when the handler returns, or nothing has when bytes after the
request were read with it. -/
def LeavesUnlessUnread (env : Env) (f : Stream) : Prop :=
  ∀ c, (handle env).run (accept f) = (.ok (),c) →
    c.delivered = if (consumed f).unread then [] else c.output

/-- A generator that fails was asked all the same. -/
theorem run_chatCompletions_asked {env : Env} {req : Request} {c : Conn Asked} {q : Question}
    {x : Exn} (hq : asks req c.writer.stream = .ok q) (hx : env.generate q = .error x)
    (h : c.writer.Has [] none false) : ∃ c', (chatCompletions env req).run c =
      (.error (.throw x),c') ∧ c'.writer.Has [] none false ∧ c'.app = c.app ++ [q] := by
  have hrun := run_chatCompletions env req c
  have hg := run_generate env q (c.withStream (bodyRead req c.writer.stream))
  rw [hx] at hg
  simp only [hq] at hrun
  exact ⟨_,hrun.trans (run_bind_error hg),h.onStream (bodyRead_unsent _ _),rfl⟩

section Local

variable {env : Env} {f g f' g' : Stream} {req : Request}

theorem sameReply_of_replied {c c' : Conn Asked} {out : Bytes} {status : StatusCode} {app : Asked}
    (hc : (handle env).run (accept f) = (.ok (),c)) (h : c.Replied out status app)
    (hc' : (handle env).run (accept g) = (.ok (),c')) (h' : c'.Replied out status app) :
    SameReply ((handle env).run (accept f)) ((handle env).run (accept g)) := by
  rw [hc,hc']
  exact ⟨rfl,h.output_eq.trans h'.output_eq.symm,h.app_eq.trans h'.app_eq.symm⟩

theorem sameReply_of_error {e : Stop Exn} {c c' : Conn Asked}
    (hs : (serve (Router.handle (routes env))).run (accept f) = (.error e,c))
    (hs' : (serve (Router.handle (routes env))).run (accept g) = (.error e,c'))
    (hw : c.writer.Has [] none false) (hw' : c'.writer.Has [] none false)
    (happ : c.app = c'.app) :
    SameReply ((handle env).run (accept f)) ((handle env).run (accept g)) := by
  by_cases he : ∃ x, e = .throw x
  · obtain ⟨x,rfl⟩ := he
    obtain ⟨d,hd,hr⟩ := handle_of_throw hs hw
    obtain ⟨d',hd',hr'⟩ := handle_of_throw hs' hw'
    rw [← happ] at hr'
    exact sameReply_of_replied hd hr hd' hr'
  · have hstop : ∀ x, e ≠ .throw x := fun x hx => he ⟨x,hx⟩
    rw [handle,handle_of_stop hs hstop,handle_of_stop hs' hstop]
    exact ⟨rfl,hw.output.trans hw'.output.symm,happ⟩

variable (hf : f.plan = [] ∧ f.sent = []) (hg : g.plan = [] ∧ g.sent = [])
  (hp : parseRequest.run f = (.ok req,f')) (hq : parseRequest.run g = (.ok req,g'))
include hf hg hp hq

theorem sameReply_of_asks (hpath : req.path = ascii "/v1/chat/completions")
    (hasks : asks req f' = asks req g') :
    SameReply ((handle env).run (accept f)) ((handle env).run (accept g)) := by
  have hroute := handle_routes_chat env hpath
  have hw := hasAccepted (has_accept f hf.1 hf.2) hp
  have hw' := hasAccepted (has_accept g hg.1 hg.2) hq
  cases ha : asks req f' with
  | error e =>
    obtain ⟨c,hc,hcw,happ⟩ := run_chatCompletions_error env (c:=(accept f).withStream f') ha hw
    obtain ⟨c',hc',hcw',happ'⟩ :=
      run_chatCompletions_error env (c:=(accept g).withStream g') (hasks ▸ ha) hw'
    rw [← hroute] at hc hc'
    exact sameReply_of_error (serve_of_error (c:=accept f) hp hc)
      (serve_of_error (c:=accept g) hq hc') hcw hcw' (happ.trans happ'.symm)
  | ok q =>
    cases hm : env.generate q with
    | error x =>
      obtain ⟨c,hc,hcw,happ⟩ := run_chatCompletions_asked (c:=(accept f).withStream f') ha hm hw
      obtain ⟨c',hc',hcw',happ'⟩ :=
        run_chatCompletions_asked (c:=(accept g).withStream g') (hasks ▸ ha) hm hw'
      rw [← hroute] at hc hc'
      exact sameReply_of_error (serve_of_error (c:=accept f) hp hc)
        (serve_of_error (c:=accept g) hq hc') hcw hcw' (happ.trans happ'.symm)
    | ok m =>
      obtain ⟨c,hc,hr⟩ := run_chatCompletions_ok (c:=(accept f).withStream f') ha hm hw
      obtain ⟨c',hc',hr'⟩ :=
        run_chatCompletions_ok (c:=(accept g).withStream g') (hasks ▸ ha) hm hw'
      rw [← hroute] at hc hc'
      obtain ⟨d,hd,hrd⟩ := handle_of_ok (c:=accept f) hp hc hr
      obtain ⟨d',hd',hrd'⟩ := handle_of_ok (c:=accept g) hq hc' hr'
      exact sameReply_of_replied hd hrd hd' hrd'

theorem sameReply_of_status {status : StatusCode} (hr : Router.handle (routes env) req =
      Conn.onWriter (SocketWriter.writeStatus status)) :
    SameReply ((handle env).run (accept f)) ((handle env).run (accept g)) := by
  obtain ⟨c,hc,hcw,happ⟩ := run_writeStatus_conn
    (hasAccepted (has_accept f hf.1 hf.2) hp) status
  obtain ⟨c',hc',hcw',happ'⟩ := run_writeStatus_conn
    (hasAccepted (has_accept g hg.1 hg.2) hq) status
  rw [← hr] at hc hc'
  obtain ⟨d,hd,hrd⟩ := handle_of_ok (c:=accept f) hp hc ⟨⟨_,hcw⟩,happ⟩
  obtain ⟨d',hd',hrd'⟩ := handle_of_ok (c:=accept g) hq hc' ⟨⟨_,hcw'⟩,happ'⟩
  exact sameReply_of_replied hd hrd hd' hrd'

theorem sameReply_of_agree
    (hbody : ∀ n, getIntHeader req (ascii "Content-Length") = .ok n →
      Scanner.Agree n.toNat f' g') :
    SameReply ((handle env).run (accept f)) ((handle env).run (accept g)) := by
  have hroute := handle_routes env req
  split_ifs at hroute with hz hchat
  · exact sameReply_of_status hf hg hp hq hroute
  · refine sameReply_of_asks hf hg hp hq hchat ?_
    unfold asks
    cases checkMethod [.post] req.method with
    | error e => simp only [Except.mapError,error_bind]
    | ok u =>
      simp only [Except.mapError,ok_bind]
      cases hn : getIntHeader req (ascii "Content-Length") with
      | error e => simp only [error_bind]
      | ok n =>
        have hrun : ∀ f, ((Json.parse n).run f).1 = (parseRun f n).outcome := fun _ => rfl
        simp only [ok_bind,hrun,(parseRun_agree (hbody n hn)).1]
  · exact sameReply_of_status hf hg hp hq hroute

end Local

/-- A chat request whose head announces two bytes, and what comes after the head. -/
def twoBytes (rest : Bytes) : Bytes :=
  lines [ascii "POST /v1/chat/completions HTTP/1.1",ascii "Content-Length: 2"] ++ (crlf ++ rest)

theorem parseRequest_twoBytes {f : Stream} (herr : f.err = false) (heof : f.eof = false)
    (rest : Bytes) : parseRequest.run (f.holding (twoBytes rest)) =
      (.ok ⟨.post,ascii "/v1/chat/completions",[(ascii "Content-Length",ascii "2")]⟩,
        f.holding rest) := by
  have hl : LineText (ascii "POST /v1/chat/completions HTTP/1.1") :=
    ⟨by decide,by decide,by decide⟩
  have hr : RequestLine (ascii "POST /v1/chat/completions HTTP/1.1") .post
      (ascii "/v1/chat/completions") := ⟨ascii "HTTP/1.1",by decide,by decide⟩
  have hh : HeaderLines [ascii "Content-Length: 2"] [(ascii "Content-Length",ascii "2")] :=
    .cons ⟨⟨by decide,by decide,by decide⟩,⟨by decide,by decide +kernel⟩⟩ .nil
  exact run_parseRequest_ok herr heof hl hr hh rest

/-- A client that goes on with another request, which is read with the first one. -/
def pipelined : Stream := (Stream.ofInput [] .eof).holding (twoBytes (ascii "\x7b\x7dGET"))

/-- A client that waits for the reply. -/
def waiting : Stream :=
  (Stream.ofInput [] (.fail EAGAIN)).holding (twoBytes (ascii "\x7b\x7d"))

/-- The same reply, and only the second client gets it. -/
example : (consumed pipelined).unread = true ∧ (consumed waiting).unread = false := by
  decide +kernel

end Gabby.Service
