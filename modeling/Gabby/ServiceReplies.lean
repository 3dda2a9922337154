import Gabby.Service
import Gabby.HttpDelivery
import Gabby.HttpGrammar
import Gabby.ServiceMessages

/-! What the service replies: the status of every reply, its bytes, and what the generator is
asked. -/
namespace Gabby.Service

open Exec Http
open Gabby.Stream (Unsent)

/-! ## The steps of a chat completion -/

/-- What `ChatCompletions` takes from a request before it asks the generator. -/
def asks (req : Request) (f : Stream) : Except (Stop Exn) Question := do
  (checkMethod [.post] req.method).mapError .throw
  let n ← (getIntHeader req (ascii "Content-Length")).mapError .throw
  let v ← ((Json.parse n).run f).1
  (extractRequest v).mapError .throw

/-- The stream after the body of a chat completion was read, if it comes to that. -/
def bodyRead (req : Request) (f : Stream) : Stream :=
  match checkMethod [.post] req.method, getIntHeader req (ascii "Content-Length") with
  | .ok _, .ok n => ((Json.parse n).run f).2
  | _, _ => f

theorem bodyRead_unsent (req : Request) (f : Stream) : f.Unsent (bodyRead req f) := by
  unfold bodyRead
  split
  · exact Json.parse_unsent f _
  · exact .refl f

def responseText (env : Env) (answer : Message) : Bytes :=
  (env.enumerate (.object (stub [choice answer]))).toString

def answering (env : Env) (question : Question) : Exec (Conn Asked) Exn Unit := do
  let answer ← generate env question
  let jsonResp ← ofResult (makeResponse answer)
  Conn.onWriter (SocketWriter.writeStatus .ok)
  Conn.onWriter (SocketWriter.writeData (env.enumerate jsonResp).toString)

section ChatCompletions

variable {env : Env} {req : Request} {c : Conn Asked}

theorem run_ofExcept {σ α : Type} (x : Except Exn α) (s : σ) :
    (ofExcept x : Exec σ Exn α).run s = (x.mapError .throw,s) := by
  cases x <;> rfl

/-- The question is asked, or the exception of the first step that fails propagates. -/
theorem run_chatCompletions (env : Env) (req : Request) (c : Conn Asked) :
    (chatCompletions env req).run c =
      match asks req c.writer.stream with
      | .error e => (.error e,c.withStream (bodyRead req c.writer.stream))
      | .ok question => (answering env question).run
          (c.withStream (bodyRead req c.writer.stream)) := by
  unfold chatCompletions asks bodyRead
  cases hm : checkMethod [.post] req.method with
  | error e => exact run_bind_error (run_ofExcept _ _)
  | ok u =>
  rw [run_bind_ok (run_ofExcept _ _)]
  cases hn : getIntHeader req (ascii "Content-Length") with
  | error e => exact run_bind_error (run_ofExcept _ _)
  | ok n =>
  rw [run_bind_ok (run_ofExcept _ _)]
  have hparse := Conn.run_onStream (Json.parse n) c
  simp only [Except.mapError,ok_bind]
  generalize (Json.parse n).run c.writer.stream = r at hparse
  rcases r with ⟨e | v,f⟩
  · exact run_bind_error hparse
  rw [run_bind_ok hparse,ok_bind]
  cases hv : extractRequest v with
  | error e => exact run_bind_error (run_ofExcept _ _)
  | ok question => exact run_bind_ok (run_ofExcept _ _)

variable {question : Question} {answer : Message} {out : Bytes}

theorem run_generate (env : Env) (question : Question) (c : Conn Asked) :
    (generate env question).run c = ((env.generate question).mapError .throw,
      { c with app := c.app ++ [question] }) := by
  rw [generate,run_bind_ok (run_modify _ _),run_ofExcept]

theorem run_chatCompletions_ok (hq : asks req c.writer.stream = .ok question)
    (hm : env.generate question = .ok answer) (h : c.writer.Has out none false) :
    ∃ c', (chatCompletions env req).run c = (.ok (),c') ∧
      c'.Replied (out ++ SocketWriter.head .ok ++ (crlf ++ responseText env answer)) .ok
        (c.app ++ [question]) := by
  have hrun := run_chatCompletions env req c
  have hf := bodyRead_unsent req c.writer.stream
  have hg := run_generate env question (c.withStream (bodyRead req c.writer.stream))
  rw [hm] at hg
  obtain ⟨w₁,hw₁,h₁⟩ := SocketWriter.run_writeStatus (h.onStream hf) .ok
  obtain ⟨w₂,hw₂,h₂⟩ := SocketWriter.run_writeData h₁ (responseText env answer)
  refine ⟨⟨w₂,c.app ++ [question]⟩,?_,⟨true,h₂⟩,rfl⟩
  simp only [hrun,hq,answering]
  rw [run_bind_ok hg,makeResponse_eq,ofResult,run_bind_ok (run_pure _ _),
    run_bind_ok (Conn.run_onWriter_ok hw₁),Conn.run_onWriter_ok hw₂]
  rfl

theorem run_chatCompletions_error (env : Env) {e : Stop Exn}
    (hq : asks req c.writer.stream = .error e) (h : c.writer.Has out none false) :
    ∃ c', (chatCompletions env req).run c = (.error e,c') ∧
      c'.writer.Has out none false ∧ c'.app = c.app := by
  have hrun := run_chatCompletions env req c
  simp only [hq] at hrun
  exact ⟨_,hrun,h.onStream (bodyRead_unsent _ _),rfl⟩

theorem run_chatCompletions_throw {e : Exn} (hq : asks req c.writer.stream = .ok question)
    (he : env.generate question = .error e) (h : c.writer.Has out none false) :
    ∃ c', (chatCompletions env req).run c = (.error (.throw e),c') ∧
      c'.writer.Has out none false := by
  have hrun := run_chatCompletions env req c
  have hg := run_generate env question (c.withStream (bodyRead req c.writer.stream))
  rw [he] at hg
  simp only [hq] at hrun
  exact ⟨_,hrun.trans (run_bind_error hg),h.onStream (bodyRead_unsent _ _)⟩

end ChatCompletions

theorem blames_getIntHeader (req : Request) (key : Bytes) : Blames (getIntHeader req key) := by
  refine Blames.bind ?_ fun value => ?_
  · unfold getHeader
    split
    · exact blames_error rfl
    · exact blames_ok _
  · cases stoi value with
    | some n => exact blames_ok _
    | none => exact blames_error rfl

theorem asks_of_ne_post {req : Request} (h : req.method ≠ .post) (f : Stream) :
    asks req f = .error (.throw .notFoundError) := by
  have hc : checkMethod [.post] req.method = .error .notFoundError := by simp [checkMethod,h]
  rw [asks,hc]
  rfl

/-- On a stream that cannot fail the steps fail with the client's errors only. -/
theorem asks_blames {req : Request} (h : req.method = .post) {f : Stream} {e : Stop Exn}
    (hend : f.ending = .eof) (hbytes : ∀ i ∈ f.pending, ∃ b, i = .byte b)
    (he : asks req f = .error e) : ∃ x, e = .throw x ∧ rescueStatus x = .badRequest := by
  have hc : checkMethod [.post] req.method = .ok () := by simp [checkMethod,h]
  rw [asks,hc,Except.mapError,ok_bind] at he
  cases hn : getIntHeader req (ascii "Content-Length") with
  | error x =>
    rw [hn] at he
    cases he
    exact ⟨x,rfl,blames_getIntHeader req _ x hn⟩
  | ok n =>
    rw [hn,Except.mapError,ok_bind] at he
    cases hv : ((Json.parse n).run f).1 with
    | error y =>
      rw [hv,error_bind] at he
      cases he
      obtain ⟨w,rfl⟩ := Json.parseRun_fails hend hbytes
        (show (Json.parseRun _ n).outcome = _ from hv)
      exact ⟨_,rfl,rfl⟩
    | ok v =>
      rw [hv,ok_bind] at he
      cases hq : extractRequest v with
      | error x =>
        rw [hq] at he
        cases he
        have hfew := fewMessages_of_parse (getIntHeader_lt hn)
          (show (Json.parseRun _ n).outcome = _ from hv)
        exact ⟨x,rfl,blames_extractRequest hfew x hq⟩
      | ok q =>
        rw [hq] at he
        cases he

/-! ## The status law -/

def question (req : Request) (f : Stream) : Option Question := do
  let value ← req.headers.find (ascii "Content-Length")
  let n ← stoi value
  let v ← ((Json.parse n).run f).1.toOption
  (extractRequest v).toOption

/-- The status a client should get, and what the generator should be asked. -/
def expected (f : Stream) : StatusCode × Option Question :=
  match parseRequest.run f with
  | (.error _,_) => (.badRequest,none)
  | (.ok req,g) =>
    if req.path = ascii "/healthz" then (.ok,none)
    else if req.path ≠ ascii "/v1/chat/completions" then (.notFound,none)
    else if req.method ≠ .post then (.notFound,none)
    else match question req g with
      | none => (.badRequest,none)
      | some q => (.ok,some q)

theorem toOption_asks {req : Request} (h : req.method = .post) (f : Stream) :
    (asks req f).toOption = question req f := by
  have hc : checkMethod [.post] req.method = .ok () := by simp [checkMethod,h]
  rw [asks,hc,Except.mapError,ok_bind,question,getIntHeader,getHeader]
  cases req.headers.find (ascii "Content-Length") with
  | none => rfl
  | some value =>
    simp only [ok_bind,Option.bind_eq_bind,Option.bind_some]
    cases stoi value with
    | none => rfl
    | some n =>
      simp only [Except.mapError,ok_bind,Option.bind_some]
      cases ((Json.parse n).run f).1 with
      | error e => rfl
      | ok v =>
        simp only [ok_bind,Except.toOption,Option.bind_some]
        cases extractRequest v <;> rfl

theorem handle_routes (env : Env) (req : Request) : Router.handle (routes env) req =
    if req.path = ascii "/healthz" then healthCheck req
    else if req.path = ascii "/v1/chat/completions" then chatCompletions env req
    else Conn.onWriter (SocketWriter.writeStatus .notFound) := by
  simp only [routes,Router.route,Router.handle,Router.rmatch_regex]

theorem handle_routes_chat (env : Env) {req : Request}
    (h : req.path = ascii "/v1/chat/completions") :
    Router.handle (routes env) req = chatCompletions env req := by
  rw [handle_routes,if_neg (by rw [h]; decide +kernel),if_pos h]

theorem has_accept (f : Stream) (hp : f.plan = []) (hs : f.sent = []) :
    (accept f).writer.Has [] none false :=
  ⟨hp,by simp [accept,SocketWriter.init,Stream.output,hs],rfl,rfl⟩

/-- The service replies with this status and asks the generator this question, if any: the
status line and one header are written, and an answer follows an empty line. -/
structure Answers (env : Env) (f : Stream) (status : StatusCode) (asked : Option Question)
    (c : Conn Asked) (body : Bytes) : Prop where
  run : (handle env).run (accept f) = (.ok (),c)
  output : c.output = SocketWriter.statusLine status ++ crlf ++
    (ascii "Connection: close" ++ crlf) ++ body
  body_eq : match asked with
    | none => body = []
    | some q => ∃ m v, env.generate q = .ok m ∧ makeResponse m = .ok v ∧
      body = crlf ++ (env.enumerate v).toString
  asked_eq : c.app = asked.toList

theorem output_head {c : Conn Asked} {status : StatusCode} {body : Bytes} {app : Asked}
    (h : c.Replied (SocketWriter.head status ++ body) status app) :
    c.output = SocketWriter.statusLine status ++ crlf ++ (ascii "Connection: close" ++ crlf) ++
      body := by
  rw [h.output_eq]
  simp [SocketWriter.head]

theorem answers_status {env : Env} {f : Stream} {status : StatusCode}
    (h : ∃ c, (handle env).run (accept f) = (.ok (),c) ∧
      c.Replied (SocketWriter.head status) status []) :
    ∃ c body, Answers env f status none c body := by
  obtain ⟨c,hc,hr⟩ := h
  exact ⟨c,[],hc,output_head (by simpa using hr),rfl,hr.app_eq⟩

section StatusLaw

variable {env : Env} {f f' : Stream} {req : Request}
  (hf : (accept f).writer.Has [] none false) (hp : parseRequest.run f = (.ok req,f'))
include hf hp

theorem hasAccepted : ((accept f).withStream f').writer.Has [] none false := by
  have hu := parseRequest_unsent f
  rw [hp] at hu
  exact hf.onStream hu

theorem answers_writeStatus {status : StatusCode}
    (hr : Router.handle (routes env) req = Conn.onWriter (SocketWriter.writeStatus status)) :
    ∃ c body, Answers env f status none c body := by
  obtain ⟨c,hc,hw,ha⟩ := run_writeStatus_conn (hasAccepted hf hp) status
  exact answers_status (handle_of_ok (c:=accept f) hp (by rw [hr]; exact hc) ⟨⟨_,hw⟩,ha⟩)

variable (hr : Router.handle (routes env) req = chatCompletions env req)
include hr

theorem replied_throw {x : Exn} (hx : asks req f' = .error (.throw x)) :
    ∃ c, (handle env).run (accept f) = (.ok (),c) ∧
      c.Replied (SocketWriter.head (rescueStatus x)) (rescueStatus x) [] := by
  obtain ⟨c',hc',hw',ha⟩ :=
    run_chatCompletions_error env (c:=(accept f).withStream f') hx (hasAccepted hf hp)
  rw [← hr] at hc'
  have h := handle_of_throw (serve_of_error (c:=accept f) hp hc') hw'
  rw [ha] at h
  exact h

theorem answers_throw {x : Exn} (hx : asks req f' = .error (.throw x)) :
    ∃ c body, Answers env f (rescueStatus x) none c body :=
  answers_status (replied_throw hf hp hr hx)

theorem answers_completion {q : Question} {m : Message} (hq : asks req f' = .ok q)
    (hm : env.generate q = .ok m) : ∃ c body, Answers env f .ok (some q) c body := by
  obtain ⟨c',hc',hr'⟩ :=
    run_chatCompletions_ok (c:=(accept f).withStream f') hq hm (hasAccepted hf hp)
  rw [← hr] at hc'
  obtain ⟨c,hc,hr⟩ := handle_of_ok (c:=accept f) hp hc' hr'
  rw [List.nil_append] at hr
  exact ⟨c,crlf ++ responseText env m,hc,output_head hr,⟨m,_,hm,makeResponse_eq m,rfl⟩,hr.app_eq⟩

end StatusLaw

theorem expected_ne (f : Stream) :
    (expected f).1 ≠ .internalServerError ∧ (expected f).1 ≠ .requestTimeout := by
  unfold expected
  split
  · simp
  · repeat' split
    all_goals simp

/-- One status line is written for any request, with the expected status; the generator is asked
in a successful chat completion and never else. -/
theorem answers_expected {env : Env} (hgen : ∀ q, ∃ m, env.generate q = .ok m)
    {chunks : List Bytes} (hb : NoNulInHead chunks.flatten) : ∃ c body,
      Answers env (.ofReads chunks) (expected (.ofReads chunks)).1 (expected (.ofReads chunks)).2
        c body := by
  obtain ⟨g,hg⟩ : ∃ g, (Stream.ofInput [] .eof).cutAt (Stream.ends chunks) = g := ⟨_,rfl⟩
  have hof : Stream.ofReads chunks = g.holding chunks.flatten := by
    rw [← hg]
    rfl
  have hend : g.ending = .eof := by rw [← hg]; rfl
  have hf : (accept (g.holding chunks.flatten)).writer.Has [] none false :=
    has_accept _ (by rw [← hg]; rfl) (by rw [← hg]; rfl)
  have herr : g.err = false := by rw [← hg]; rfl
  have heof : g.eof = false := by rw [← hg]; rfl
  rw [hof]
  unfold expected
  rcases parseRequest_holding herr heof hend (not_aborts hb) with ⟨req,rest,hp⟩ | ⟨m,s,hp⟩
  · have hroute := handle_routes env req
    simp only [hp]
    split
    · rename_i hz
      rw [if_pos hz] at hroute
      exact answers_writeStatus hf hp hroute
    rename_i hz
    rw [if_neg hz] at hroute
    split
    · rename_i hpath
      rw [if_neg hpath] at hroute
      exact answers_writeStatus hf hp hroute
    rename_i hpath
    rw [if_pos (not_not.mp hpath)] at hroute
    split
    · rename_i hm
      exact answers_throw hf hp hroute (asks_of_ne_post hm _)
    rename_i hm
    rw [← toOption_asks (not_not.mp hm)]
    cases hq : asks req (g.holding rest) with
    | error e =>
      obtain ⟨x,rfl,hx⟩ := asks_blames (f:=g.holding rest) (not_not.mp hm) hend
        (by simp [Stream.holding]) hq
      have := answers_throw hf hp hroute hq
      rw [hx] at this
      exact this
    | ok q =>
      obtain ⟨m,hm⟩ := hgen q
      exact answers_completion hf hp hroute hq hm
  · have hu := parseRequest_unsent (g.holding chunks.flatten)
    rw [hp] at hu
    simp only [hp]
    exact answers_status (handle_of_throw (serve_of_reject (c:=accept (g.holding _)) hp)
      (hf.onStream hu))

/-! ## What reaches the client -/

/-- The stream when the service replies: the head of the request was read, and the body of a
chat completion. -/
def consumed (f : Stream) : Stream :=
  match parseRequest.run f with
  | (.error _,g) => g
  | (.ok req,g) => if req.path = ascii "/v1/chat/completions" then bodyRead req g else g

/-- A body that is accepted and no longer than its length header says is taken to its end. -/
theorem unread_bodyRead {req : Request} {f : Stream} {n : ℤ} {q : Question}
    (hn : getIntHeader req (ascii "Content-Length") = .ok n)
    (hlen : (Stream.bytesOf f.pending).length ≤ n) (hq : asks req f = .ok q) :
    (bodyRead req f).unread = false := by
  unfold asks at hq
  unfold bodyRead
  cases hc : checkMethod [.post] req.method with
  | error e =>
    rw [hc] at hq
    cases hq
  | ok u =>
    rw [hc,hn,Except.mapError,ok_bind,Except.mapError,ok_bind] at hq
    rw [hn]
    cases hv : (Json.parseRun f n).outcome with
    | error e =>
      rw [show ((Json.parse n).run f).1 = _ from hv] at hq
      cases hq
    | ok v =>
      have htaken := Json.taken_of_ok hv
      rw [Json.taken] at htaken
      have hend : (Stream.bytesOf (Json.parseRun f n).final.scan.f.pending).length = 0 := by omega
      exact Stream.unread_of_bytesOf (List.length_eq_zero_iff.mp hend)

/-- A request leaves nothing unread when it ends with its head, or with a body that is accepted
and as long as its head says. -/
theorem unread_consumed {req : Request} {f g : Stream} (hp : parseRequest.run f = (.ok req,g))
    (hbody : if req.path = ascii "/v1/chat/completions" then ∃ n q,
        getIntHeader req (ascii "Content-Length") = .ok n ∧
          (Stream.bytesOf g.pending).length ≤ n ∧ asks req g = .ok q
      else Stream.bytesOf g.pending = []) : (consumed f).unread = false := by
  rw [consumed,hp]
  dsimp only
  split_ifs at hbody ⊢
  · obtain ⟨n,q,hn,hlen,hq⟩ := hbody
    exact unread_bodyRead hn hlen hq
  · exact Stream.unread_of_bytesOf hbody

section Delivery

variable {env : Env} {f : Stream} {c : Conn Asked}

theorem writes_writeStatus (status : StatusCode) :
    Conn.Writes f (Conn.onWriter (SocketWriter.writeStatus status) : Exec (Conn Asked) Exn Unit) :=
  writes_onWriter (SocketWriter.writes_writeStatus status)

theorem writes_ofExcept {α : Type} (x : Except Exn α) :
    Conn.Writes f (ofExcept x : Exec (Conn Asked) Exn α) := by
  cases x with
  | ok a => exact keeps_pure a
  | error e => exact keeps_throw trivial

theorem writes_answering (question : Question) : Conn.Writes f (answering env question) := by
  refine Keeps.bind (Keeps.bind (keeps_modify fun _ h => h) fun _ => writes_ofExcept _)
    fun answer => Keeps.bind ?_ fun v => ?_
  · cases makeResponse answer with
    | ok v => exact keeps_pure v
    | error e => exact keeps_stop trivial
  · exact (writes_writeStatus _).bind fun _ =>
      writes_onWriter (SocketWriter.writes_writeData _)

/-- Once the request was taken from the stream, nothing more is. -/
theorem over_handler (req : Request) (c : Conn Asked) :
    (if req.path = ascii "/v1/chat/completions" then bodyRead req c.writer.stream
      else c.writer.stream).Over ((Router.handle (routes env) req).run c).2.writer.stream := by
  by_cases hchat : req.path = ascii "/v1/chat/completions"
  · rw [if_pos hchat,handle_routes_chat env hchat,run_chatCompletions]
    cases asks req c.writer.stream with
    | error e => exact .refl _
    | ok q =>
      exact (writes_answering (f:=bodyRead req c.writer.stream) q).final (.refl _)
  · rw [if_neg hchat,handle_routes,if_neg hchat]
    split <;> exact (writes_writeStatus (f:=c.writer.stream) _).final (.refl _)

theorem over_serve (env : Env) (f : Stream) : (consumed f).Over
    ((serve (Router.handle (routes env))).run (accept f)).2.writer.stream := by
  have hreq := Conn.run_onStream parseRequest (accept f)
  unfold consumed
  rcases hp : parseRequest.run f with ⟨e | req,g⟩
  · rw [serve_of_reject (c:=accept f) hp]
    exact .refl g
  · have hh := @over_handler env req ((accept f).withStream g)
    rw [show (accept f).writer.stream = f from rfl,hp] at hreq
    rw [serve,run_bind_ok hreq]
    rcases hr : (Router.handle (routes env) req).run ((accept f).withStream g) with ⟨e | u,c⟩
    · rw [run_bind_error hr]
      rwa [hr] at hh
    · rw [run_bind_ok hr]
      rw [hr] at hh
      exact (writes_reply (keeps_pure ())).final hh

/-- When the service is done with a client, its reply has left if the last read of the request
brought in nothing more, and nothing has left otherwise. -/
theorem delivered_of_done (hd : f.delivered = []) (h : (handle env).run (accept f) = (.ok (),c)) :
    c.delivered = if (consumed f).unread then [] else c.output := by
  have hconsumed : (consumed f).delivered = [] := by
    have hu := parseRequest_unsent f
    unfold consumed
    rcases hp : parseRequest.run f with ⟨e | req,g⟩
    · rw [hp] at hu
      exact hu.delivered.trans hd
    · rw [hp] at hu
      dsimp only
      split
      · exact (bodyRead_unsent req g).delivered.trans (hu.delivered.trans hd)
      · exact hu.delivered.trans hd
  rw [(delivered_handle (Prod.ext rfl rfl) (over_serve env f) h).2,hconsumed]

end Delivery

/-- The reply to these bytes reaches the client: one status line, with the expected status, and
the generator was asked the expected question, if any. No client is told of an internal error or
of a timeout. -/
def StatusLaw (env : Env) (f : Stream) : Prop :=
  (∃ c body, Answers env f (expected f).1 (expected f).2 c body ∧ c.delivered = c.output) ∧
    (expected f).1 ≠ .internalServerError ∧ (expected f).1 ≠ .requestTimeout

theorem Answers.output_ne_nil {env : Env} {f : Stream} {status : StatusCode}
    {asked : Option Question} {c : Conn Asked} {body : Bytes}
    (h : Answers env f status asked c body) : c.output ≠ [] := by
  rw [h.output]
  simp [SocketWriter.statusLine,ascii]

/-- The expected status reaches the client exactly when the read that brought in the last byte
that the service takes brought in none after it. -/
theorem handle_status_iff (env : Env) (hgen : ∀ q, ∃ m, env.generate q = .ok m)
    {chunks : List Bytes} (hb : NoNulInHead chunks.flatten) :
    StatusLaw env (.ofReads chunks) ↔ (consumed (.ofReads chunks)).unread = false := by
  obtain ⟨c,body,ha⟩ := answers_expected hgen hb
  have hdel := delivered_of_done rfl ha.run
  constructor
  · rintro ⟨⟨c',body',ha',hd'⟩,-⟩
    obtain rfl : c' = c := by
      have := ha'.run.symm.trans ha.run
      simpa using this
    by_contra hu
    rw [Bool.not_eq_false] at hu
    rw [hu,if_pos rfl,hd'] at hdel
    exact ha.output_ne_nil hdel
  · intro hu
    rw [hu] at hdel
    exact ⟨⟨c,body,ha,hdel⟩,expected_ne _⟩

def constant : Env := ⟨fun _ => .ok ⟨ascii "assistant",ascii "hi"⟩,id⟩

theorem noNulInHead_of_not_mem {b : Bytes} (h : 0 ∉ b) : NoNulInHead b := by
  rintro u w rfl
  simp at h

def probe : Bytes := ascii "GET /healthz HTTP/1.1\r\n\r\n"

theorem handle_status_iff_probe : StatusLaw constant (.ofReads [probe]) ↔
    (consumed (.ofReads [probe])).unread = false :=
  handle_status_iff constant (fun _ => ⟨_,rfl⟩) (noNulInHead_of_not_mem (by decide))

def putRequest : Bytes := ascii "PUT / HTTP/1.1\r\n\r\n"

/-- It is not answered when it comes in one piece: the empty line is left in the buffer. -/
theorem not_statusLaw : ¬ ∀ (env : Env), (∀ q, ∃ m, env.generate q = .ok m) →
    ∀ chunks : List Bytes, NoNulInHead chunks.flatten → StatusLaw env (.ofReads chunks) := by
  intro h
  obtain ⟨⟨c,body,ha,hd⟩,-⟩ := h constant (fun _ => ⟨_,rfl⟩) [putRequest]
    (noNulInHead_of_not_mem (by decide))
  have hunread : (consumed (.ofReads [putRequest])).unread = true := by decide +kernel
  rw [delivered_of_done rfl ha.run,hunread,if_pos rfl] at hd
  exact ha.output_ne_nil hd.symm

/-! ## The form of a response -/

def WellFormed (out : Bytes) : Prop := ∃ status ls body,
  out = lines (SocketWriter.statusLine status :: ls) ++ crlf ++ body ∧ ∀ l ∈ ls, l ≠ [] ∧ 10 ∉ l

def Completes (env : Env) (f : Stream) : Prop := ∃ req f' q m,
  parseRequest.run f = (.ok req,f') ∧ req.path = ascii "/v1/chat/completions" ∧
    asks req f' = .ok q ∧ env.generate q = .ok m

theorem not_mem_statusLine (status : StatusCode) : 10 ∉ SocketWriter.statusLine status := by
  cases status <;> decide +kernel

theorem wellFormed_completion (text : Bytes) :
    WellFormed (SocketWriter.head .ok ++ (crlf ++ text)) :=
  ⟨.ok,[ascii "Connection: close"],text,by simp [SocketWriter.head],by decide⟩

/-- The header section of a bare status is never closed. -/
theorem not_wellFormed_head (status : StatusCode) : ¬ WellFormed (SocketWriter.head status) := by
  rintro ⟨st,ls,body,h,hls⟩
  have h₁ : SocketWriter.statusLine status ++ crlf ++ (ascii "Connection: close" ++ crlf) =
      SocketWriter.statusLine st ++ crlf ++ (lines ls ++ crlf ++ body) := by
    simpa [SocketWriter.head] using h
  obtain ⟨-,h₂⟩ := line_inj (not_mem_statusLine _) (not_mem_statusLine _) h₁
  cases ls with
  | nil => simp [crlf,ascii,chr] at h₂
  | cons l ls =>
    have h₃ : ascii "Connection: close" ++ crlf ++ [] =
        l ++ crlf ++ (lines ls ++ crlf ++ body) := by
      simpa using h₂
    obtain ⟨-,h₄⟩ := line_inj (by decide) (hls l (by simp)).2 h₃
    have := congrArg List.length h₄
    simp [crlf] at this

def OnlyStatus (env : Env) (f : Stream) : Prop := ∃ status app c,
  (handle env).run (accept f) = (.ok (),c) ∧ c.Replied (SocketWriter.head status) status app

/-- When serving fails before anything is sent, an exception leads to a bare status and
everything else ends the process. -/
theorem onlyStatus_of_error {env : Env} {f : Stream} {c c' : Conn Asked} {e : Stop Exn}
    (hs : (serve (Router.handle (routes env))).run (accept f) = (.error e,c'))
    (hw : c'.writer.Has [] none false) (h : (handle env).run (accept f) = (.ok (),c)) :
    OnlyStatus env f := by
  by_cases he : ∃ x, e = .throw x
  · obtain ⟨x,rfl⟩ := he
    obtain ⟨c'',hc,hr⟩ := handle_of_throw hs hw
    exact ⟨_,_,c'',hc,by simpa using hr⟩
  · rw [handle,handle_of_stop hs fun x hx => he ⟨x,hx⟩] at h
    cases h

theorem not_completes {env : Env} {f f' : Stream} {r : Except (Stop Exn) Request}
    (hp : parseRequest.run f = (r,f'))
    (hr : ∀ req, r = .ok req → req.path ≠ ascii "/v1/chat/completions") : ¬ Completes env f := by
  rintro ⟨req,f'',q,m,hp',hpath,-⟩
  rw [hp] at hp'
  cases hp'
  exact hr req rfl hpath

section Finished

variable {env : Env} {f f' : Stream} {req : Request} {c : Conn Asked}

theorem completes_iff (hp : parseRequest.run f = (.ok req,f'))
    (hchat : req.path = ascii "/v1/chat/completions") :
    Completes env f ↔ ∃ q m, asks req f' = .ok q ∧ env.generate q = .ok m := by
  constructor
  · rintro ⟨req',f'',q,m,hp',-,hq,hm⟩
    rw [hp] at hp'
    cases hp'
    exact ⟨q,m,hq,hm⟩
  · rintro ⟨q,m,hq,hm⟩
    exact ⟨req,f',q,m,hp,hchat,hq,hm⟩

variable (hf : (accept f).writer.Has [] none false) (hp : parseRequest.run f = (.ok req,f'))
include hf hp

theorem onlyStatus_of_route (hchat : req.path ≠ ascii "/v1/chat/completions") :
    OnlyStatus env f := by
  obtain ⟨status,hstatus⟩ : ∃ status, Router.handle (routes env) req =
      Conn.onWriter (SocketWriter.writeStatus status) := by
    rw [handle_routes,if_neg hchat]
    split
    · exact ⟨.ok,rfl⟩
    · exact ⟨.notFound,rfl⟩
  obtain ⟨c',hc',hw',-⟩ := run_writeStatus_conn (hasAccepted hf hp) status
  rw [← hstatus] at hc'
  obtain ⟨c'',hc,hr⟩ := handle_of_ok (c:=accept f) hp hc' ⟨⟨_,hw'⟩,rfl⟩
  exact ⟨_,_,c'',hc,by simpa using hr⟩

variable (h : (handle env).run (accept f) = (.ok (),c))
  (hchat : req.path = ascii "/v1/chat/completions")
include h hchat

theorem onlyStatus_of_asks_error {e : Stop Exn} (hq : asks req f' = .error e) :
    OnlyStatus env f := by
  obtain ⟨c',hc',hw',-⟩ :=
    run_chatCompletions_error env (c:=(accept f).withStream f') hq (hasAccepted hf hp)
  rw [← handle_routes_chat env hchat] at hc'
  exact onlyStatus_of_error (serve_of_error (c:=accept f) hp hc') hw' h

theorem onlyStatus_of_generate_error {q : Question} {x : Exn} (hq : asks req f' = .ok q)
    (hm : env.generate q = .error x) : OnlyStatus env f := by
  obtain ⟨c',hc',hw'⟩ :=
    run_chatCompletions_throw (c:=(accept f).withStream f') hq hm (hasAccepted hf hp)
  rw [← handle_routes_chat env hchat] at hc'
  exact onlyStatus_of_error (serve_of_error (c:=accept f) hp hc') hw' h

theorem output_of_completion {q : Question} {m : Message} (hq : asks req f' = .ok q)
    (hm : env.generate q = .ok m) :
    c.output = SocketWriter.head .ok ++ (crlf ++ responseText env m) := by
  obtain ⟨c',hc',hr'⟩ :=
    run_chatCompletions_ok (c:=(accept f).withStream f') hq hm (hasAccepted hf hp)
  rw [← handle_routes_chat env hchat] at hc'
  obtain ⟨c'',hc,hr⟩ := handle_of_ok (c:=accept f) hp hc' hr'
  rw [handle,hc] at h
  cases h
  simpa using hr.output_eq

end Finished

/-- Every finished run either completes a chat or sends nothing but a status. -/
theorem onlyStatus_or_completes {env : Env} {f : Stream} {c : Conn Asked}
    (hf : (accept f).writer.Has [] none false) (h : (handle env).run (accept f) = (.ok (),c)) :
    ¬ Completes env f ∧ OnlyStatus env f ∨
      Completes env f ∧ ∃ text, c.output = SocketWriter.head .ok ++ (crlf ++ text) := by
  rcases hp : parseRequest.run f with ⟨e | req,f'⟩
  · have hu := parseRequest_unsent f
    rw [hp] at hu
    exact .inl ⟨not_completes hp (by simp),
      onlyStatus_of_error (serve_of_reject (c:=accept f) hp) (hf.onStream hu) h⟩
  by_cases hchat : req.path = ascii "/v1/chat/completions"
  · rw [completes_iff hp hchat]
    cases hq : asks req f' with
    | error e => exact .inl ⟨by simp,onlyStatus_of_asks_error hf hp h hchat hq⟩
    | ok q =>
      cases hm : env.generate q with
      | error x => exact .inl ⟨by simp [hm],onlyStatus_of_generate_error hf hp h hchat hq hm⟩
      | ok m => exact .inr ⟨⟨q,m,rfl,hm⟩,_,output_of_completion hf hp h hchat hq hm⟩
  · refine .inl ⟨not_completes hp ?_,onlyStatus_of_route hf hp hchat⟩
    rintro req' ⟨⟩
    exact hchat

/-- A finished reply is a well-formed response exactly when it completes a chat. It has been
sent unless flushing it fails. -/
theorem handle_wellFormed (env : Env) (pending : List Input) (ending : Ending) (reads : List ℕ)
    (c : Conn Asked)
    (h : (handle env).run (accept ((Stream.ofInput pending ending).cutAt reads)) = (.ok (),c)) :
    (WellFormed c.output ↔ Completes env ((Stream.ofInput pending ending).cutAt reads)) ∧
      c.delivered = if (consumed ((Stream.ofInput pending ending).cutAt reads)).unread then []
        else c.output := by
  refine ⟨?_,delivered_of_done rfl h⟩
  rcases onlyStatus_or_completes (has_accept _ rfl rfl) h with
    ⟨hn,status,app,c',hc,hr⟩ | ⟨hc,text,ho⟩
  · rw [h] at hc
    cases hc
    rw [hr.output_eq]
    exact ⟨fun hw => absurd hw (not_wellFormed_head status),fun hc => absurd hc hn⟩
  · rw [ho]
    exact ⟨fun _ => hc,fun _ => wellFormed_completion text⟩

theorem answers_probe : ∃ c body, Answers constant (.ofBytes probe) .ok none c body := by
  have hl : LineText (ascii "GET /healthz HTTP/1.1") := ⟨by decide,by decide,by decide⟩
  have hr : RequestLine (ascii "GET /healthz HTTP/1.1") .get (ascii "/healthz") :=
    ⟨ascii "HTTP/1.1",by decide,by decide⟩
  have hp := run_parseRequest_ok (f:=Stream.ofInput [] .eof) rfl rfl hl hr .nil []
  have htext : probe = lines [ascii "GET /healthz HTTP/1.1"] ++ (crlf ++ []) := by decide
  rw [← htext] at hp
  refine answers_writeStatus (has_accept _ rfl rfl) hp ?_
  rw [handle_routes,if_pos rfl]
  rfl

theorem handle_wellFormed_probe : ∃ c,
    (handle constant).run (accept (.ofBytes probe)) = (.ok (),c) ∧
      (WellFormed c.output ↔ Completes constant (.ofBytes probe)) ∧
      c.delivered = if (consumed (.ofBytes probe)).unread then [] else c.output := by
  obtain ⟨c,_,h⟩ := answers_probe
  exact ⟨c,h.run,handle_wellFormed constant (probe.map .byte) .eof [] c h.run⟩

/-- The reply to a health probe is not a well-formed response. -/
theorem not_wellFormed_probe :
    ¬ ∀ c, (handle constant).run (accept (.ofBytes probe)) = (.ok (),c) → WellFormed c.output := by
  intro h
  obtain ⟨c,body,ha⟩ := answers_probe
  refine not_wellFormed_head .ok ?_
  have := h c ha.run
  rw [ha.output,ha.body_eq] at this
  simpa [SocketWriter.head] using this

end Gabby.Service
