import Gabby.ServiceReplies

/-! What a client is told that stops in the middle of its request: every read of the line
reader reports a timeout as one, the JSON scanner does not. -/
namespace Gabby

namespace Http

open Exec
open Gabby.Stream (holding getLine_short)

/-- A client that sent these bytes, which are brought in by these reads, and sends nothing more:
every further read times out. -/
def stalled (p : Bytes) (reads : List ℕ) : Stream :=
  (Stream.ofInput (p.map .byte) (.fail EAGAIN)).cutAt reads

/-! ## Where a head can break off -/

theorem length_le_of_not_lf {p u v : Bytes} (hp : 10 ∉ p) (h : p <+: u ++ 10::v) :
    p.length ≤ u.length := by
  by_contra hlt
  have hu : u ++ [10] <+: p := List.prefix_of_prefix_length_le (by simp) h (by simp; omega)
  exact hp (hu.subset (by simp))

theorem lines_cons_append (l : Bytes) (ls : List Bytes) (c : Bytes) :
    lines (l::ls) ++ c = (l ++ [13]) ++ 10::(lines ls ++ c) := by
  simp [crlf]

/-- Breaking off before the empty line of a head leaves whole lines and a part of one. -/
theorem lines_broken {ls : List Bytes} (hls : ∀ l ∈ ls, 10 ∉ l ∧ l.length ≤ 253) {p : Bytes}
    (hp : p <+: lines ls ++ crlf) (hne : p ≠ lines ls ++ crlf) :
    ∃ ls' c, ls' <+: ls ∧ p = lines ls' ++ c ∧ 10 ∉ c ∧ c.length < 255 := by
  induction ls generalizing p with
  | nil =>
    by_cases h : 10 ∈ p
    · obtain ⟨a,b,rfl,ha⟩ := List.eq_append_cons_of_mem h
      obtain ⟨t,ht⟩ := hp
      have ht : a ++ 10::(b ++ t) = [13] ++ 10::[] := by simpa [crlf] using ht
      obtain ⟨rfl,hb⟩ := append_lf_inj ha (by simp) ht
      simp [crlf,(List.append_eq_nil_iff.mp hb).1] at hne
    · have := length_le_of_not_lf (u:=[13]) (v:=[]) h hp
      exact ⟨[],p,List.prefix_rfl,rfl,h,by simp at this; omega⟩
  | cons l ls ih =>
    obtain ⟨hl,hlen⟩ := hls l (by simp)
    rw [lines_cons_append] at hp hne
    by_cases h : 10 ∈ p
    · obtain ⟨a,b,rfl,ha⟩ := List.eq_append_cons_of_mem h
      obtain ⟨t,ht⟩ := hp
      rw [List.append_assoc,List.cons_append] at ht
      obtain ⟨rfl,hb⟩ := append_lf_inj ha (by simpa using hl) ht
      obtain ⟨ls',c,hls',rfl,hc⟩ := ih (fun l' hl' => hls l' (by simp [hl'])) ⟨t,hb⟩
        (by rintro rfl; exact hne rfl)
      exact ⟨l::ls',c,List.cons_prefix_cons.mpr ⟨rfl,hls'⟩,by rw [lines_cons_append],hc⟩
    · have := length_le_of_not_lf h hp
      exact ⟨[],p,List.nil_prefix,rfl,h,by simp at this; omega⟩

theorem no_empty_line {ls : List Bytes} (hls : ∀ l ∈ ls, l ≠ [] ∧ 10 ∉ l) {c : Bytes}
    (hc : 10 ∉ c) : ¬ crlf ++ crlf <:+: lines ls ++ c := by
  induction ls with
  | nil => exact fun h => hc (h.subset (by simp [crlf]))
  | cons l ls ih =>
    obtain ⟨-,hl⟩ := hls l (by simp)
    rintro ⟨u,w,h⟩
    rw [lines_cons_append] at h
    by_cases hu : 10 ∈ u
    · obtain ⟨a,b,rfl,ha⟩ := List.eq_append_cons_of_mem hu
      have h : a ++ 10::(b ++ (crlf ++ crlf) ++ w) = (l ++ [13]) ++ 10::(lines ls ++ c) := by
        simpa using h
      obtain ⟨-,hb⟩ := append_lf_inj ha (by simpa using hl) h
      exact ih (fun l' hl' => hls l' (by simp [hl'])) ⟨b,w,hb⟩
    · have h : (u ++ [13]) ++ 10::(crlf ++ w) = (l ++ [13]) ++ 10::(lines ls ++ c) := by
        simpa [crlf] using h
      obtain ⟨-,hb⟩ := append_lf_inj (by simpa using hu) (by simpa using hl) h
      cases ls with
      | nil => exact hc ((show c = crlf ++ w from hb.symm) ▸ by simp [crlf])
      | cons l' ls =>
        obtain ⟨hne,hl'⟩ := hls l' (by simp)
        have hb : [] ++ crlf ++ w = l' ++ crlf ++ (lines ls ++ c) := by simpa using hb
        exact hne (line_inj (by simp) hl' hb).1.symm

theorem headLines_text {l path : Bytes} {method : Method} {ls : List Bytes}
    {hs : List (Bytes × Bytes)} (hl : LineText l) (hr : RequestLine l method path)
    (hls : HeaderLines ls hs) : ∀ l' ∈ l::ls, l' ≠ [] ∧ LineText l' := by
  refine List.forall_mem_cons.mpr ⟨⟨hr.ne_nil,hl⟩,fun l' hl' => ?_⟩
  obtain ⟨ht,hc⟩ := hls.forall l' hl'
  refine ⟨?_,ht⟩
  rintro rfl
  simp [ascii_colon] at hc

theorem no_empty_line_in_head {ls : List Bytes} (hls : ∀ l ∈ ls, l ≠ [] ∧ LineText l) {p : Bytes}
    (hp : p <+: lines ls ++ crlf) (hne : p ≠ lines ls ++ crlf) : ¬ crlf ++ crlf <:+: p := by
  obtain ⟨ls',c,hls',rfl,hc,-⟩ :=
    lines_broken (fun l hl => ⟨(hls l hl).2.no_lf,(hls l hl).2.length_le⟩) hp hne
  exact no_empty_line (fun l hl => ⟨(hls l (hls'.subset hl)).1,(hls l (hls'.subset hl)).2.no_lf⟩) hc

theorem empty_line_in_head (l : Bytes) (ls : List Bytes) (q : Bytes) :
    crlf ++ crlf <:+: lines (l::ls) ++ crlf ++ q := by
  have hends : ∃ u, lines (l::ls) = u ++ crlf := by
    induction ls generalizing l with
    | nil => exact ⟨l,by simp⟩
    | cons l' ls ih =>
      obtain ⟨u,hu⟩ := ih l'
      exact ⟨l ++ crlf ++ u,by rw [lines_cons,hu,List.append_assoc _ u]⟩
  obtain ⟨u,hu⟩ := hends
  exact ⟨u,q,by simp [hu]⟩

theorem head_cases {h body p : Bytes} (hp : p <+: h ++ body) :
    (p <+: h ∧ p ≠ h) ∨ ∃ q, p = h ++ q ∧ q <+: body := by
  rcases List.prefix_or_prefix_of_prefix hp (List.prefix_append h body) with hpre | ⟨q,rfl⟩
  · by_cases hne : p = h
    · exact .inr ⟨[],by simp [hne],List.nil_prefix⟩
    · exact .inl ⟨hpre,hne⟩
  · exact .inr ⟨q,rfl,(List.prefix_append_right_inj h).mp hp⟩

/-! ## A head that breaks off -/

variable (reads : List ℕ)

theorem run_readLine_stalled {c : Bytes} (h : 10 ∉ c) (hlen : c.length < 255) :
    ∃ s, readLine.run (stalled c reads) = (.error (.throw .timeoutException),s) ∧
      s.pending = [] := by
  have hf : (fgets kMaxLineLen).run (stalled c reads) = (.ok c,(stalled [] reads).fgetc.2) := by
    have hget := getLine_short h hlen (stalled [] reads)
    simp only [fgets,run_step,Stream.fgets,kMaxLineLen]
    exact congrArg (fun r => (Except.ok r.1,r.2)) hget
  rw [readLine,run_bind_ok hf]
  simp [stalled,Stream.ofInput,Stream.cutAt,Stream.fgetc,run_bind]

/-- A head that breaks off makes `ParseRequest` throw a timeout, and leaves nothing unread. -/
theorem run_parseRequest_stalled {l path : Bytes} {method : Method} {ls : List Bytes}
    {hs : List (Bytes × Bytes)} (hl : LineText l) (hr : RequestLine l method path)
    (hls : HeaderLines ls hs) {p : Bytes} (hp : p <+: lines (l::ls) ++ crlf)
    (hne : p ≠ lines (l::ls) ++ crlf) :
    ∃ s, parseRequest.run (stalled p reads) = (.error (.throw .timeoutException),s) ∧
      s.pending = [] := by
  have htext := headLines_text hl hr hls
  obtain ⟨ls',c,hls',rfl,hc,hlen⟩ :=
    lines_broken (fun l' hl' => ⟨(htext l' hl').2.no_lf,(htext l' hl').2.length_le⟩) hp hne
  obtain ⟨s,hs',hpend⟩ := run_readLine_stalled reads hc hlen
  rcases List.prefix_cons_iff.mp hls' with rfl | ⟨ls',rfl,hsub⟩
  · exact ⟨s,run_bind_error hs',hpend⟩
  obtain ⟨hs₁,hfields⟩ := exists_fields fun l' hl' => hls.forall l' (hsub.subset hl')
  obtain ⟨n,hn⟩ := run_readHeaders (f:=stalled [] reads) rfl rfl hfields [] c
  have hfirst := run_parseRequest_first (f:=stalled [] reads) rfl rfl hl hr (lines ls' ++ c)
  rw [← List.append_assoc] at hfirst
  have hround : (readHeaders []).run (holding (stalled [] reads) (lines ls' ++ c)) =
      (.error (.throw .timeoutException),s) := by
    rw [hn]
    exact run_iterate_error (run_bind_error hs')
  exact ⟨s,hfirst.trans (run_bind_error hround),hpend⟩

end Http

namespace Service

open Exec Http

/-! ## What the client is told -/

/-- `Handle` sends this status and nothing else, and asks the generator nothing. -/
def Sends (env : Env) (f : Stream) (status : StatusCode) : Prop :=
  ∃ c, (handle env).run (accept f) = (.ok (),c) ∧
    c.Replied (SocketWriter.head status) status []

/-- What `Handle` sends has left for the client when it returns. -/
def Arrives (env : Env) (f : Stream) : Prop :=
  ∀ c, (handle env).run (accept f) = (.ok (),c) → c.delivered = c.output

variable (env : Env) (reads : List ℕ)

theorem sends_of_head {l path : Bytes} {method : Method} {ls : List Bytes}
    {hs : List (Bytes × Bytes)} (hl : LineText l) (hr : RequestLine l method path)
    (hls : HeaderLines ls hs) {p : Bytes} (hp : p <+: lines (l::ls) ++ crlf)
    (hne : p ≠ lines (l::ls) ++ crlf) :
    Sends env (stalled p reads) .requestTimeout ∧ Arrives env (stalled p reads) := by
  obtain ⟨s,hs,hpend⟩ := run_parseRequest_stalled reads hl hr hls hp hne
  have hu := parseRequest_unsent (stalled p reads)
  rw [hs] at hu
  have hread : (consumed (stalled p reads)).unread = false := by
    rw [consumed,hs]
    exact Stream.unread_of_bytesOf (by simp [hpend])
  refine ⟨handle_of_throw (serve_of_reject (c:=accept (stalled p reads)) hs)
    ((has_accept (stalled p reads) rfl rfl).onStream hu),fun c hc => ?_⟩
  rw [delivered_of_done rfl hc,hread]
  rfl

/-- A body that breaks off fails to parse, and no failure of the parser is a timeout. -/
theorem asks_stalled {req : Request} {q : Bytes} {n : ℤ}
    (hn : getIntHeader req (ascii "Content-Length") = .ok n) (hq : (q.length : ℤ) < n) :
    ∃ x, asks req (stalled q reads) = .error (.throw x) ∧ rescueStatus x ≠ .requestTimeout := by
  unfold asks
  cases hm : checkMethod [.post] req.method with
  | error e =>
    refine ⟨e,rfl,?_⟩
    unfold checkMethod at hm
    split at hm <;> cases hm
    decide
  | ok u =>
  simp only [hn,Except.mapError,ok_bind]
  cases hv : ((Json.parse n).run (stalled q reads)).1 with
  | ok v =>
    have hlen :=
      (Json.parseRun_sound (show (Json.parseRun (stalled q reads) n).outcome = _ from hv)).2
    simp only [stalled,Stream.ofInput,Stream.cutAt,Stream.bytesOf_map,List.length_take] at hlen
    omega
  | error e =>
    obtain ⟨x,rfl,hx⟩ := Json.parseRun_error False False.elim
      (show (Json.parseRun (stalled q reads) n).outcome = _ from hv)
    refine ⟨x,rfl,?_⟩
    rcases hx with ⟨w,rfl⟩ | ⟨-,k,rfl⟩
    · exact (by simp [rescueStatus,Exn.isJSONError])
    · exact (by simp [rescueStatus,Exn.isJSONError,Exn.status])

/-- What breaks off in the body of a chat completion is not answered with a timeout. -/
theorem not_sends_of_body {req : Request} {p q : Bytes} {n : ℤ}
    (hp : parseRequest.run (stalled p reads) = (.ok req,stalled q reads))
    (hpath : req.path = ascii "/v1/chat/completions")
    (hn : getIntHeader req (ascii "Content-Length") = .ok n) (hq : (q.length : ℤ) < n) :
    ¬ Sends env (stalled p reads) .requestTimeout := by
  obtain ⟨x,hx,hne⟩ := asks_stalled reads hn hq
  obtain ⟨c,hc,⟨_,hw⟩,-⟩ :=
    replied_throw (has_accept _ rfl rfl) hp (handle_routes_chat env hpath) hx
  rintro ⟨c',hc',⟨_,hw'⟩,-⟩
  cases hc.symm.trans hc'
  exact hne (by simpa using hw.status_eq.symm.trans hw'.status_eq)

variable {env}

/-- A request that the service answers with 200: a head, and on the chat route a body of
exactly `Content-Length` bytes. -/
structure Complete (env : Env) (r : Bytes) : Prop where
  answered : ∃ asked c text, Answers env (.ofBytes r) .ok asked c text
  framed : ∃ req body, parseRequest.run (.ofBytes r) = (.ok req,.ofBytes body) ∧
    if req.path = ascii "/v1/chat/completions"
    then getIntHeader req (ascii "Content-Length") = .ok (body.length : ℤ) else body = []

theorem parseRequest_ofBytes_eq_ok {r body : Bytes} {req : Request}
    (h : parseRequest.run (.ofBytes r) = (.ok req,.ofBytes body)) :
    ∃ l ls hs, r = lines (l::ls) ++ crlf ++ body ∧ LineText l ∧
      RequestLine l req.method req.path ∧ HeaderLines ls hs ∧
      req = ⟨req.method,req.path,Dict.insertAll [] hs⟩ := by
  have hof (b : Bytes) : Stream.ofBytes b = (Stream.ofInput [] .eof).holding b := rfl
  rw [hof r] at h
  rcases parseRequest_cases (f:=Stream.ofInput [] .eof) rfl rfl r with
    ⟨l,method,path,ls,hs,rest,rfl,hl,hr,hls⟩ | hb | ⟨x,s,hx,-⟩
  · rw [run_parseRequest_ok (f:=Stream.ofInput [] .eof) rfl rfl hl hr hls rest] at h
    obtain ⟨hreq,hrest⟩ := Prod.mk.inj h
    cases hreq
    have hbody : rest = body := by
      have := congrArg (fun f : Stream => Stream.bytesOf f.pending) hrest
      simpa [Stream.ofBytes,Stream.ofInput] using this
    subst hbody
    exact ⟨l,ls,hs,by simp,hl,hr,hls,rfl⟩
  · obtain ⟨s,hs⟩ := run_parseRequest_nul (f:=Stream.ofInput [] .eof) rfl rfl hb
    cases hs.symm.trans h
  · cases hx.symm.trans h

/-- A request that breaks off is answered with a timeout just when it breaks off before the
empty line of its head is complete. The answer reaches the client. -/
theorem stall_iff {r p : Bytes} (hr : Complete env r) (hp : p <+: r) (hne : p ≠ r) :
    (Sends env (stalled p reads) .requestTimeout ↔ ¬ crlf ++ crlf <:+: p) ∧
      (Sends env (stalled p reads) .requestTimeout → Arrives env (stalled p reads)) := by
  obtain ⟨req,body,hreq,hbody⟩ := hr.framed
  obtain ⟨l,ls,hs,rfl,hl,hline,hls,heq⟩ := parseRequest_ofBytes_eq_ok hreq
  rcases head_cases hp with ⟨hpre,hlt⟩ | ⟨q,rfl,hq⟩
  · obtain ⟨hsends,harrives⟩ := sends_of_head env reads hl hline hls hpre hlt
    refine ⟨iff_of_true hsends ?_,fun _ => harrives⟩
    exact no_empty_line_in_head (headLines_text hl hline hls) hpre hlt
  · have hqb : q ≠ body := by
      rintro rfl
      exact hne rfl
    have hlt : q.length < body.length :=
      lt_of_le_of_ne hq.length_le fun h => hqb (hq.eq_of_length h)
    have hpath : req.path = ascii "/v1/chat/completions" := by
      by_contra hpath
      rw [if_neg hpath] at hbody
      simp [hbody] at hlt
    rw [if_pos hpath] at hbody
    have hrun := run_parseRequest_ok (f:=stalled [] reads) rfl rfl hl hline hls q
    rw [← List.append_assoc,← heq] at hrun
    have hnot := not_sends_of_body env reads hrun hpath hbody (by exact_mod_cast hlt)
    exact ⟨iff_of_false hnot (not_not.mpr (empty_line_in_head l ls q)),fun h => absurd h hnot⟩

/-! ### A chat completion -/

def chatHead : Bytes := ascii "POST /v1/chat/completions HTTP/1.1\r\nContent-Length: 76\r\n\r\n"

def chatBody : Bytes := ascii "\x7b\"messages\":[\x7b\"role\":\"system\",\"content\":\"a\"\x7d," ++
  ascii "\x7b\"role\":\"user\",\"content\":\"b\"\x7d]\x7d"

def chatRequest : Request :=
  ⟨.post,ascii "/v1/chat/completions",[(ascii "Content-Length",ascii "76")]⟩

theorem run_parseRequest_chat (f : Stream) (herr : f.err = false) (heof : f.eof = false)
    (body : Bytes) :
    parseRequest.run (f.holding (chatHead ++ body)) = (.ok chatRequest,f.holding body) := by
  have hl : LineText (ascii "POST /v1/chat/completions HTTP/1.1") :=
    ⟨by decide +kernel,by decide +kernel,by decide +kernel⟩
  have hr : RequestLine (ascii "POST /v1/chat/completions HTTP/1.1") .post
      (ascii "/v1/chat/completions") := ⟨ascii "HTTP/1.1",by decide +kernel,by decide +kernel⟩
  have hh : HeaderLines [ascii "Content-Length: 76"] [(ascii "Content-Length",ascii "76")] :=
    .cons ⟨⟨by decide +kernel,by decide +kernel,by decide +kernel⟩,by decide +kernel,
      by decide +kernel⟩ .nil
  have hp := run_parseRequest_ok herr heof hl hr hh body
  have htext : chatHead = lines [ascii "POST /v1/chat/completions HTTP/1.1",
      ascii "Content-Length: 76"] ++ crlf := by decide +kernel
  rw [htext,List.append_assoc]
  exact hp

theorem complete_chat : Complete constant (chatHead ++ chatBody) := by
  have hp : parseRequest.run (.ofBytes (chatHead ++ chatBody)) =
      (.ok chatRequest,.ofBytes chatBody) := run_parseRequest_chat (.ofInput [] .eof) rfl rfl _
  have hq : asks chatRequest (.ofBytes chatBody) =
      .ok ⟨⟨ascii "system",ascii "a"⟩,⟨ascii "user",ascii "b"⟩⟩ := by decide +kernel
  exact ⟨⟨_,answers_completion (has_accept _ rfl rfl) hp (handle_routes_chat _ rfl) hq rfl⟩,
    ⟨chatRequest,chatBody,hp,by decide +kernel⟩⟩

/-- The request of the delay test: nothing comes after the method. -/
theorem stall_iff_method :
    (Sends constant (stalled (ascii "POST ") []) .requestTimeout ↔
      ¬ crlf ++ crlf <:+: ascii "POST ") ∧
    (Sends constant (stalled (ascii "POST ") []) .requestTimeout →
      Arrives constant (stalled (ascii "POST ") [])) :=
  stall_iff [] complete_chat (by decide +kernel) (by decide +kernel)

/-- A chat completion that breaks off after its head is not answered with a timeout. -/
theorem not_stall : ¬ ∀ (env : Env) (reads : List ℕ) (r p : Bytes), Complete env r → p <+: r →
    p ≠ r → Sends env (stalled p reads) .requestTimeout := by
  intro h
  have hs := h constant [] (chatHead ++ chatBody) chatHead complete_chat (List.prefix_append _ _)
    (by decide +kernel)
  have hp := run_parseRequest_chat (stalled [] []) rfl rfl []
  rw [List.append_nil] at hp
  exact not_sends_of_body (p:=chatHead) (q:=[]) (n:=76) constant [] hp rfl (by decide +kernel)
    (by decide) hs

end Service
end Gabby
