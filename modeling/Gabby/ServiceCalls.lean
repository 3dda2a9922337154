import Gabby.HttpAttempts
import Gabby.ServiceFidelity
import Gabby.ServiceReplies

/-! A chat completion from end to end: the client posts a value, the service answers on its
connection, and the client parses what it receives. -/
namespace Gabby.Service

open Exec Http Json

/-! ## What the client makes of a reply -/

/-- Nothing but a status is not taken for a response. -/
theorem extract_head (status : StatusCode) : PostJson.extract (SocketWriter.head status) =
    .error (.throw (.invalidArgument (ascii "invalid http response"))) := by
  have h : find (crlf ++ crlf) (SocketWriter.head status) = none := by
    cases status <;> decide +kernel
  rw [PostJson.extract,h]

theorem extract_nil : PostJson.extract [] =
    .error (.throw (.invalidArgument (ascii "invalid http response"))) := by
  have h : find (crlf ++ crlf) [] = none := by decide
  rw [PostJson.extract,h]

/-- The empty line before the body is parsed with it. -/
theorem extract_body (text : Bytes) :
    PostJson.extract (SocketWriter.head .ok ++ (crlf ++ text)) =
      ofStop (parseString (crlf ++ crlf ++ text)) := by
  have hhead : SocketWriter.head .ok = SocketWriter.statusLine .ok ++ crlf ++
      ascii "Connection: close" ++ crlf := by decide +kernel
  have hno : ¬ crlf ++ crlf <:+: SocketWriter.statusLine .ok ++ crlf ++
      ascii "Connection: close" ++ (crlf ++ crlf).dropLast :=
    find_eq_none.mp (by decide +kernel)
  have hf := find_append (by decide) hno text
  rw [hhead,PostJson.extract]
  simp only [List.append_assoc] at hf ⊢
  rw [hf]
  simp

/-! ## What the service replies -/

section Reply

variable (env : Env) (w : Value)

def chatPath : Bytes := ascii "/v1/chat/completions"

def posted : Bytes := Client.sent .post chatPath [] w.toString

/-- What reaches a client whose bytes are brought in chunk by chunk. -/
def reply (chunks : List Bytes) : Bytes :=
  ((handle env).run (accept (.ofReads chunks))).2.delivered

/-- The answer to the question in a JSON text, if it has one and the generator answers it. -/
def answerTo (text : Bytes) : Option Message := do
  let v ← (parseString text).toOption
  let question ← (extractRequest v).toOption
  (env.generate question).toOption

end Reply

variable {env : Env} {w : Value}

theorem withFraction_ne_nil {int : Bytes} (h : int ≠ []) (frac : Bytes) :
    Double.withFraction int frac ≠ [] := by
  unfold Double.withFraction
  dsimp only
  split
  · exact h
  · simp [h]

theorem print_ne_nil (v : Value) : v.print ≠ [] := by
  have hmag : ∀ m, Double.showMagnitude m ≠ [] := by
    intro m
    have hd := decimal_ne_nil (Double.sixDigits m.num m.den).1
    have htake : ∀ n, (decimal (Double.sixDigits m.num m.den).1).take (n+1) ≠ [] := by
      simp [hd]
    unfold Double.showMagnitude
    dsimp only
    split_ifs
    · simp [ascii]
    · exact withFraction_ne_nil (htake _) _
    · exact withFraction_ne_nil (by simp [ascii]) _
    · simp [withFraction_ne_nil (htake 0)]
  cases v with
  | number d =>
    rcases d with neg | neg | ⟨neg,m⟩ <;> cases neg <;>
      simp [Value.print,Double.print,ascii,hmag]
  | boolean b => cases b <;> simp [Value.print,ascii]
  | _ => simp [Value.print,ascii]

def Holds (w : Value) (f : Stream) : Prop := f.ending = .eof ∧ f.pending = w.toString.map .byte

theorem asks_posted {req : Request} (hm : req.method = .post)
    (hcl : getIntHeader req (ascii "Content-Length") = .ok (w.toString.length : ℤ))
    (hlen : w.toString.length < 2^31) {f : Stream} (hf : Holds w f) : asks req f = (do
      let v ← parseString w.toString
      (extractRequest v).mapError .throw) := by
  have hc : checkMethod [.post] req.method = .ok () := by simp [checkMethod,hm]
  have hagree : Scanner.Agree (w.toString.length : ℤ).toNat f (.ofBytes w.toString) := by
    rw [Scanner.Agree,hf.1,hf.2]
    exact ⟨rfl,rfl⟩
  rw [asks,hc,hcl,Except.mapError,ok_bind,Except.mapError,ok_bind,parseString,toInt32_of_lt hlen,
    parseOutcome,(parseRun_agree hagree).1]
  rfl

theorem length_lt_of_posted (hlen : (posted w).length < 2^31) : w.toString.length < 2^31 := by
  rw [posted,Client.sent_eq] at hlen
  simp only [List.length_append] at hlen
  omega

/-- The service reads the head that the client wrote, and the text of the value is left. -/
theorem parseRequest_posted (hlen : w.toString.length < 2^31) {chunks : List Bytes}
    (hchunks : chunks.flatten = posted w) : ∃ req f,
      parseRequest.run (.ofReads chunks) = (.ok req,f) ∧ Holds w f ∧ req.method = .post ∧
        req.path = chatPath ∧
          getIntHeader req (ascii "Content-Length") = .ok (w.toString.length : ℤ) := by
  have hchars : ∀ c ∈ chatPath, c ≠ 32 ∧ c ≠ 10 ∧ c ≠ 0 := by decide +kernel
  have hheaders : ∀ h ∈ ([] : Dict Bytes Bytes), Client.Sendable h ∧
      h.1 ≠ ascii "Content-Length" := by simp
  obtain ⟨req,hp,hm,hpath,-,-,hcl⟩ := run_parseRequest_sent
    (f:=(Stream.ofInput [] .eof).cutAt (Stream.ends chunks)) rfl rfl .post hchars hheaders
    (by decide +kernel) hlen
  rw [show Client.sent .post chatPath [] w.toString = chunks.flatten from hchunks.symm] at hp
  exact ⟨req,_,hp,⟨rfl,rfl⟩,hm,hpath,hcl (print_ne_nil w)⟩

theorem answerTo_posted (env : Env) {req : Request} {f : Stream} (h : asks req f = (do
      let v ← parseString w.toString
      (extractRequest v).mapError .throw)) : answerTo env w.toString =
    (asks req f).toOption.bind fun q => (env.generate q).toOption := by
  rw [h,answerTo]
  cases parseString w.toString with
  | error e => rfl
  | ok v =>
    simp only [ok_bind,Except.toOption,Option.bind_eq_bind,Option.bind_some]
    cases extractRequest v <;> rfl

theorem reply_of_head {chunks : List Bytes} {c : Conn Asked} {status : StatusCode}
    (hc : (handle env).run (accept (.ofReads chunks)) = (.ok (),c))
    (ho : c.output = SocketWriter.head status) :
    reply env chunks = [] ∨ ∃ status, reply env chunks = SocketWriter.head status := by
  rw [reply,hc,delivered_of_done rfl hc]
  split
  · exact .inl rfl
  · exact .inr ⟨_,ho⟩

/-- The service sends a response when the posted text has an answer, and otherwise a status or
nothing at all. -/
theorem reply_posted (env : Env) (hlen : (posted w).length < 2^31) {chunks : List Bytes}
    (hchunks : chunks.flatten = posted w) :
    (∃ m, answerTo env w.toString = some m ∧
      reply env chunks = SocketWriter.head .ok ++ (crlf ++ responseText env m)) ∨
    answerTo env w.toString = none ∧
      (reply env chunks = [] ∨ ∃ status, reply env chunks = SocketWriter.head status) := by
  have hle := length_lt_of_posted hlen
  obtain ⟨req,f',hp,hholds,hm,hpath,hcl⟩ := parseRequest_posted hle hchunks
  have hroute := handle_routes_chat env hpath
  have hf := has_accept (.ofReads chunks) rfl rfl
  rw [answerTo_posted env (asks_posted hm hcl hle hholds)]
  cases hq : asks req f' with
  | error e =>
    obtain ⟨x,rfl,-⟩ := asks_blames hm hholds.1 (by simp [hholds.2]) hq
    obtain ⟨c,hc,hr⟩ := replied_throw hf hp hroute hq
    exact .inr ⟨rfl,reply_of_head hc hr.output_eq⟩
  | ok q =>
    cases hg : env.generate q with
    | error x =>
      obtain ⟨c',hc',hw'⟩ := run_chatCompletions_throw
        (c:=(accept (.ofReads chunks)).withStream f') hq hg (hasAccepted hf hp)
      rw [← hroute] at hc'
      obtain ⟨c,hc,hr⟩ := handle_of_throw
        (serve_of_error (c:=accept (.ofReads chunks)) hp hc') hw'
      exact .inr ⟨by simp [Except.toOption,hg],reply_of_head hc (by simpa using hr.output_eq)⟩
    | ok m =>
      obtain ⟨c',hc',hr'⟩ := run_chatCompletions_ok
        (c:=(accept (.ofReads chunks)).withStream f') hq hg (hasAccepted hf hp)
      rw [← hroute] at hc'
      obtain ⟨c,hc,hr⟩ := handle_of_ok (c:=accept (.ofReads chunks)) hp hc' hr'
      have hc : (handle env).run (accept (.ofReads chunks)) = (.ok (),c) := hc
      have hlen : (Stream.bytesOf f'.pending).length ≤ (w.toString.length : ℤ) := by
        rw [hholds.2,Stream.bytesOf_map]
      have hread : (consumed (.ofReads chunks)).unread = false := by
        refine unread_consumed hp ?_
        rw [if_pos (show req.path = ascii "/v1/chat/completions" from hpath)]
        exact ⟨_,q,hcl,hlen,hq⟩
      refine .inl ⟨m,by simp [Except.toOption,hg],?_⟩
      rw [reply,hc,delivered_of_done rfl hc,hread]
      simpa using hr.output_eq

/-! ## The client and the service -/

/-- A connection to the service: nothing fails before the response, which is what the service
sends to the client, however the request and the response are cut up. -/
structure Served (env : Env) (b : Bytes) (s : Socket) : Prop where
  clear : Call.Clear s
  answer : ∃ chunks, chunks.flatten = b ∧ Socket.answer s.reads = .ok (reply env chunks)

/-- The client is connected to the service after at most two resets. -/
def Connected (env : Env) (w : Value) (net : Network) : Prop :=
  net.used = [] ∧ ∃ k < kNumRetries, Served env (posted w) (net.sockets k) ∧
    ∀ j < k, (Call.outcome .post chatPath [] w.toString net j).1 = Call.reset

/-- `PostJson` returns what the response parses to, or it takes a bare status, or nothing at all,
for no response. -/
theorem run_postJson {net : Network} (hlen : (posted w).length < 2^31)
    (hnet : Connected env w net) : ((postJson chatPath w).run net).1 =
      match answerTo env w.toString with
      | some m => ofStop (parseString (crlf ++ crlf ++ responseText env m))
      | none => .error (.throw (.invalidArgument (ascii "invalid http response"))) := by
  obtain ⟨hused,k,hk,⟨hclear,chunks,hchunks,ha⟩,hj⟩ := hnet
  have hcall := (call_settles .post chatPath [] w.toString hlen net hused).2 k hk _ hj hclear ha
  rw [postJson,run_bind_ok (Prod.ext hcall rfl),run_step]
  rcases reply_posted env hlen hchunks with ⟨m,hm,hr⟩ | ⟨hm,hr | ⟨status,hr⟩⟩
  · simp only [hm,hr,extract_body]
  · simp only [hm,hr,extract_nil]
  · simp only [hm,hr,extract_head]

/-! ## Fidelity -/

/-- A printed value is an enumeration of the value. -/
def Env.Lawful (env : Env) : Prop :=
  ∀ v : Value, v.Of (fun _ => True) (fun _ => True) → v.Enumerates (env.enumerate v)

theorem ofStop_eq_ok {x : Except (Stop Exn) Value} {v : Value} :
    ofStop x = .ok v ↔ x = .ok v := by
  rcases x with (_ | _ | _ | _) | _ <;> simp [ofStop]

theorem parseString_print (hw : w.Of (fun d => RereadsNumber d d) Unescaped)
    (hlen : w.toString.length < 2^31) : parseString w.toString = .ok w := by
  have h : Rereads w w := by
    clear hlen
    induction hw with
    | nil => exact .nil
    | boolean b => exact .boolean b
    | number d h => exact .number h
    | string s h => exact .string h
    | array vs _ ih => simpa using Rereads.array_map (f:=id) ih
    | object ms hwf hk _ ih => simpa using Rereads.object_map (f:=id) hwf hk ih
  exact (parseString_eq_ok hlen).mpr (denotes_print h)

section Carried

variable {m : Message} {v : Value} (hv : Value.Enumerates (.object (stub [choice m])) v)
include hv

/-- A text with the response that is read as one carrying the answer was read as a whole. -/
theorem length_spaced_lt {ws : Bytes} (hws : ws.length ≤ 4) {u : Value}
    (hu : parseString (ws ++ v.print) = .ok u) (hc : Carries u m) :
    (ws ++ v.print).length < 2^31 := by
  obtain ⟨⟨ts,hs,hd⟩,hsize⟩ := parseString_denotes hu
  obtain ⟨hr,ht⟩ := hc.strings hd.of
  by_contra hge
  have h₁ := hs.length_str_le hr
  have h₂ := hs.length_str_le ht
  have h₃ := toInt32_lt hsize.symm (not_lt.mp hge)
  have hlen := length_print_enumerated hv
  have happ : (ws ++ v.print).length = ws.length + v.print.length := List.length_append
  rw [overhead] at hlen
  omega

/-- White space before a response changes what is read only by its length. -/
theorem carries_spaced {ws : Bytes} (hws : ws.all isspace) (hle : ws.length ≤ 4) :
    (∃ u, parseString (ws ++ v.print) = .ok u ∧ Carries u m) ↔
      Unescaped m.role ∧ Unescaped m.content ∧ (ws ++ v.print).length < 2^31 := by
  constructor
  · rintro ⟨u,hu,hc⟩
    have hlt := length_spaced_lt hv hle hu hc
    obtain ⟨ts,hs,hd⟩ := (parseString_eq_ok hlt).mp hu
    have hlt' : v.print.length < 2^31 := by
      rw [List.length_append] at hlt
      omega
    obtain ⟨hr,ht⟩ := unescaped_of_carries hv
      ((parseString_eq_ok hlt').mpr ⟨ts,hs.of_space hws,hd⟩) hc
    exact ⟨hr,ht,hlt⟩
  · rintro ⟨hr,ht,hlt⟩
    have hlt' : v.print.length < 2^31 := by
      rw [List.length_append] at hlt
      omega
    obtain ⟨u,hu,hc⟩ := carries_of_unescaped hv hr ht hlt'
    obtain ⟨ts,hs,hd⟩ := (parseString_eq_ok hlt').mp hu
    exact ⟨u,(parseString_eq_ok hlt).mpr ⟨ts,hs.space hws,hd⟩,hc⟩

end Carried

/-- A value posted to the chat route comes back as the generator's answer to the messages in
it, exactly when the answer needs no escaping and fits; without such messages, or when the
generator fails, the client finds no response. -/
theorem postJson_chat {net : Network} (henv : env.Lawful)
    (hw : w.Of (fun d => RereadsNumber d d) Unescaped) (hlen : (posted w).length < 2^31)
    (hnet : Connected env w net) :
    let result := ((postJson chatPath w).run net).1
    match extractRequest w >>= env.generate with
    | .error _ => result = .error (.throw (.invalidArgument (ascii "invalid http response")))
    | .ok m => (∃ u, result = .ok u ∧ Carries u m) ↔ Unescaped m.role ∧ Unescaped m.content ∧
        4 + overhead + (m.role.length + m.content.length) < 2^31 := by
  have hle : w.toString.length < 2^31 := by
    have h := hlen
    rw [posted,Client.sent_eq] at h
    simp only [List.length_append] at h
    omega
  have hanswer : answerTo env w.toString = (extractRequest w >>= env.generate).toOption := by
    rw [answerTo,parseString_print hw hle]
    simp only [Except.toOption,Option.bind_eq_bind,Option.bind_some]
    cases extractRequest w <;> rfl
  dsimp only
  rw [run_postJson hlen hnet,hanswer]
  cases extractRequest w >>= env.generate with
  | error e => rfl
  | ok m =>
    have hv := henv (.object (stub [choice m]))
      (of_response (S:=fun _ => True) (by simp) trivial trivial |>.mono (by simp) (by simp))
    have hlen := length_print_enumerated hv
    simp only [Except.toOption,ofStop_eq_ok,responseText,Value.toString]
    have hws : (crlf ++ crlf).length = 4 := by decide
    have hspace : (crlf ++ crlf).all isspace := by decide
    rw [carries_spaced hv hspace hws.le,List.length_append,hlen]
    rw [hws,Nat.add_assoc]

def hello : Value := .object [(ascii "messages",.array [
  .object (message ⟨ascii "system",ascii "Be brief."⟩),
  .object (message ⟨ascii "user",ascii "Hello!"⟩)])]

def helloNetwork : Network := ⟨fun _ => ⟨[],[.ok 10],
  [.ok (reply constant [(posted hello).take 10,(posted hello).drop 10])],0,[]⟩,[]⟩

theorem lawful_constant : constant.Lawful := fun _ h => Value.enumerates_refl h

theorem connected_hello : Connected constant hello helloNetwork := by
  refine ⟨rfl,0,by decide,⟨⟨by simp [helloNetwork],by simp [helloNetwork]⟩,
    [(posted hello).take 10,(posted hello).drop 10],by simp,?_⟩,by simp⟩
  simp only [helloNetwork,Socket.answer]
  split
  · rename_i h
    rw [List.isEmpty_iff.mp h]
  · simp [Except.map]

theorem of_hello : hello.Of (fun d => RereadsNumber d d) Unescaped := by
  have hmsg : ∀ m : Message, Unescaped m.role → Unescaped m.content →
      Value.Of (fun d => RereadsNumber d d) Unescaped (.object (message m)) := by
    intro m hr hc
    refine .object _ (show Dict.WF (message ⟨[],[]⟩) by decide +kernel) ?_ ?_ <;>
      simp only [message,List.forall_mem_cons]
    · exact ⟨by decide +kernel,by decide +kernel,by simp⟩
    · exact ⟨.string _ hr,.string _ hc,by simp⟩
  refine .object _ (by decide +kernel) (by decide +kernel) ?_
  simp only [List.forall_mem_cons]
  refine ⟨.array _ ?_,by simp⟩
  simp only [List.forall_mem_cons]
  exact ⟨hmsg _ (by decide +kernel) (by decide +kernel),
    hmsg _ (by decide +kernel) (by decide +kernel),by simp⟩

theorem extractRequest_hello : (extractRequest hello >>= constant.generate) =
    .ok ⟨ascii "assistant",ascii "hi"⟩ := by decide +kernel

theorem postJson_chat_hello : ∃ u, ((postJson chatPath hello).run helloNetwork).1 = .ok u ∧
    Carries u ⟨ascii "assistant",ascii "hi"⟩ := by
  have h := postJson_chat lawful_constant of_hello (by decide +kernel) connected_hello
  rw [extractRequest_hello] at h
  exact h.mpr ⟨by decide +kernel,by decide +kernel,by decide +kernel⟩

end Gabby.Service
