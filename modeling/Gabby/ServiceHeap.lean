import Gabby.HttpProcess
import Gabby.JsonChanges
import Gabby.ServiceCalls

/-! The service as it handles values by shared pointers. All requests of the process put their
values into one heap; every client still gets what the service on plain values answers. -/
namespace Gabby.Service

open Exec Http Json

/-- The requests that the generator has been given, and the values of the process. -/
structure Memory where
  asked : Asked
  heap : Heap Cell

namespace OnHeap

open ValuePtr

/-! ## The handlers -/

variable {α : Type}

def onHeap : Exec (Heap Cell) Exn α → Exec (Conn Memory) Exn α :=
  Exec.zoom (fun c => c.app.heap) fun c h => { c with app := { c.app with heap := h } }

def onStreamAndHeap : Exec (Stream × Heap Cell) Exn α → Exec (Conn Memory) Exn α :=
  Exec.zoom (fun c => (c.writer.stream,c.app.heap)) fun c s =>
    ⟨{ c.writer with stream := s.1 },{ c.app with heap := s.2 }⟩

def healthCheck : Handler Memory := fun _ => Conn.onWriter (SocketWriter.writeStatus .ok)

def hasRole (role : Bytes) (val : Addr) : Exec (Heap Cell) Exn Bool := do
  let object ← asObject val
  let value ← ValuePtr.at object (ascii "role")
  let s ← asString value
  pure (s == role)

def findIf (p : Addr → Exec (Heap Cell) Exn Bool) (last : ℤ) :
    ℤ → List Addr → Exec (Heap Cell) Exn (Option Addr)
  | index, [] =>
    if index = last then pure none
    else Exec.throw (.outOfRange (ascii "out of range: " ++ decimal index.toNat))
  | index, a::as =>
    if index = last then pure none
    else do if ← p a then pure (some a) else findIf p last (index+1) as

def findMessageForRole (role : Bytes) (msgs : List Addr) : Exec (Heap Cell) Exn Message := do
  match ← findIf (hasRole role) (toInt32 msgs.length) 0 msgs with
  | none => Exec.throw (.badRequestException (ascii "role " ++ role ++ ascii " not found"))
  | some val =>
    let msg ← asObject val
    let role ← asString (← ValuePtr.at msg (ascii "role"))
    let content ← asString (← ValuePtr.at msg (ascii "content"))
    pure ⟨role,content⟩

def extractRequest (jsonRequest : Addr) : Exec (Heap Cell) Exn Question := do
  let msgs ← asArray (← ValuePtr.at (← asObject jsonRequest) (ascii "messages"))
  let system ← findMessageForRole (ascii "system") msgs
  let user ← findMessageForRole (ascii "user") msgs
  pure ⟨system,user⟩

def stubResponse : Exec (Heap Cell) Exn Addr :=
  parseInto (.ofBytes stubText) (toInt32 stubText.length)

def choice (answer : Message) : Exec (Heap Cell) Exn Addr := do
  let index ← new (.number ((Double.ofFraction false 0 1).getD (.inf false)))
  let logprobs ← new .nil
  let finishReason ← new (.string (ascii "stop"))
  let role ← new (.string answer.role)
  let content ← new (.string answer.content)
  let message ← new (.object [(ascii "role",role),(ascii "content",content)])
  new (.object [(ascii "index",index),(ascii "logprobs",logprobs),
    (ascii "finish_reason",finishReason),(ascii "message",message)])

def makeResponse (answer : Message) : Exec (Heap Cell) Exn Addr := do
  let response ← stubResponse
  let choice ← choice answer
  let choices ← walk [.key (ascii "choices")] response
  pushBack choices choice
  pure response

def generate (answer : Question → Except Exn Message) (question : Question) :
    Exec (Conn Memory) Exn Message := do
  Exec.modify fun c => { c with app := { c.app with asked := c.app.asked ++ [question] } }
  ofExcept (answer question)

def chatCompletions (answer : Question → Except Exn Message) (e : Enumeration) :
    Handler Memory := fun req => do
  ofExcept (checkMethod [.post] req.method)
  let contentLength ← ofExcept (getIntHeader req (ascii "Content-Length"))
  let jsonReq ← onStreamAndHeap (parseFrom contentLength)
  let question ← onHeap (extractRequest jsonReq)
  let answer ← generate answer question
  let jsonResp ← onHeap (makeResponse answer)
  Conn.onWriter (SocketWriter.writeStatus .ok)
  let text ← onHeap (ValuePtr.toString e jsonResp)
  Conn.onWriter (SocketWriter.writeData text)

def routes (answer : Question → Except Exn Message) (e : Enumeration) : List (Route Memory) := [
  Router.route (ascii "/healthz") healthCheck,
  Router.route (ascii "/v1/chat/completions") (chatCompletions answer e)]

def handle (answer : Question → Except Exn Message) (e : Enumeration) :
    Exec (Conn Memory) Exn Unit := Http.handle (Router.handle (routes answer e))

/-! ## Reading the request -/

variable {h : Heap Cell} {a : Addr} {v : Value}

theorem readsAs_hasRole (role : Bytes) (hd : Cell.layout.Denotes h a v) :
    ReadsAs h (Service.hasRole role v) (hasRole role a) Eq :=
  (readsAs_asObject hd).bind fun _ _ hm => (readsAs_at hm _).bind fun _ _ hd =>
    (readsAs_asString hd).bind fun _ _ hs => readsAs_ok (by rw [hs])

theorem readsAs_findIf (role : Bytes) (last index : ℤ) {as : List Addr} {vs : List Value}
    (hvs : List.Forall₂ (Cell.layout.Denotes h) as vs) :
    ReadsAs h (Service.findIf (Service.hasRole role) last index vs)
      (findIf (hasRole role) last index as)
      (Option.Rel fun v a => Cell.layout.Denotes h a v) := by
  induction hvs generalizing index with
  | nil =>
    rw [Service.findIf,findIf]
    split
    · exact readsAs_ok .none
    · exact readsAs_error _
  | cons hd _ ih =>
    rw [Service.findIf,findIf]
    split
    · exact readsAs_ok .none
    · refine (readsAs_hasRole role hd).bind fun b b' hb => ?_
      subst hb
      cases b with
      | true => exact readsAs_ok (.some hd)
      | false => exact ih (index+1)

theorem readsAs_findMessageForRole (role : Bytes) {as : List Addr} {vs : List Value}
    (hvs : List.Forall₂ (Cell.layout.Denotes h) as vs) :
    ReadsAs h (Service.findMessageForRole role vs) (findMessageForRole role as) Eq := by
  rw [Service.findMessageForRole,findMessageForRole,hvs.length_eq]
  refine (readsAs_findIf role _ 0 hvs).bind fun v a hva => ?_
  cases hva with
  | none => exact readsAs_error _
  | some hd =>
    refine (readsAs_asObject hd).bind fun _ _ hm => (readsAs_at hm _).bind fun _ _ hr =>
      (readsAs_asString hr).bind fun _ _ hr => (readsAs_at hm _).bind fun _ _ ht =>
      (readsAs_asString ht).bind fun _ _ ht => readsAs_ok ?_
    rw [hr,ht]

theorem readsAs_extractRequest (hd : Cell.layout.Denotes h a v) :
    ReadsAs h (Service.extractRequest v) (extractRequest a) Eq :=
  (readsAs_asObject hd).bind fun _ _ hm => (readsAs_at hm _).bind fun _ _ hd =>
    (readsAs_asArray hd).bind fun _ _ hvs => (readsAs_findMessageForRole _ hvs).bind
      fun _ _ hs => (readsAs_findMessageForRole _ hvs).bind fun _ _ hu =>
      readsAs_ok (by rw [hs,hu])

/-! ## Building the response -/

theorem run_new (c : Cell) (h : Heap Cell) : (new c).run h = (.ok h.length,h ++ [c]) := rfl

def choiceCells (answer : Message) (n : Addr) : List Cell := [
  .number ((Double.ofFraction false 0 1).getD (.inf false)),.nil,.string (ascii "stop"),
  .string answer.role,.string answer.content,
  .object [(ascii "role",n+3),(ascii "content",n+4)],
  .object [(ascii "index",n),(ascii "logprobs",n+1),(ascii "finish_reason",n+2),
    (ascii "message",n+5)]]

theorem run_choice (answer : Message) (h : Heap Cell) : (choice answer).run h =
    (.ok (h.length + 6),h ++ choiceCells answer h.length) := by
  simp only [choice,run_bind,run_new,List.length_append,List.length_cons,List.length_nil,
    List.append_assoc,List.cons_append,List.nil_append]
  rfl

theorem owns_choice (answer : Message) (h : Heap Cell) :
    Fresh h.length (h ++ choiceCells answer h.length) (Service.choice answer) (h.length + 6) := by
  have hcell : ∀ {i : ℕ} {c : Cell}, (choiceCells answer h.length)[i]? = some c →
      (h ++ choiceCells answer h.length)[h.length + i]? = some c := fun hi => by
    rw [List.getElem?_append_right (Nat.le_add_right _ _),Nat.add_sub_cancel_left,hi]
  have hscalar : ∀ {i : ℕ} {c : Cell}, (choiceCells answer h.length)[i]? = some c →
      c.children = [] → Cell.layout.Owns (h ++ choiceCells answer h.length) (h.length + i)
        (c.assemble []) [h.length + i] := fun hi hc =>
    .node (L:=Cell.layout) [] (hcell hi) hc (by simp) (by simp)
  set h' := h ++ choiceCells answer h.length
  set n := h.length
  have hmessage : Cell.layout.Owns h' (n+5) (.object (message answer)) [n+5,n+3,n+4] :=
    .node (L:=Cell.layout) [(n+3,.string answer.role,[n+3]),(n+4,.string answer.content,[n+4])]
      (hcell (i:=5) rfl) rfl (by simpa using ⟨hscalar (i:=3) rfl rfl,hscalar (i:=4) rfl rfl⟩)
      (by simp)
  refine ⟨[n+6,n,n+1,n+2,n+5,n+3,n+4],?_,by simp⟩
  exact .node (L:=Cell.layout) [(n,number 0,[n]),(n+1,.nil,[n+1]),
    (n+2,.string (ascii "stop"),[n+2]),(n+5,.object (message answer),[n+5,n+3,n+4])]
    (hcell (i:=6) rfl) rfl (by
      simpa using ⟨hscalar (i:=0) rfl rfl,hscalar (i:=1) rfl rfl,hscalar (i:=2) rfl rfl,hmessage⟩)
    (by simp)

theorem prefix_of_getElem? {α : Type} {l l' : List α} (h : ∀ i < l.length, l'[i]? = l[i]?) :
    l <+: l' :=
  List.prefix_iff_getElem?.mpr fun i hi => (h i hi).trans (List.getElem?_eq_getElem hi)

theorem pushAt_choices (answer : Message) : (Value.object (stub [])).pushAt
    [.key (ascii "choices")] (Service.choice answer) =
      .ok (.object (stub [Service.choice answer])) := by
  rw [map_pushAt_key,find_choices]
  exact congrArg (fun ms => Except.ok (Value.object ms)) (assign_choices [] _)

/-- The response is built of new cells only, although it is built by changing one of them. -/
theorem run_makeResponse (answer : Message) (h : Heap Cell) : ∃ a h',
    (makeResponse answer).run h = (.ok a,h') ∧ h <+: h' ∧
      Fresh h.length h' (.object (stub [Service.choice answer])) a := by
  obtain ⟨h₁,hfin,hpre₁,hout⟩ := parseInto_fresh (.ofBytes stubText) (toInt32 stubText.length) h
  have hstub : parseOutcome (.ofBytes stubText) (toInt32 stubText.length) =
      .ok (.object (stub [])) := stubResponse_eq
  rw [hstub] at hout
  rcases hr : (parseInto (.ofBytes stubText) (toInt32 stubText.length)).run h with ⟨r,h₁'⟩
  rw [hr] at hfin hout
  dsimp only at hfin hout
  subst hfin
  cases hout with
  | @ok _ a hfresh =>
    obtain ⟨fp,ho,hfp⟩ := hfresh
    have hpre₂ := List.prefix_append h₁' (choiceCells answer h₁'.length)
    obtain ⟨g,hb,hg⟩ := owns_choice answer h₁'
    have hdis : ∀ x ∈ fp, x ∉ g := fun x hx hxg =>
      absurd (ho.lt_length hx) (Nat.not_lt.mpr (hg x hxg))
    have hpush := pushesTo hb [.key (ascii "choices")] (ho.grow hpre₂) hdis
    rw [pushAt_choices] at hpush
    obtain ⟨hok,hsame,fp',ho',hfp'⟩ := hpush
    obtain ⟨array,h₂,hwalk,hrun⟩ := run_bind_eq_ok.mp (Prod.ext hok rfl)
    refine ⟨a,_,?_,?_,fp',ho',fun x hx => ?_⟩
    · rw [makeResponse,stubResponse,run_bind_ok hr,run_bind_ok (run_choice answer h₁'),
        run_bind_ok hwalk,run_bind_ok hrun,run_pure]
    · refine prefix_of_getElem? fun i hi => ?_
      obtain ⟨l,hl⟩ := hpre₁.trans hpre₂
      rw [hsame i fun hx => absurd (hfp i hx) (Nat.not_le.mpr hi),← hl,
        List.getElem?_append_left hi]
    · exact (hfp' x hx).elim (hfp x) fun hx => hpre₁.length_le.trans (hg x hx)

/-! ## Serving -/

def withHeap (c : Conn Asked) (h : Heap Cell) : Conn Memory := ⟨c.writer,⟨c.app,h⟩⟩

section Simulation

variable {α β : Type} {c : Conn Asked} {Q : Heap Cell → α → β → Prop}

/-- The second program does to the connection what the first does. -/
abbrev Serves (c : Conn Asked) (h : Heap Cell) (m : Exec (Conn Asked) Exn α)
    (m' : Exec (Conn Memory) Exn β) (Q : Heap Cell → α → β → Prop) : Prop :=
  Builds withHeap c h m m' Q

theorem alike_refl {R : α → α → Prop} (hR : ∀ a, R a a) (x : Except (Stop Exn) α) :
    Alike R x x := by
  cases x with
  | error e => exact .error e
  | ok a => exact .ok (hR a)

theorem serves_onWriter (m : Exec SocketWriter Exn α) :
    Serves c h (Conn.onWriter m) (Conn.onWriter m) fun h' a b => h' = h ∧ a = b := by
  refine ⟨h,List.prefix_rfl,rfl,?_⟩
  rw [Conn.onWriter,Conn.onWriter,run_zoom,run_zoom]
  exact alike_refl (fun _ => ⟨rfl,rfl⟩) _

theorem serves_ofExcept (x : Except Exn α) :
    Serves c h (ofExcept x) (ofExcept x) fun h' a b => h' = h ∧ a = b := by
  cases x with
  | error e => exact builds_stop _
  | ok a => exact builds_pure ⟨rfl,rfl⟩

theorem run_onHeap (m : Exec (Heap Cell) Exn α) : (onHeap m).run (withHeap c h) =
    ((m.run h).1,withHeap c (m.run h).2) := rfl

theorem serves_onHeap {x : Except Exn α} {m : Exec (Heap Cell) Exn β} {R : α → β → Prop}
    (hm : ReadsAs h x m R) :
    Serves c h (ofExcept x) (onHeap m) fun h' a b => h' = h ∧ R a b := by
  refine ⟨h,List.prefix_rfl,?_,?_⟩
  · rw [run_onHeap,hm.1]
    cases x <;> rfl
  · rw [run_onHeap]
    cases x with
    | error e =>
      rw [hm.error]
      exact .error _
    | ok a =>
      obtain ⟨b,hb,hab⟩ := hm.ok
      rw [hb]
      exact .ok ⟨rfl,hab⟩

theorem Serves.step {γ δ : Type} {R : Heap Cell → γ → δ → Prop} {x : Exec (Conn Asked) Exn α}
    {y : Exec (Conn Memory) Exn α} {f : α → Exec (Conn Asked) Exn γ}
    {f' : α → Exec (Conn Memory) Exn δ}
    (hx : Serves c h x y fun h' a b => h' = h ∧ a = b)
    (hf : ∀ c₁ a, Serves c₁ h (f a) (f' a) R) : Serves c h (x >>= f) (y >>= f') R := by
  refine hx.bind fun c₁ h₁ a b _ hab => ?_
  obtain ⟨rfl,rfl⟩ := hab
  exact hf c₁ a

theorem serves_read {γ : Type} {m : Exec (Conn Asked) Exn α} {t : Exec (Heap Cell) Exn γ} {b : γ}
    {f : γ → Exec (Conn Memory) Exn β} (ht : t.run h = (.ok b,h)) (hm : Serves c h m (f b) Q) :
    Serves c h m (onHeap t >>= f) Q := by
  have hrun : (onHeap t).run (withHeap c h) = (.ok b,withHeap c h) := by rw [run_onHeap,ht]
  rw [Serves,Builds,run_bind_ok hrun]
  exact hm

theorem Alike.any {R : α → β → Prop} {x : Except (Stop Exn) α} {y : Except (Stop Exn) β}
    (hxy : Alike R x y) : Alike (fun _ _ => True) x y := by
  cases hxy with
  | ok _ => exact .ok trivial
  | error e => exact .error e

theorem Serves.any {m : Exec (Conn Asked) Exn α} {m' : Exec (Conn Memory) Exn β}
    (hm : Serves c h m m' Q) : Serves c h m m' fun _ _ _ => True := by
  obtain ⟨h₁,hpre,hfin,hout⟩ := hm
  exact ⟨h₁,hpre,hfin,Alike.any hout⟩

theorem serves_generate (answer : Question → Except Exn Message)
    (enumerate : Value → Value) (question : Question) :
    Serves c h (Service.generate ⟨answer,enumerate⟩ question) (generate answer question)
      fun h' a b => h' = h ∧ a = b :=
  Serves.step ⟨h,List.prefix_rfl,rfl,.ok ⟨rfl,rfl⟩⟩ fun _ _ => serves_ofExcept _

theorem serves_parse (size : ℤ) :
    Serves c h (Conn.onStream (Json.parse size)) (onStreamAndHeap (parseFrom size))
      (Fresh h.length) := by
  obtain ⟨h',hpre,hfin,hout⟩ := builds_parseFrom size c.writer.stream h
  refine ⟨h',hpre,?_,?_⟩
  · rw [Conn.onStream,Conn.onWriter,SocketWriter.onStream,onStreamAndHeap,run_zoom,run_zoom,
      run_zoom]
    exact congrArg (fun s : Stream × Heap Cell =>
      (⟨{ c.writer with stream := s.1 },⟨c.app,s.2⟩⟩ : Conn Memory)) hfin
  · rw [Conn.onStream,Conn.onWriter,SocketWriter.onStream,onStreamAndHeap,run_zoom,run_zoom,
      run_zoom]
    exact hout

theorem serves_makeResponse (answer : Message) :
    Serves c h (ofResult (Service.makeResponse answer)) (onHeap (makeResponse answer))
      (Fresh h.length) := by
  obtain ⟨a,h',hrun,hpre,hfresh⟩ := run_makeResponse answer h
  rw [makeResponse_eq]
  refine ⟨h',hpre,?_,?_⟩ <;> rw [run_onHeap,hrun]
  · rfl
  · exact .ok hfresh

theorem serves_chatCompletions (answer : Question → Except Exn Message) (e : Enumeration)
    (req : Request) : Serves c h (Service.chatCompletions ⟨answer,Value.arrange e⟩ req)
      (chatCompletions answer e req) fun _ _ _ => True := by
  refine (serves_ofExcept _).step fun c _ => (serves_ofExcept _).step fun c length =>
    (serves_parse length).bind fun c h₁ v a _ hv => ?_
  obtain ⟨fp,ho,-⟩ := hv
  refine (serves_onHeap (readsAs_extractRequest ho.denotes)).bind fun c h₂ q q' _ hq => ?_
  obtain ⟨rfl,rfl⟩ := hq
  refine (serves_generate answer _ q).step fun c m =>
    (serves_makeResponse m).bind fun c h₃ v a _ hv => ?_
  obtain ⟨fp,ho,-⟩ := hv
  refine (serves_onWriter _).step fun c _ => serves_read (run_toString ho) ?_
  exact (serves_onWriter _).any

theorem serves_route (answer : Question → Except Exn Message) (e : Enumeration) (req : Request) :
    Serves c h (Router.handle (Service.routes ⟨answer,Value.arrange e⟩) req)
      (Router.handle (routes answer e) req) fun _ _ _ => True := by
  simp only [Service.routes,routes,Router.handle,Router.route]
  split
  · exact (serves_onWriter _).any
  · split
    · exact serves_chatCompletions answer e req
    · exact (serves_onWriter _).any

theorem serves_tryCatch {m : Exec (Conn Asked) Exn Unit} {m' : Exec (Conn Memory) Exn Unit}
    {handler : Exn → Exec (Conn Asked) Exn Unit} {handler' : Exn → Exec (Conn Memory) Exn Unit}
    (hm : Serves c h m m' fun _ _ _ => True)
    (hh : ∀ c₁ h₁ e, Serves c₁ h₁ (handler e) (handler' e) fun _ _ _ => True) :
    Serves c h (Exec.tryCatch m handler) (Exec.tryCatch m' handler') fun _ _ _ => True := by
  obtain ⟨h₁,hpre,hfin,hout⟩ := hm
  rcases hr : m.run c with ⟨r,c₁⟩
  rcases hr' : m'.run (withHeap c h) with ⟨r',t₁⟩
  rw [hr,hr'] at hfin hout
  dsimp only at hfin hout
  subst hfin
  rw [Serves,Builds]
  cases hout with
  | ok _ =>
    rw [run_tryCatch_ok hr,run_tryCatch_ok hr']
    exact ⟨h₁,hpre,rfl,.ok trivial⟩
  | error e =>
    cases e with
    | throw e =>
      rw [run_tryCatch_throw hr,run_tryCatch_throw hr']
      obtain ⟨h₂,hpre₂,hrest⟩ := hh c₁ h₁ e
      exact ⟨h₂,hpre.trans hpre₂,hrest⟩
    | _ =>
      rw [run_tryCatch_stop hr (by simp),run_tryCatch_stop hr' (by simp)]
      exact ⟨h₁,hpre,rfl,.error _⟩

theorem serves_rescue (e : Exn) :
    Serves c h (rescue e) (rescue e) fun _ _ _ => True := (serves_onWriter _).any

theorem serves_status : Serves c h (Exec.read fun c => c.writer.status)
    (Exec.read fun c => c.writer.status) fun h' a b => h' = h ∧ a = b :=
  ⟨h,List.prefix_rfl,rfl,.ok ⟨rfl,rfl⟩⟩

/-- The server on shared values does to every connection what the server on plain values does,
whatever values the process already has, and leaves those as they are. -/
theorem serves_handle (answer : Question → Except Exn Message) (e : Enumeration)
    (c : Conn Asked) (h : Heap Cell) :
    Serves c h (Service.handle ⟨answer,Value.arrange e⟩) (handle answer e) fun _ _ _ => True := by
  refine (serves_tryCatch ?_ fun _ _ => serves_rescue).bind
    fun c h _ _ _ _ => (serves_onWriter _).any
  refine (serves_onWriter _).step fun c req => (serves_route answer e req).bind fun c h _ _ _ _ =>
    (serves_onWriter _).step fun c _ => serves_status.step fun c status => ?_
  cases status with
  | none => exact builds_stop _
  | some _ => exact builds_pure trivial

end Simulation

/-! ## Many clients -/

section Clients

variable (answer : Question → Except Exn Message) (e : Enumeration)

theorem serves_task (c : Conn Asked) (h : Heap Cell) (client : Client) :
    Serves c h (task (Service.handle ⟨answer,Value.arrange e⟩) client)
      (task (handle answer e) client) fun _ _ _ => True := by
  refine serves_tryCatch ?_ fun _ _ _ => builds_pure trivial
  rw [handleClient,handleClient]
  split
  · exact builds_stop _
  · exact serves_handle answer e c h

theorem serveClient_refines (asked : Asked) (h : Heap Cell) (client : Client) :
    ∃ h', h <+: h' ∧ serveClient (handle answer e) ⟨asked,h⟩ client =
      ((serveClient (Service.handle ⟨answer,Value.arrange e⟩) asked client).1,
        ⟨(serveClient (Service.handle ⟨answer,Value.arrange e⟩) asked client).2,h'⟩) := by
  obtain ⟨h',hpre,hfin,hout⟩ := serves_task answer e ⟨.init client.stream,asked⟩ h client
  have hinit : withHeap ⟨.init client.stream,asked⟩ h = ⟨.init client.stream,⟨asked,h⟩⟩ := rfl
  rw [hinit] at hfin hout
  refine ⟨h',hpre,?_⟩
  simp only [serveClient]
  rcases hr : (task (Service.handle ⟨answer,Value.arrange e⟩) client).run
    ⟨.init client.stream,asked⟩ with ⟨r,c₁⟩
  rcases hr' : (task (handle answer e) client).run ⟨.init client.stream,⟨asked,h⟩⟩ with ⟨r',t₁⟩
  rw [hr,hr'] at hfin hout
  dsimp only at hfin hout ⊢
  subst hfin
  cases hout <;> rfl

/-- With shared values, any number of clients get what the service on plain values answers, and
no client changes a value that an earlier one left behind. -/
theorem serveAll_refines (clients : List Client) (asked : Asked) (h : Heap Cell) :
    ∃ h', h <+: h' ∧ serveAll (handle answer e) ⟨asked,h⟩ clients =
      ((serveAll (Service.handle ⟨answer,Value.arrange e⟩) asked clients).1,
        ⟨(serveAll (Service.handle ⟨answer,Value.arrange e⟩) asked clients).2,h'⟩) := by
  induction clients generalizing asked h with
  | nil => exact ⟨h,List.prefix_rfl,rfl⟩
  | cons c cs ih =>
    obtain ⟨h₁,hpre,hone⟩ := serveClient_refines answer e asked h c
    simp only [serveAll,hone]
    split
    · exact ⟨h₁,hpre,rfl⟩
    · obtain ⟨h₂,hpre₂,hrest⟩ := ih _ h₁
      exact ⟨h₂,hpre.trans hpre₂,by rw [hrest]⟩

end Clients

/-- In every state that the threads of the process can reach, the replies so far are those of
the service on plain values to the first connections in the order of `accept`, and the values
that were there at first are as they were. -/
theorem process_refines {num : ℤ} {answer : Question → Except Exn Message} {e : Enumeration}
    {clients : Task → Client} {calls : List Http.Call} {asked : Asked} {h : Heap Cell}
    {s : Process num Memory}
    (hr : (Process.system num (handle answer e) clients).Reachable
      (Process.init num calls ⟨asked,h⟩) s) :
    s.replies.length ≤ s.server.accepted ∧ h <+: s.app.heap ∧
      serveAll (Service.handle ⟨answer,Value.arrange e⟩) asked
        ((List.range s.replies.length).map clients) = (s.replies,s.app.asked) := by
  obtain ⟨hle,hserved⟩ := Process.replies_serial hr
  obtain ⟨h',hpre,hrefines⟩ :=
    serveAll_refines answer e ((List.range s.replies.length).map clients) asked h
  rw [hrefines,Prod.mk.injEq] at hserved
  refine ⟨hle,?_,Prod.ext hserved.1 ?_⟩
  · rw [← hserved.2]
    exact hpre
  · rw [← hserved.2]

/-- The client asks for a chat completion. The generator gives a fixed answer, and maps are
enumerated in the order of insertion. -/
theorem process_refines_chat :
    let answer : Question → Except Exn Message := fun _ => .ok ⟨ascii "assistant",ascii "hi"⟩
    let e : Enumeration := ⟨id,fun _ => .refl _⟩
    let clients : Task → Client := fun _ => ⟨none,.ofBytes (posted hello)⟩
    let s := (Process.system 1 (handle answer e) clients).final (Process.init 1 [] ⟨[],[.nil]⟩)
      (Process.oneClient ++ [.pool (.finish Process.worker 0)])
    s.replies.length ≤ s.server.accepted ∧ [Cell.nil] <+: s.app.heap ∧
      serveAll (Service.handle ⟨answer,Value.arrange e⟩) []
        ((List.range s.replies.length).map clients) = (s.replies,s.app.asked) :=
  process_refines ⟨_,Process.oneClient_valid _ _ _,rfl⟩

/-- The order of enumeration is a lawful one. -/
theorem lawful_arrange (answer : Question → Except Exn Message) (e : Enumeration) :
    (⟨answer,Value.arrange e⟩ : Env).Lawful := fun _ hv => enumerates_arrange hv

end OnHeap
end Gabby.Service
