import Gabby.HttpCalls

/-! The order in which a response is to be written. The writer notices a call out of order
only after the first data. -/
namespace Gabby.Http

/-- The parts of a response: the headers in the order in which they are written. -/
structure Response where
  status : StatusCode
  headers : List (Bytes × Bytes)
  body : Bytes

namespace Response

def head (r : Response) : Bytes :=
  SocketWriter.statusLine r.status ++ crlf ++
    r.headers.flatMap fun h => SocketWriter.headerLine h.1 h.2

def text (r : Response) : Bytes := r.head ++ crlf ++ r.body

end Response

namespace SocketWriter

open Exec

inductive Phase
  | start | head | body
  deriving DecidableEq

/-- The documented order: the status once, then headers, then data, with an implicit status
before the first data. Nothing follows a call that is out of order. -/
def Phase.next : Phase → Call → Option Phase
  | p, .flush => some p
  | start, .writeStatus _ => some head
  | head, .writeHeader _ _ => some head
  | _, .writeData _ => some body
  | _, _ => none

def phases : System Phase Call where
  enabled _ _ := True
  next p c := (p.next c).getD p

def phaseAfter (cs : List Call) : Phase := phases.final .start cs

def Misuse (cs : List Call) (c : Call) : Prop := (phaseAfter cs).next c = none

def MadeBy (cs : List Call) (r : Response) : Prop :=
  ∀ h ∈ r.headers, h = (ascii "Connection",ascii "close") ∨ .writeHeader h.1 h.2 ∈ cs

/-- At every moment of the run of `cs` the output is a part of one response, and every call
that is out of order is refused. -/
structure EnforcesOrder (f : Stream) (cs : List Call) : Prop where
  response : ∃ r : Response, MadeBy cs r ∧ ∀ w ∈ points (init f) cs, w.stream.output <+: r.text
  refuses : ∀ bs c cs', cs = bs ++ c::cs' → Misuse bs c →
    ∃ e, c.exec.run (calls.final (init f) bs) = (.error (.throw e),calls.final (init f) bs)

/-! ## The writer in a phase -/

/-- Where the writer stands in a phase that was reached in order. -/
def At (cs : List Call) (w : SocketWriter) : Phase → Prop
  | .start => w.stream.output = [] ∧ w.status = none ∧ w.sendingData = false
  | .head => (∃ r, MadeBy cs r ∧ w.stream.output = r.head) ∧ w.status.isSome ∧
      w.sendingData = false
  | .body => (∃ r, MadeBy cs r ∧ w.stream.output = r.text) ∧ w.sendingData = true

variable {w : SocketWriter} {p : Phase} {cs cs' : List Call} {c : Call} {r : Response}

theorem MadeBy.mono (h : MadeBy cs r) (hs : cs ⊆ cs') : MadeBy cs' r :=
  fun x hx => (h x hx).imp id fun hm => hs hm

theorem At.mono (h : At cs w p) (hs : cs ⊆ cs') : At cs' w p := by
  cases p with
  | start => exact h
  | head =>
    obtain ⟨⟨r,hr,ho⟩,h⟩ := h
    exact ⟨⟨r,hr.mono hs,ho⟩,h⟩
  | body =>
    obtain ⟨⟨r,hr,ho⟩,h⟩ := h
    exact ⟨⟨r,hr.mono hs,ho⟩,h⟩

theorem At.congr {t : SocketWriter} (h : At cs w p) (ho : t.stream.output = w.stream.output)
    (ha : Agree t w) : At cs t p := by
  cases p with
  | start => exact ⟨ho.trans h.1,ha.status.trans h.2.1,ha.sendingData.trans h.2.2⟩
  | head => exact ⟨by rw [ho]; exact h.1,by rw [ha.status]; exact h.2.1,ha.sendingData.trans h.2.2⟩
  | body => exact ⟨by rw [ho]; exact h.1,ha.sendingData.trans h.2⟩

theorem At.not_refused (h : At cs w p) (hp : p ≠ .body) (c : Call) : c.refused w = false := by
  have hs : w.sendingData = false := by
    cases p with
    | start => exact h.2.2
    | head => exact h.2.2
    | body => exact absurd rfl hp
  cases c <;> simp [Call.refused,hs]

theorem At.refused_of_body (h : At cs w .body) (hc : c.refused w ≠ true) :
    c = .flush ∨ ∃ data, c = .writeData data := by
  cases c with
  | writeStatus status => exact absurd h.2 hc
  | writeHeader key value => exact absurd h.2 hc
  | writeData data => exact .inr ⟨data,rfl⟩
  | flush => exact .inl rfl

theorem connection_madeBy (cs : List Call) (status : StatusCode) (body : Bytes) :
    MadeBy cs ⟨status,[(ascii "Connection",ascii "close")],body⟩ :=
  fun h hh => .inl (by simpa using hh)

/-- A call in order leads to the next phase, and a call that is refused to no other. -/
theorem at_next (hp : w.stream.plan = []) (h : At cs w p) (hok : p.next c = none → p = .body) :
    At (cs ++ [c]) (calls.next w c) ((p.next c).getD p) := by
  have hsub : cs ⊆ cs ++ [c] := List.subset_append_left _ _
  by_cases hr : c.refused w = true
  · -- only after the first data, where the phase stays
    have hb : p = .body := by
      by_contra hne
      simp [h.not_refused hne c] at hr
    subst hb
    rw [next_of_refused hr]
    cases c <;> exact h.mono hsub
  · obtain ⟨t,ht,-,hot,hag⟩ := run_exec_sends hp (by simpa using hr)
    rw [show calls.next w c = t from congrArg Prod.snd ht]
    cases c with
    | flush => exact (h.congr (by simpa [Call.actions] using hot) hag).mono hsub
    | writeStatus status =>
      cases p with
      | start =>
        rw [h.1] at hot
        refine ⟨⟨_,connection_madeBy _ status [],?_⟩,?_,?_⟩
        · rw [hot]
          simp [Call.actions,headActions,Response.head]
        · rw [hag.status]
          rfl
        · rw [hag.sendingData]
          exact h.2.2
      | head => exact absurd (hok rfl) (by decide)
      | body => simpa using h.refused_of_body hr
    | writeHeader key value =>
      cases p with
      | start => exact absurd (hok rfl) (by decide)
      | head =>
        obtain ⟨⟨r,hm,ho⟩,hst,hsd⟩ := h
        refine ⟨⟨⟨r.status,r.headers ++ [(key,value)],r.body⟩,?_,?_⟩,?_,?_⟩
        · intro x hx
          rcases List.mem_append.mp hx with hx | hx
          · exact hm.mono hsub x hx
          · obtain rfl : x = (key,value) := by simpa using hx
            exact .inr (by simp)
        · rw [hot,ho]
          simp [Call.actions,Response.head]
        · rw [hag.status]
          exact hst
        · rw [hag.sendingData]
          exact hsd
      | body => simpa using h.refused_of_body hr
    | writeData data =>
      cases p with
      | start =>
        refine ⟨⟨_,connection_madeBy _ .ok data,?_⟩,?_⟩
        · rw [hot,h.1]
          simp [Call.actions,openActions,h.2.1,h.2.2,headActions,Response.text,Response.head]
        · rw [hag.sendingData]
          simp [Call.actions,openActions,h.2.2,Mark.record]
      | head =>
        obtain ⟨⟨r,hm,ho⟩,hst,hsd⟩ := h
        obtain ⟨status,hst⟩ := Option.isSome_iff_exists.mp hst
        refine ⟨⟨⟨r.status,r.headers,data⟩,hm.mono hsub,?_⟩,?_⟩
        · rw [hot,ho]
          simp [Call.actions,openActions,hsd,hst,Response.text,Response.head]
        · rw [hag.sendingData]
          simp [Call.actions,openActions,hsd,Mark.record]
      | body =>
        obtain ⟨⟨r,hm,ho⟩,hsd⟩ := h
        refine ⟨⟨⟨r.status,r.headers,r.body ++ data⟩,hm.mono hsub,?_⟩,?_⟩
        · rw [hot,ho]
          simp [Call.actions,openActions,hsd,Response.text,Response.head]
        · rw [hag.sendingData]
          simp [Call.actions,openActions,hsd]

/-! ## Runs -/

variable {f : Stream}

@[simp] theorem phaseAfter_append (cs : List Call) (c : Call) :
    phaseAfter (cs ++ [c]) = ((phaseAfter cs).next c).getD (phaseAfter cs) := by
  simp [phaseAfter,phases]

/-- The writer follows the phases as long as no call out of order is accepted. -/
theorem at_calls (hp : f.plan = []) (hs : f.sent = []) (bs : List Call)
    (hok : ∀ as c as', bs = as ++ c::as' → At as (calls.final (init f) as) (phaseAfter as) →
      Misuse as c → phaseAfter as = .body) : At bs (calls.final (init f) bs) (phaseAfter bs) := by
  induction bs using List.reverseRecOn with
  | nil => exact ⟨by simp [init,Stream.output,hs],rfl,rfl⟩
  | append_singleton bs c ih =>
    have hat := ih fun as c' as' h => hok as c' (as' ++ [c]) (by simp [h])
    rw [System.final_append,phaseAfter_append]
    exact at_next (plan_calls hp bs) hat (hok bs c [] rfl hat)

theorem At.response (h : At cs w p) : ∃ r, MadeBy cs r ∧ w.stream.output <+: r.text := by
  cases p with
  | start => exact ⟨_,connection_madeBy cs .ok [],by rw [h.1]; exact List.nil_prefix⟩
  | head =>
    obtain ⟨⟨r,hm,ho⟩,-⟩ := h
    refine ⟨r,hm,?_⟩
    rw [ho,Response.text,List.append_assoc]
    exact List.prefix_append _ _
  | body =>
    obtain ⟨⟨r,hm,ho⟩,-⟩ := h
    exact ⟨r,hm,by rw [ho]⟩

theorem EnforcesOrder.body_of_misuse {bs : List Call} (h : EnforcesOrder f cs)
    (hp : f.plan = []) (hcs : cs = bs ++ c::cs')
    (hat : At bs (calls.final (init f) bs) (phaseAfter bs)) (hm : Misuse bs c) :
    phaseAfter bs = .body := by
  by_contra hne
  obtain ⟨e,he⟩ := h.refuses bs c cs' hcs hm
  obtain ⟨t,ht,-⟩ := run_exec_sends (plan_calls hp bs) (hat.not_refused hne c)
  rw [ht] at he
  cases he

theorem At.refused_of_misuse {bs : List Call} (h : At bs w .body) (hb : phaseAfter bs = .body)
    (hm : Misuse bs c) : c.refused w = true := by
  rw [Misuse,hb] at hm
  cases c with
  | writeStatus status => exact h.2
  | writeHeader key value => exact h.2
  | writeData data => cases hm
  | flush => cases hm

/-- The order is enforced exactly when every call that is out of order comes after the first
data. -/
theorem enforcesOrder_iff (hp : f.plan = []) (hs : f.sent = []) (cs : List Call) :
    EnforcesOrder f cs ↔
      ∀ bs c cs', cs = bs ++ c::cs' → Misuse bs c → phaseAfter bs = .body := by
  constructor
  · intro h bs c cs' hcs hm
    have hat := at_calls hp hs bs fun as d as' ha =>
      h.body_of_misuse hp (show cs = as ++ d::(as' ++ c::cs') by simp [hcs,ha])
    exact h.body_of_misuse hp hcs hat hm
  · intro h
    have hat : ∀ bs cs', cs = bs ++ cs' → At bs (calls.final (init f) bs) (phaseAfter bs) :=
      fun bs cs' hcs => at_calls hp hs bs fun as c as' ha _ =>
        h as c (as' ++ cs') (by simp [hcs,ha])
    obtain ⟨r,hm,hr⟩ := (hat cs [] (by simp)).response
    refine ⟨⟨r,hm,fun w hw => (sent_of_mem_points hw).trans hr⟩,fun bs c cs' hcs hc => ?_⟩
    have hb := h bs c cs' hcs hc
    have hbody := hat bs (c::cs') hcs
    rw [hb] at hbody
    exact ⟨_,by rw [run_exec,if_pos (hbody.refused_of_misuse hb hc)]⟩

theorem enforcesOrder_iff_late : EnforcesOrder (.ofBytes [])
      [.writeStatus .ok,.writeHeader (ascii "A") (ascii "b"),.writeData (ascii "x"),
        .writeStatus .notFound,.writeHeader (ascii "C") (ascii "d")] ↔
      ∀ bs c cs', [.writeStatus .ok,.writeHeader (ascii "A") (ascii "b"),.writeData (ascii "x"),
        .writeStatus .notFound,.writeHeader (ascii "C") (ascii "d")] = bs ++ c::cs' →
        Misuse bs c → phaseAfter bs = .body :=
  enforcesOrder_iff rfl rfl _

/-- A second status is sent. -/
theorem enforcesOrder_twice :
    ¬ ∀ (f : Stream) (cs : List Call), f.plan = [] → f.sent = [] → EnforcesOrder f cs := by
  intro h
  obtain ⟨e,he⟩ := (h (.ofBytes []) [.writeStatus .ok,.writeStatus .notFound] rfl rfl).refuses
    [.writeStatus .ok] (.writeStatus .notFound) [] rfl rfl
  have hrun : ((Call.writeStatus .notFound).exec.run
      (calls.final (init (.ofBytes [])) [.writeStatus .ok])).1 = .ok () := by decide +kernel
  rw [he] at hrun
  cases hrun

end SocketWriter
end Gabby.Http
