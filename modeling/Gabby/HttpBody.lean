import Gabby.HttpCounts

/-! The body of a response on a stream that never fails. It is the data that was written, in
order, and nothing that is refused adds to it. -/
namespace Gabby.Http.SocketWriter

open Exec

def implicitHead : Bytes := ascii "HTTP/1.1 200 OK\r\nConnection: close\r\n"

theorem implicitHead_eq : (headActions .ok).flatMap Prod.fst = implicitHead := by decide

variable {w : SocketWriter} {f : Stream} {c : Call}

/-! ## Before the first data -/

/-- No data has been sent, and there is a status when one of the calls set it. -/
structure Before (cs : List Call) (w : SocketWriter) : Prop where
  plan : w.stream.plan = []
  sendingData : w.sendingData = false
  status : w.status.isSome = cs.any Call.isWriteStatus

theorem before_next {cs : List Call} (h : Before cs w) (hc : c.isWriteData = false) :
    Before (cs ++ [c]) (calls.next w c) := by
  have hr : c.refused w = false := by cases c <;> simp [Call.refused,h.sendingData]
  obtain ⟨t,ht,hp,-,hag⟩ := run_exec_sends h.plan hr
  rw [show calls.next w c = t from congrArg Prod.snd ht]
  refine ⟨hp,?_,?_⟩
  · rw [hag.sendingData,← h.sendingData]
    cases c with
    | writeData data => cases hc
    | _ => rfl
  · rw [hag.status,List.any_append,← h.status]
    cases c with
    | writeData data => cases hc
    | writeStatus status => simp [Call.actions,headActions,Mark.record,Call.isWriteStatus]
    | writeHeader key value => simp [Call.actions,Mark.record,Call.isWriteStatus]
    | flush => simp [Call.actions,Call.isWriteStatus]

theorem before_calls (hp : f.plan = []) (cs : List Call)
    (h : ∀ c ∈ cs, c.isWriteData = false) : Before cs (calls.final (init f) cs) := by
  induction cs using List.reverseRecOn with
  | nil => exact ⟨hp,rfl,rfl⟩
  | append_singleton cs c ih =>
    rw [System.final_append]
    exact before_next (ih fun d hd => h d (by simp [hd])) (h c (by simp))

/-! ## After it -/

structure Sending (w : SocketWriter) : Prop where
  plan : w.stream.plan = []
  sendingData : w.sendingData = true

theorem Sending.refused (h : Sending w) (c : Call) : c.refused w = c.isHead := by
  cases c <;> simp [Call.refused,Call.isHead,h.sendingData]

theorem sending_next (h : Sending w) (c : Call) : Sending (calls.next w c) ∧
    (calls.next w c).stream.output = w.stream.output ++ c.data := by
  cases hr : c.refused w with
  | true =>
    have hd : c.data = [] := by
      rw [h.refused] at hr
      cases c <;> first | rfl | cases hr
    rw [next_of_refused hr,hd]
    exact ⟨h,by simp⟩
  | false =>
    obtain ⟨t,ht,hp,ho,hag⟩ := run_exec_sends h.plan hr
    rw [show calls.next w c = t from congrArg Prod.snd ht,ho]
    have hsd := hag.sendingData
    rw [h.refused] at hr
    cases c with
    | writeData data =>
      simp only [Call.actions,openActions,h.sendingData,if_true,List.nil_append,
        recordAll_dataActions,flatMap_dataActions] at hsd ⊢
      exact ⟨⟨hp,hsd⟩,rfl⟩
    | flush => exact ⟨⟨hp,hsd.trans h.sendingData⟩,rfl⟩
    | _ => cases hr

theorem sending_calls (h : Sending w) (cs : List Call) : Sending (calls.final w cs) ∧
    (calls.final w cs).stream.output = w.stream.output ++ cs.flatMap Call.data := by
  induction cs generalizing w with
  | nil => exact ⟨h,by simp⟩
  | cons c cs ih =>
    obtain ⟨hs,ho⟩ := sending_next h c
    obtain ⟨hs',ho'⟩ := ih hs
    refine ⟨hs',?_⟩
    rw [System.final_cons,ho',ho,List.flatMap_cons,List.append_assoc]

/-- The first data comes after the head, which it completes, and the blank line. -/
theorem first_data {cs : List Call} (h : Before cs w) (data : Bytes) :
    Sending (calls.next w (.writeData data)) ∧
      (calls.next w (.writeData data)).stream.output = w.stream.output ++
        (if cs.any Call.isWriteStatus then [] else implicitHead) ++ crlf ++ data := by
  obtain ⟨t,ht,hp,ho,hag⟩ := run_exec_sends h.plan (c:=.writeData data) rfl
  rw [show calls.next w (.writeData data) = t from congrArg Prod.snd ht,ho,← h.status]
  refine ⟨⟨hp,?_⟩,?_⟩
  · rw [hag.sendingData]
    simp [Call.actions,openActions,h.sendingData,Mark.record]
  · cases hst : w.status <;> simp [Call.actions,openActions,h.sendingData,hst,implicitHead_eq]

/-! ## The count -/

theorem whole_nil (ps : List Bytes) : Whole [] ps := by
  induction ps with
  | nil => trivial
  | cons p ps ih => exact .inr ⟨rfl,ih⟩

/-- On a stream that never fails the count is right as long as it can be. -/
theorem counts_calls (hp : f.plan = []) (hs : f.sent = []) (cs : List Call)
    (hlen : (calls.final (init f) cs).stream.output.length < 2^31) :
    Counts (calls.final (init f) cs) := by
  induction cs using List.reverseRecOn with
  | nil => constructor <;> simp [init,Stream.output,hs]
  | append_singleton cs c ih =>
    rw [System.final_append] at hlen ⊢
    have hsent := sent_next (calls.final (init f) cs) c
    have hcounts := ih (hsent.length_le.trans_lt hlen)
    refine counts_next hcounts ?_
    rcases written_exec (calls.final (init f) cs) c with hr | h
    · exact uncut_of_nil hcounts (if_pos hr)
    · refine ⟨?_,h.length_eq ▸ hlen⟩
      rw [plan_calls (w:=init f) hp cs]
      exact whole_nil _

/-! ## Runs -/

/-- What a run sends in which `data` is the first data, between the calls `cs` and `cs'`. -/
structure SendsBody (f : Stream) (cs : List Call) (data : Bytes) (cs' : List Call) : Prop where
  /-- What came before, completed by an implicit status, then a blank line and all data. -/
  output : (calls.final (init f) (cs ++ .writeData data :: cs')).stream.output =
    (calls.final (init f) cs).stream.output ++
      (if cs.any Call.isWriteStatus then [] else implicitHead) ++ crlf ++
      (.writeData data :: cs').flatMap Call.data
  /-- A status or a header after the first data is refused and changes nothing. -/
  refuses : ∀ bs c bs', cs' = bs ++ c::bs' → c.isHead = true → ∃ what,
    c.exec.run (calls.final (init f) (cs ++ .writeData data :: bs)) =
      (.error (.throw (.internalError what)),calls.final (init f) (cs ++ .writeData data :: bs))
  /-- After every call the count is the length of the output. -/
  counts : ∀ bs bs', cs ++ .writeData data :: cs' = bs ++ bs' →
    (calls.final (init f) bs).bytesWritten = (calls.final (init f) bs).stream.output.length

/-- On a stream that never fails the body is exactly the data that was written. -/
theorem sendsBody (hp : f.plan = []) (hs : f.sent = []) (cs cs' : List Call) (data : Bytes)
    (hcs : ∀ c ∈ cs, c.isWriteData = false)
    (hlen : (calls.final (init f) (cs ++ .writeData data :: cs')).stream.output.length < 2^31) :
    SendsBody f cs data cs' := by
  obtain ⟨hsend,hfirst⟩ := first_data (before_calls hp cs hcs) data
  refine ⟨?_,fun bs c bs' _ hc => ?_,fun bs bs' hbs => ?_⟩
  · rw [System.final_append,System.final_cons,(sending_calls hsend cs').2,hfirst]
    simp [Call.data]
  · have h := (sending_calls hsend bs).1
    rw [System.final_append,System.final_cons]
    exact ⟨_,by rw [run_exec,h.refused,hc]; rfl⟩
  · refine (counts_calls hp hs bs ?_).count
    rw [hbs,System.final_append] at hlen
    exact (sent_final _ bs').length_le.trans_lt hlen

/-- A header without a status, and calls that come too late. -/
theorem sendsBody_implicit : SendsBody (.ofBytes []) [.writeHeader (ascii "A") (ascii "b")]
    (ascii "x") [.flush,.writeStatus .notFound,.writeData (ascii "yz")] :=
  sendsBody rfl rfl _ _ _ (by decide) (by decide +kernel)

end Gabby.Http.SocketWriter
