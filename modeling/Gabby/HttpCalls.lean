import Gabby.HttpServer
import Gabby.Transition

/-! The operations of the response writer in any order. A caller may catch what one of them
throws and go on with the next. -/
namespace Gabby.Http.SocketWriter

open Exec

inductive Call
  | writeStatus (status : StatusCode)
  | writeHeader (key value : Bytes)
  | writeData (data : Bytes)
  | flush
  deriving DecidableEq

namespace Call

def exec : Call → Exec SocketWriter Exn Unit
  | writeStatus status => SocketWriter.writeStatus status
  | writeHeader key value => SocketWriter.writeHeader key value
  | writeData data => SocketWriter.writeData data
  | flush => SocketWriter.flush

def data : Call → Bytes
  | writeData data => data
  | _ => []

def isWriteData : Call → Bool
  | writeData _ => true
  | _ => false

def isWriteStatus : Call → Bool
  | writeStatus _ => true
  | _ => false

def isHead : Call → Bool
  | writeStatus _ | writeHeader _ _ => true
  | _ => false

end Call

/-- A caller that goes on with the next call, whether the last one returned or threw. -/
def calls : System SocketWriter Call where
  enabled _ _ := True
  next w c := (c.exec.run w).2

theorem valid_calls (w : SocketWriter) (cs : List Call) : calls.Valid w cs := by
  induction cs generalizing w with
  | nil => trivial
  | cons c cs ih => exact ⟨trivial,ih _⟩

/-- The points that some calls pass, between them and inside of them. -/
def points (w : SocketWriter) : List Call → List SocketWriter
  | [] => [w]
  | c::cs => (c.exec w).points w ++ points (calls.next w c) cs

/-! ## What the operations write -/

def headerLine (key value : Bytes) : Bytes := key ++ ascii ": " ++ value ++ crlf

inductive Mark
  | nothing | header (key value : Bytes) | status (status : StatusCode) | blank

def Mark.record : Mark → SocketWriter → SocketWriter
  | nothing, w => w
  | header key value, w => { w with headers := w.headers.assign key value }
  | status s, w => { w with
      headers := w.headers.assign (ascii "Connection") (ascii "close"), status := some s }
  | blank, w => { w with sendingData := true }

def perform : List (Bytes × Mark) → Exec SocketWriter Exn Unit
  | [] => pure ()
  | a::as => do
    write a.1
    Exec.modify a.2.record
    perform as

def headActions (status : StatusCode) : List (Bytes × Mark) :=
  [(statusLine status ++ crlf,.nothing),
    (headerLine (ascii "Connection") (ascii "close"),.status status)]

def openActions (w : SocketWriter) : List (Bytes × Mark) :=
  if w.sendingData then []
  else (if w.status.isNone then headActions .ok else []) ++ [(crlf,.blank)]

def dataActions (data : Bytes) : List (Bytes × Mark) :=
  if data.isEmpty then [] else [(data,.nothing)]

@[simp] theorem flatMap_dataActions (data : Bytes) :
    (dataActions data).flatMap Prod.fst = data := by
  cases data <;> simp [dataActions]

def recordAll (as : List (Bytes × Mark)) (w : SocketWriter) : SocketWriter :=
  as.foldl (fun w a => a.2.record w) w

@[simp] theorem recordAll_nil (w : SocketWriter) : recordAll [] w = w := rfl
@[simp] theorem recordAll_cons (a : Bytes × Mark) (as : List (Bytes × Mark)) (w : SocketWriter) :
    recordAll (a::as) w = recordAll as (a.2.record w) := rfl
@[simp] theorem recordAll_append (as bs : List (Bytes × Mark)) (w : SocketWriter) :
    recordAll (as ++ bs) w = recordAll bs (recordAll as w) := List.foldl_append
@[simp] theorem recordAll_dataActions (data : Bytes) (w : SocketWriter) :
    recordAll (dataActions data) w = w := by
  cases data <;> rfl

namespace Call

def refused (w : SocketWriter) : Call → Bool
  | writeStatus _ | writeHeader _ _ => w.sendingData
  | writeData _ | flush => false

def actions (w : SocketWriter) : Call → List (Bytes × Mark)
  | writeStatus status => headActions status
  | writeHeader key value => [(headerLine key value,.header key value)]
  | writeData data => openActions w ++ dataActions data
  | flush => []

def settle : Call → SocketWriter → SocketWriter
  | flush, w => { w with stream := w.stream.fflush }
  | _, w => w

@[simp] theorem settle_plan (c : Call) (w : SocketWriter) :
    (c.settle w).stream.plan = w.stream.plan := by
  cases c <;> simp [settle]

@[simp] theorem settle_sent (c : Call) (w : SocketWriter) :
    (c.settle w).stream.sent = w.stream.sent := by
  cases c <;> simp [settle]

@[simp] theorem settle_output (c : Call) (w : SocketWriter) :
    (c.settle w).stream.output = w.stream.output := by
  rw [Stream.output,settle_sent,Stream.output]

@[simp] theorem settle_status (c : Call) (w : SocketWriter) : (c.settle w).status = w.status := by
  cases c <;> rfl

@[simp] theorem settle_sendingData (c : Call) (w : SocketWriter) :
    (c.settle w).sendingData = w.sendingData := by
  cases c <;> rfl

@[simp] theorem settle_bytesWritten (c : Call) (w : SocketWriter) :
    (c.settle w).bytesWritten = w.bytesWritten := by
  cases c <;> rfl

end Call

/-! ### One write -/

section Write

variable {s : Bytes} {w : SocketWriter}

def writeError (f : Stream) : Exn :=
  if f.err && f.errno == EAGAIN then .timeoutException
  else .internalError (ascii "failed to write data")

theorem run_write_eq (hs : s ≠ []) : (write s).run w =
    if (w.stream.fwrite s).1 = 0 then
      (.error (.throw (writeError (w.stream.fwrite s).2)),
        { w with stream := (w.stream.fwrite s).2 })
    else (.ok (),{ w with
      stream := (w.stream.fwrite s).2
      bytesWritten := (w.bytesWritten + s.length).bmod (2^32) }) := by
  have hf : (onStream (fwrite s)).run w =
      (.ok (w.stream.fwrite s).1,{ w with stream := (w.stream.fwrite s).2 }) := rfl
  rw [write,if_neg (by simpa using hs),run_bind_ok hf]
  split
  · rw [run_bind_ok (run_read _ _),run_bind_ok (run_read _ _),writeError]
    split <;> rfl
  · rfl

theorem run_write_frame (s : Bytes) (w : SocketWriter) : ∃ f n,
    ((write s).run w).2 = { w with stream := f, bytesWritten := n } := by
  by_cases hs : s = []
  · subst hs
    exact ⟨_,_,rfl⟩
  · rw [run_write_eq hs]
    split <;> exact ⟨_,_,rfl⟩

end Write

/-! ### Calls as lists of pieces -/

section Perform

variable {w t : SocketWriter} {a : Bytes × Mark} {as : List (Bytes × Mark)}

theorem run_perform_ok (h : (write a.1).run w = (.ok (),t)) :
    (perform (a::as)).run w = (perform as).run (a.2.record t) := by
  rw [perform,run_bind_ok h]
  rfl

theorem run_perform_error {e : Stop Exn} (h : (write a.1).run w = (.error e,t)) :
    (perform (a::as)).run w = (.error e,t) := by
  rw [perform,run_bind_error h]

theorem run_perform_append_ok {bs : List (Bytes × Mark)} (h : (perform as).run w = (.ok (),t)) :
    (perform (as ++ bs)).run w = (perform bs).run t := by
  induction as generalizing w with
  | nil =>
    cases h
    rfl
  | cons a as ih =>
    rcases hw : (write a.1).run w with ⟨e | ⟨⟩,u⟩
    · rw [run_perform_error hw] at h
      cases h
    · rw [run_perform_ok hw] at h
      rw [List.cons_append,run_perform_ok hw,ih h]

theorem run_perform_append_error {bs : List (Bytes × Mark)} {e : Stop Exn}
    (h : (perform as).run w = (.error e,t)) : (perform (as ++ bs)).run w = (.error e,t) := by
  induction as generalizing w with
  | nil => cases h
  | cons a as ih =>
    rcases hw : (write a.1).run w with ⟨e | ⟨⟩,u⟩
    · rw [run_perform_error hw] at h
      rw [List.cons_append,run_perform_error hw,h]
    · rw [run_perform_ok hw] at h
      rw [List.cons_append,run_perform_ok hw,ih h]

theorem run_writeHeader_eq (key value : Bytes) (h : w.sendingData = false) :
    (writeHeader key value).run w = (perform [(headerLine key value,.header key value)]).run w := by
  rw [writeHeader,run_bind_ok (run_read _ _),if_neg (by simp [h])]
  rcases hw : (write (headerLine key value)).run w with ⟨e | ⟨⟩,t⟩
  · rw [run_perform_error hw]
    exact run_bind_error hw
  · rw [run_perform_ok hw]
    exact run_bind_ok hw

theorem run_writeStatus_eq (status : StatusCode) (h : w.sendingData = false) :
    (writeStatus status).run w = (perform (headActions status)).run w := by
  rw [writeStatus,run_bind_ok (run_read _ _),if_neg (by simp [h]),headActions]
  obtain ⟨f,n,hf⟩ := run_write_frame (statusLine status ++ crlf) w
  rcases hw : (write (statusLine status ++ crlf)).run w with ⟨e | ⟨⟩,t⟩
  · rw [run_bind_error hw,run_perform_error hw]
  · rw [hw] at hf
    have ht : t.sendingData = false := by rw [show t = _ from hf,h]
    rw [run_bind_ok hw,run_perform_ok hw]
    have hheader := run_writeHeader_eq (ascii "Connection") (ascii "close") ht
    rcases hu : (write (headerLine (ascii "Connection") (ascii "close"))).run t with ⟨e | ⟨⟩,u⟩
    · rw [run_perform_error hu] at hheader
      rw [run_bind_error hheader,run_perform_error (t:=u) hu]
    · rw [run_perform_ok hu] at hheader
      rw [run_bind_ok hheader,run_perform_ok (t:=u) hu]
      rfl

theorem run_writeData_eq (data : Bytes) :
    (writeData data).run w = (perform ((Call.writeData data).actions w)).run w := by
  have hdata : ∀ t, (write data).run t = (perform (dataActions data)).run t := by
    intro t
    by_cases hd : data = []
    · subst hd
      rfl
    · rw [dataActions,if_neg (by simpa using hd)]
      rcases ht : (write data).run t with ⟨e | ⟨⟩,u⟩
      · rw [run_perform_error ht]
      · rw [run_perform_ok ht]
        rfl
  rw [writeData,run_bind_ok (run_read _ _),Call.actions,openActions]
  cases hs : w.sendingData with
  | true => exact hdata w
  | false =>
    simp only [Bool.not_false,if_true,Bool.false_eq_true,if_false]
    -- the blank line and the data, once there is a status
    have htail : ∀ t, (write crlf >>= fun _ => (Exec.modify fun w : SocketWriter =>
        { w with sendingData := true }) >>= fun _ => write data).run t =
        (perform ((crlf,.blank)::dataActions data)).run t := by
      intro t
      rcases ht : (write crlf).run t with ⟨e | ⟨⟩,u⟩
      · rw [run_bind_error ht,run_perform_error ht]
      · rw [run_bind_ok ht,run_perform_ok ht,run_bind_ok (run_modify _ _),hdata]
        rfl
    rw [run_bind_ok (run_read _ _),List.append_assoc,List.singleton_append]
    cases hst : w.status with
    | some s => exact htail w
    | none =>
      simp only [Option.isNone_none,if_true]
      have hhead := run_writeStatus_eq .ok hs
      rcases hh : (perform (headActions .ok)).run w with ⟨e | ⟨⟩,t⟩
      · rw [hh] at hhead
        rw [run_bind_error hhead,run_perform_append_error hh]
      · rw [hh] at hhead
        rw [run_bind_ok hhead,run_perform_append_ok hh]
        exact htail t

/-- A call is refused without an effect, or it writes its pieces. -/
theorem run_exec (c : Call) (w : SocketWriter) : c.exec.run w =
    if c.refused w then (.error (.throw (.internalError (ascii "failed to send http status"))),w)
    else (((perform (c.actions w)).run w).1,c.settle ((perform (c.actions w)).run w).2) := by
  cases c with
  | writeStatus status =>
    cases hs : w.sendingData with
    | true =>
      rw [Call.exec,writeStatus,run_bind_ok (run_read _ _),if_pos hs]
      simp [Call.refused,hs]
    | false =>
      rw [if_neg (by simp [Call.refused,hs])]
      exact run_writeStatus_eq status hs
  | writeHeader key value =>
    cases hs : w.sendingData with
    | true =>
      rw [Call.exec,writeHeader,run_bind_ok (run_read _ _),if_pos hs]
      simp [Call.refused,hs]
    | false =>
      rw [if_neg (by simp [Call.refused,hs])]
      exact run_writeHeader_eq key value hs
  | writeData data => exact run_writeData_eq data
  | flush => rfl

end Perform

/-! ## What the calls do to the writer -/

structure Agree (w t : SocketWriter) : Prop where
  status : w.status = t.status
  headers : w.headers = t.headers
  sendingData : w.sendingData = t.sendingData

theorem Agree.refl (w : SocketWriter) : Agree w w := ⟨rfl,rfl,rfl⟩

theorem Agree.trans {w t u : SocketWriter} (h : Agree w t) (h' : Agree t u) : Agree w u :=
  ⟨h.status.trans h'.status,h.headers.trans h'.headers,h.sendingData.trans h'.sendingData⟩

theorem Agree.record {w t : SocketWriter} (h : Agree w t) (m : Mark) :
    Agree (m.record w) (m.record t) := by
  obtain ⟨h₁,h₂,h₃⟩ := h
  cases m <;> constructor <;> simp [Mark.record,h₁,h₂,h₃]

theorem agree_write (s : Bytes) (w : SocketWriter) : Agree ((write s).run w).2 w := by
  obtain ⟨f,n,h⟩ := run_write_frame s w
  rw [h]
  exact ⟨rfl,rfl,rfl⟩

@[simp] theorem record_stream (m : Mark) (w : SocketWriter) :
    (m.record w).stream = w.stream := by
  cases m <;> rfl

@[simp] theorem record_bytesWritten (m : Mark) (w : SocketWriter) :
    (m.record w).bytesWritten = w.bytesWritten := by
  cases m <;> rfl

theorem agree_perform {as : List (Bytes × Mark)} {w t : SocketWriter}
    (h : (perform as).run w = (.ok (),t)) : Agree t (recordAll as w) := by
  have key : ∀ u, Agree w u → Agree t (recordAll as u) := by
    induction as generalizing w with
    | nil =>
      cases h
      exact fun u hu => hu
    | cons a as ih =>
      intro u hu
      have hw := agree_write a.1 w
      rcases hr : (write a.1).run w with ⟨e | ⟨⟩,v⟩
      · rw [run_perform_error hr] at h
        cases h
      · rw [run_perform_ok hr] at h
        rw [hr] at hw
        exact ih h _ ((hw.trans hu).record a.2)
  exact key w (.refl w)

theorem agree_settle (c : Call) (w : SocketWriter) : Agree (c.settle w) w := by
  cases c <;> exact ⟨rfl,rfl,rfl⟩

/-! ### Output only grows -/

def Sent (w t : SocketWriter) : Prop := w.stream.output <+: t.stream.output

theorem sent_refl (w : SocketWriter) : Sent w w := List.prefix_refl _

theorem sent_trans (w t u : SocketWriter) (h : Sent w t) (h' : Sent t u) : Sent w u := h.trans h'

theorem output_fwrite (s : Bytes) (f : Stream) : f.output <+: (f.fwrite s).2.output := by
  unfold Stream.fwrite Stream.output
  split
  · simp
  · split <;> simp

theorem grows_onStream {g : Stream → Except (Stop Exn) ℕ × Stream}
    (h : ∀ f : Stream, f.output <+: (g f).2.output) : Grows Sent (onStream (Exec.step g)) := by
  have hg : Grows (fun f f' : Stream => f.output <+: f'.output) (Exec.step g) :=
    grows_step (R:=fun f f' : Stream => f.output <+: f'.output) (fun _ => List.prefix_refl _) h
  exact grows_zoom hg (fun _ _ _ h => h) fun _ => rfl

theorem grows_mark {f : SocketWriter → SocketWriter} (h : ∀ w, (f w).stream = w.stream) :
    Grows Sent (Exec.modify f : Exec SocketWriter Exn Unit) :=
  grows_modify sent_refl fun w => by rw [Sent,h]

theorem grows_write (s : Bytes) : Grows Sent (write s) := by
  unfold write
  split
  · exact grows_pure sent_refl _
  · refine Grows.bind sent_trans (grows_onStream (output_fwrite s)) fun n => ?_
    split
    · refine (grows_read sent_refl _).bind sent_trans fun err => ?_
      refine (grows_read sent_refl _).bind sent_trans fun errno => ?_
      split <;> exact grows_throw sent_refl _
    · exact grows_mark fun _ => rfl

theorem grows_writeHeader (key value : Bytes) : Grows Sent (writeHeader key value) := by
  refine (grows_read sent_refl _).bind sent_trans fun sending => ?_
  split
  · exact grows_throw sent_refl _
  · exact (grows_write _).bind sent_trans fun _ => grows_mark fun _ => rfl

theorem grows_writeStatus (status : StatusCode) : Grows Sent (writeStatus status) := by
  refine (grows_read sent_refl _).bind sent_trans fun sending => ?_
  split
  · exact grows_throw sent_refl _
  · refine (grows_write _).bind sent_trans fun _ => ?_
    refine (grows_writeHeader _ _).bind sent_trans fun _ => ?_
    exact grows_mark fun _ => rfl

theorem grows_writeData (data : Bytes) : Grows Sent (writeData data) := by
  have htail : Grows Sent (write crlf >>= fun _ => (Exec.modify fun w : SocketWriter =>
      { w with sendingData := true }) >>= fun _ => write data) := by
    refine (grows_write _).bind sent_trans fun _ => ?_
    have hmark := grows_mark (f:=fun w : SocketWriter => { w with sendingData := true })
      fun _ => rfl
    exact hmark.bind sent_trans fun _ => grows_write data
  refine (grows_read sent_refl _).bind sent_trans fun sending => ?_
  split
  · refine (grows_read sent_refl _).bind sent_trans fun status => ?_
    split
    · exact (grows_writeStatus _).bind sent_trans fun _ => htail
    · exact htail
  · exact grows_write _

theorem grows_exec (c : Call) : Grows Sent c.exec := by
  cases c with
  | writeStatus status => exact grows_writeStatus status
  | writeHeader key value => exact grows_writeHeader key value
  | writeData data => exact grows_writeData data
  | flush =>
    refine grows_zoom (grows_modify (R:=fun f f' : Stream => f.output <+: f'.output)
      (fun _ => List.prefix_refl _) fun f => ?_) (fun _ _ _ h => h) fun _ => rfl
    rw [Stream.fflush_output]

theorem sent_next (w : SocketWriter) (c : Call) : Sent w (calls.next w c) :=
  grows_exec c w w (by simp [Run.points])

theorem sent_final (w : SocketWriter) (cs : List Call) : Sent w (calls.final w cs) := by
  induction cs generalizing w with
  | nil => exact sent_refl w
  | cons c cs ih => exact (sent_next w c).trans (ih _)

/-- At every moment the output is a part of what it is in the end. -/
theorem sent_of_mem_points {w u : SocketWriter} {cs : List Call} (h : u ∈ points w cs) :
    Sent u (calls.final w cs) := by
  induction cs generalizing w with
  | nil =>
    obtain rfl : u = w := by simpa [points] using h
    exact sent_refl u
  | cons c cs ih =>
    rw [System.final_cons]
    rcases List.mem_append.mp h with h | h
    · exact (grows_exec c w u h).trans (sent_final _ _)
    · exact ih h

/-! ### A stream that never fails -/

theorem run_write_sends {w : SocketWriter} (hp : w.stream.plan = []) (s : Bytes) :
    ∃ t, (write s).run w = (.ok (),t) ∧ t.stream.plan = [] ∧
      t.stream.output = w.stream.output ++ s := by
  by_cases hs : s = []
  · subst hs
    exact ⟨w,rfl,hp,by simp⟩
  · have hpos := List.length_pos_of_ne_nil hs
    have hf : w.stream.fwrite s = (s.length,{ w.stream with sent := w.stream.sent ++ [s] }) := by
      simp [Stream.fwrite,hp]
    rw [run_write_eq hs,hf,if_neg (by omega)]
    exact ⟨_,rfl,hp,by simp [Stream.output]⟩

theorem run_perform_sends {w : SocketWriter} (hp : w.stream.plan = [])
    (as : List (Bytes × Mark)) : ∃ t, (perform as).run w = (.ok (),t) ∧ t.stream.plan = [] ∧
      t.stream.output = w.stream.output ++ as.flatMap Prod.fst := by
  induction as generalizing w with
  | nil => exact ⟨w,rfl,hp,by simp⟩
  | cons a as ih =>
    obtain ⟨t,ht,hpt,hot⟩ := run_write_sends hp a.1
    obtain ⟨u,hu,hpu,hou⟩ := ih (w:=a.2.record t) (by simpa using hpt)
    refine ⟨u,by rw [run_perform_ok ht,hu],hpu,?_⟩
    rw [hou,record_stream,hot,List.flatMap_cons,List.append_assoc]

/-- A call that is not refused sends all its pieces and leaves all its marks. -/
theorem run_exec_sends {w : SocketWriter} (hp : w.stream.plan = []) {c : Call}
    (hc : c.refused w = false) : ∃ t, c.exec.run w = (.ok (),t) ∧ t.stream.plan = [] ∧
      t.stream.output = w.stream.output ++ (c.actions w).flatMap Prod.fst ∧
      Agree t (recordAll (c.actions w) w) := by
  obtain ⟨t,ht,hpt,hot⟩ := run_perform_sends hp (c.actions w)
  refine ⟨c.settle t,?_,by simpa using hpt,by simpa using hot,
    (agree_settle c t).trans (agree_perform ht)⟩
  rw [run_exec,hc,ht]
  rfl

theorem next_of_refused {w : SocketWriter} {c : Call} (h : c.refused w = true) :
    calls.next w c = w := by
  show (c.exec.run w).2 = w
  rw [run_exec,if_pos h]

theorem plan_next {w : SocketWriter} (hp : w.stream.plan = []) (c : Call) :
    (calls.next w c).stream.plan = [] := by
  cases hr : c.refused w with
  | true => rwa [next_of_refused hr]
  | false =>
    obtain ⟨t,ht,hpt,-⟩ := run_exec_sends hp hr
    rwa [show calls.next w c = t from congrArg Prod.snd ht]

theorem plan_calls {w : SocketWriter} (hp : w.stream.plan = []) (cs : List Call) :
    (calls.final w cs).stream.plan = [] :=
  System.run_invariant (I:=fun w => w.stream.plan = []) (fun _ c h _ => plan_next h c) hp
    (valid_calls w cs)

end Gabby.Http.SocketWriter
