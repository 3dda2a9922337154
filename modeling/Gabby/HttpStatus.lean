import Gabby.HttpCounts

/-! The status line and the record of it. `WriteStatus` remembers the status only after the
header that follows the status line; when that header fails, the line is forgotten. -/
namespace Gabby.Http.SocketWriter

open Exec

def Emitted (w : SocketWriter) : Prop := ∃ status, statusLine status ++ crlf ∈ w.stream.sent

/-- A status line has been sent exactly when there is a status, and then `MustSend` sends
nothing more. -/
structure Known (w : SocketWriter) : Prop where
  iff : Emitted w ↔ w.status.isSome
  mustSend : Emitted w → ∀ status, (mustSend status).run w = (.ok (),w)

def Call.announces (w : SocketWriter) : Call → Option StatusCode
  | writeStatus status => if w.sendingData then none else some status
  | writeData _ => if w.sendingData || w.status.isSome then none else some .ok
  | _ => none

def connectionLine : Bytes := headerLine (ascii "Connection") (ascii "close")

/-- The call is to send the first status line; the line is accepted and the header after it
is not. -/
def Forgets (w : SocketWriter) (c : Call) : Prop := w.status = none ∧ ∃ status,
  c.announces w = some status ∧ Stream.taken w.stream.plan (statusLine status ++ crlf) ≠ 0 ∧
    Stream.taken w.stream.plan.tail connectionLine = 0

/-- Each write of the call is accepted in full or fails with nothing accepted. -/
def AllOrNothing (w : SocketWriter) (c : Call) : Prop := Whole w.stream.plan (c.pieces w)

instance (w : SocketWriter) (c : Call) : Decidable (AllOrNothing w c) :=
  inferInstanceAs (Decidable (Whole w.stream.plan (c.pieces w)))

/-! ## Pieces -/

theorem headerLine_ne_statusLine (key value : Bytes) (status : StatusCode) :
    statusLine status ++ crlf ≠ headerLine key value := by
  intro h
  have hmem : chr ':' ∈ statusLine status ++ crlf := by
    rw [h]
    simp [headerLine,ascii]
  revert hmem
  cases status <;> decide

variable {w t : SocketWriter} {p : Bytes}

theorem emitted_fwrite (h : t.stream = (w.stream.fwrite p).2) : Emitted t ↔ Emitted w ∨
    ∃ status, statusLine status ++ crlf = p.take (Stream.taken w.stream.plan p) := by
  simp [Emitted,h,Stream.fwrite_sent,exists_or]

theorem run_write_fails (hne : p ≠ []) (h : Stream.taken w.stream.plan p = 0) :
    ∃ e t, (write p).run w = (.error e,t) ∧ (Emitted t ↔ Emitted w) ∧ t.status = w.status ∧
      t.sendingData = w.sendingData := by
  have hw := run_write_eq (w:=w) hne
  rw [Stream.fwrite_count,if_pos h] at hw
  refine ⟨_,_,hw,?_,rfl,rfl⟩
  rw [emitted_fwrite (w:=w) (p:=p) rfl,h,List.take_zero]
  refine or_iff_left ?_
  rintro ⟨status,hs⟩
  exact statusLine_ne_nil status hs

theorem run_write_accepted (hne : p ≠ []) (h : Stream.taken w.stream.plan p ≠ 0) :
    ∃ t, (write p).run w = (.ok (),t) ∧ t.stream = (w.stream.fwrite p).2 ∧
      t.status = w.status ∧ t.sendingData = w.sendingData := by
  have hw := run_write_eq (w:=w) hne
  rw [Stream.fwrite_count,if_neg h] at hw
  exact ⟨_,hw,rfl,rfl,rfl⟩

/-! ## Nothing is taken back -/

/-- What was sent or set in the first writer is so in the second. -/
structure Later (w t : SocketWriter) : Prop where
  emitted : Emitted w → Emitted t
  status : w.status.isSome → t.status.isSome

theorem later_write (p : Bytes) (w : SocketWriter) : Later w ((write p).run w).2 := by
  refine ⟨fun h => ?_,fun h => by rw [(agree_write p w).status]; exact h⟩
  by_cases hne : p = []
  · subst hne
    exact h
  · rw [run_write_eq hne]
    split <;> exact (emitted_fwrite rfl).mpr (.inl h)

theorem later_record (m : Mark) (w : SocketWriter) : Later w (m.record w) := by
  refine ⟨fun h => by rwa [Emitted,record_stream],fun h => ?_⟩
  cases m with
  | status s => rfl
  | _ => exact h

theorem later_perform (as : List (Bytes × Mark)) (w : SocketWriter) :
    Later w ((perform as).run w).2 := by
  induction as generalizing w with
  | nil => exact ⟨id,id⟩
  | cons a as ih =>
    have hw := later_write a.1 w
    rcases hr : (write a.1).run w with ⟨e | ⟨⟩,t⟩
    · rw [run_perform_error hr]
      rwa [hr] at hw
    · rw [hr] at hw
      rw [run_perform_ok hr]
      have hm := later_record a.2 t
      have ht := ih (a.2.record t)
      exact ⟨fun h => ht.emitted (hm.emitted (hw.emitted h)),
        fun h => ht.status (hm.status (hw.status h))⟩

/-! ## The status line and the header after it -/

/-- How the sending of a status line ends, whatever is to follow it: the line fails, the header
after it fails, or both are sent. -/
theorem perform_head (status : StatusCode) (rest : List (Bytes × Mark))
    (hwhole : Whole w.stream.plan ((headActions status ++ rest).map Prod.fst)) :
    let line := statusLine status ++ crlf
    let t := ((perform (headActions status ++ rest)).run w).2
    (Stream.taken w.stream.plan line = 0 ∧ (Emitted t ↔ Emitted w) ∧ t.status = w.status ∧
        t.sendingData = w.sendingData) ∨
      (Stream.taken w.stream.plan line ≠ 0 ∧ Stream.taken w.stream.plan.tail connectionLine = 0 ∧
        Emitted t ∧ t.status = w.status ∧ t.sendingData = w.sendingData) ∨
      (Stream.taken w.stream.plan line ≠ 0 ∧ Stream.taken w.stream.plan.tail connectionLine ≠ 0 ∧
        Emitted t ∧ t.status.isSome) := by
  intro line t
  have hline := statusLine_ne_nil status
  have hconn : connectionLine ≠ [] := headerLine_ne_nil _ _
  by_cases h : Stream.taken w.stream.plan line = 0
  · obtain ⟨e,u,hu,hem,hst,hsd⟩ := run_write_fails hline h
    have ht : t = u := congrArg Prod.snd (run_perform_error hu)
    exact .inl ⟨h,ht ▸ ⟨hem,hst,hsd⟩⟩
  · obtain ⟨u,hu,hstream,hst,hsd⟩ := run_write_accepted hline h
    -- the whole line is accepted
    have hemitted : Emitted u := by
      refine (emitted_fwrite hstream).mpr (.inr ⟨status,?_⟩)
      rw [((hwhole.resolve_left h).1 : _ = line.length),List.take_length]
    have ht : t = ((perform ((connectionLine,.status status)::rest)).run u).2 :=
      congrArg Prod.snd (run_perform_ok hu)
    have hplan : u.stream.plan = w.stream.plan.tail := by rw [hstream,Stream.fwrite_plan]
    rw [← hplan]
    by_cases h' : Stream.taken u.stream.plan connectionLine = 0
    · obtain ⟨e,v,hv,hem,hst',hsd'⟩ := run_write_fails hconn h'
      have htv : t = v := ht.trans (congrArg Prod.snd (run_perform_error hv))
      exact .inr (.inl ⟨h,h',htv ▸ ⟨hem.mpr hemitted,hst'.trans hst,hsd'.trans hsd⟩⟩)
    · obtain ⟨v,hv,hstream',-,-⟩ := run_write_accepted hconn h'
      have htv : t = ((perform rest).run (Mark.record (.status status) v)).2 :=
        ht.trans (congrArg Prod.snd (run_perform_ok hv))
      have hlater := later_perform rest (Mark.record (.status status) v)
      have hv' : Emitted v := (emitted_fwrite hstream').mpr (.inl hemitted)
      exact .inr (.inr ⟨h,h',htv ▸ ⟨hlater.emitted hv',hlater.status rfl⟩⟩)

/-! ## Calls -/

/-- The status is there when its line was sent, and when data is being sent. -/
structure Recorded (w : SocketWriter) : Prop where
  iff : Emitted w ↔ w.status.isSome
  sending : w.sendingData = true → w.status.isSome

theorem Recorded.known (h : Recorded w) : Known w := by
  refine ⟨h.iff,fun he status => ?_⟩
  rw [mustSend,run_bind_ok (run_read _ _),if_pos (h.iff.mp he)]
  rfl

@[simp] theorem emitted_settle (c : Call) (w : SocketWriter) :
    Emitted (c.settle w) ↔ Emitted w := by
  simp [Emitted]

theorem later_next (w : SocketWriter) (c : Call) : Later w (calls.next w c) := by
  cases hr : c.refused w with
  | true =>
    rw [next_of_refused hr]
    exact ⟨id,id⟩
  | false =>
    rw [show calls.next w c = c.settle ((perform (c.actions w)).run w).2 from
      congrArg Prod.snd ((run_exec c w).trans (if_neg (by simp [hr])))]
    obtain ⟨h₁,h₂⟩ := later_perform (c.actions w) w
    exact ⟨by simpa using h₁,by simpa using h₂⟩

theorem recorded_of_status {c : Call} (hw : Recorded w) (hst : w.status.isSome) :
    Recorded (calls.next w c) := by
  have h := later_next w c
  exact ⟨iff_of_true (h.emitted (hw.iff.mpr hst)) (h.status hst),fun _ => h.status hst⟩

/-- A header line is not a status line, and no status is recorded with it. -/
theorem recorded_writeHeader {key value : Bytes} (hw : Recorded w) (hst : w.status = none)
    (hsd : w.sendingData = false) (hall : AllOrNothing w (.writeHeader key value)) :
    Recorded (calls.next w (.writeHeader key value)) := by
  have hne := headerLine_ne_nil key value
  have hrun := run_exec (.writeHeader key value) w
  rw [if_neg (by simp [Call.refused,hsd])] at hrun
  rw [show calls.next w (.writeHeader key value) = _ from congrArg Prod.snd hrun,Call.actions]
  rw [AllOrNothing,Call.pieces,if_neg (by simp [Call.refused,hsd])] at hall
  have hnot : ¬ Emitted w := by simp [hw.iff,hst]
  by_cases h : Stream.taken w.stream.plan (headerLine key value) = 0
  · obtain ⟨e,t,ht,hem,hst',hsd'⟩ := run_write_fails hne h
    rw [run_perform_error ht]
    exact ⟨by simp [hem,hnot,hst',hst],by simp [hsd',hsd]⟩
  · obtain ⟨t,ht,hstream,hst',hsd'⟩ := run_write_accepted hne h
    rw [run_perform_ok ht]
    have hem : ¬ Emitted t := by
      rw [emitted_fwrite hstream,((hall.resolve_left h).1 : _ = _),List.take_length,not_or]
      refine ⟨hnot,?_⟩
      rintro ⟨status,hs⟩
      exact headerLine_ne_statusLine _ _ _ hs
    refine ⟨iff_of_false hem ?_,fun h => ?_⟩
    · simp [perform,Mark.record,hst',hst]
    · simp [perform,Mark.record,hsd',hsd] at h

theorem recorded_head {c : Call} (hw : Recorded w) (hst : w.status = none)
    (hsd : w.sendingData = false) (hall : AllOrNothing w c) (status : StatusCode)
    (rest : List (Bytes × Mark)) (ha : c.announces w = some status)
    (hact : c.actions w = headActions status ++ rest) :
    (¬ Forgets w c → Recorded (calls.next w c)) ∧ (Forgets w c → ¬ Known (calls.next w c)) := by
  have hr : c.refused w = false := by cases c <;> simp [Call.refused,hsd]
  have hset : ∀ t, c.settle t = t := by
    intro t
    cases c with
    | flush => cases ha
    | _ => rfl
  have hnext : calls.next w c = ((perform (headActions status ++ rest)).run w).2 := by
    rw [← hact,← hset ((perform (c.actions w)).run w).2]
    exact congrArg Prod.snd ((run_exec c w).trans (if_neg (by simp [hr])))
  have hforgets : Forgets w c ↔ Stream.taken w.stream.plan (statusLine status ++ crlf) ≠ 0 ∧
      Stream.taken w.stream.plan.tail connectionLine = 0 := by
    simp [Forgets,hst,ha]
  rw [AllOrNothing,Call.pieces,if_neg (by simp [hr]),hact] at hall
  have hnot : ¬ Emitted w := by simp [hw.iff,hst]
  rw [hnext,hforgets]
  rcases perform_head status rest hall with h | h | h
  · obtain ⟨hline,hem,hst',hsd'⟩ := h
    refine ⟨fun _ => ⟨?_,fun h => ?_⟩,fun h => absurd hline h.1⟩
    · simp [hem,hnot,hst',hst]
    · simp [hsd',hsd] at h
  · obtain ⟨hline,hconn,hem,hst',-⟩ := h
    refine ⟨fun h => absurd ⟨hline,hconn⟩ h,fun _ h => ?_⟩
    have := h.iff.mp hem
    simp [hst',hst] at this
  · obtain ⟨hline,hconn,hem,hst'⟩ := h
    exact ⟨fun _ => ⟨iff_of_true hem hst',fun _ => hst'⟩,fun h => absurd h.2 hconn⟩

theorem recorded_next {c : Call} (hw : Recorded w) (hall : AllOrNothing w c) :
    (¬ Forgets w c → Recorded (calls.next w c)) ∧ (Forgets w c → ¬ Known (calls.next w c)) := by
  cases hst : w.status with
  | some status =>
    exact ⟨fun _ => recorded_of_status hw (by simp [hst]),fun h => by simp [Forgets,hst] at h⟩
  | none =>
    have hsd : w.sendingData = false := by
      by_contra h
      have := hw.sending (by simpa using h)
      simp [hst] at this
    cases c with
    | flush =>
      have hnext : calls.next w .flush = Call.flush.settle w := rfl
      refine ⟨fun _ => ?_,fun h => by simp [Forgets,Call.announces] at h⟩
      rw [hnext]
      exact ⟨by simpa using hw.iff,by simpa using hw.sending⟩
    | writeHeader key value =>
      exact ⟨fun _ => recorded_writeHeader hw hst hsd hall,
        fun h => by simp [Forgets,Call.announces] at h⟩
    | writeStatus status =>
      exact recorded_head hw hst hsd hall status [] (by simp [Call.announces,hsd])
        (by simp [Call.actions])
    | writeData data =>
      exact recorded_head hw hst hsd hall .ok ((crlf,.blank)::dataActions data)
        (by simp [Call.announces,hsd,hst]) (by simp [Call.actions,openActions,hsd,hst])

/-! ## Runs -/

/-- When writes fail without sending anything, the status is known in every state of a run,
exactly when no call has its status line accepted and the header after it refused. -/
theorem known_iff {f : Stream} (hs : f.sent = []) {cs : List Call}
    (hall : calls.Along AllOrNothing (init f) cs) :
    (∀ bs bs', cs = bs ++ bs' → Known (calls.final (init f) bs)) ↔
      calls.Along (fun w c => ¬ Forgets w c) (init f) cs := by
  have hinit : Recorded (init f) := by
    refine ⟨iff_of_false ?_ (by simp [init]),by simp [init]⟩
    simp [Emitted,init,hs]
  rw [System.forall_final_iff,and_iff_right hinit.known]
  refine System.along_iff (I:=Recorded) (fun w c hw hc => ?_)
    (fun w c hw hc hf => (recorded_next hw hc).1 hf) hinit hall
  obtain ⟨h₁,h₂⟩ := recorded_next hw hc
  exact ⟨fun hk hf => h₂ hf hk,fun hf => (h₁ hf).known⟩

def late : Stream := { Stream.ofBytes [] with plan := [⟨0,EAGAIN⟩] }

/-- The status line is not accepted, and the implicit status of the data is. -/
theorem known_iff_failed :
    (∀ bs bs', [.writeStatus .notFound,.writeData (ascii "abc")] = bs ++ bs' →
      Known (calls.final (init late) bs)) ↔
    calls.Along (fun w c => ¬ Forgets w c) (init late)
      [.writeStatus .notFound,.writeData (ascii "abc")] :=
  known_iff rfl ⟨by decide +kernel,by decide +kernel,trivial⟩

/-- The status line is sent, the header after it times out, and there is no status. -/
theorem not_known : ¬ ∀ (f : Stream) (cs : List Call), f.sent = [] →
    calls.Along AllOrNothing (init f) cs → cs.countP Call.isWriteStatus ≤ 1 →
    ∀ bs bs', cs = bs ++ bs' → Known (calls.final (init f) bs) := by
  intro h
  have hk := h { Stream.ofBytes [] with plan := [⟨100,0⟩,⟨0,EAGAIN⟩] } [.writeStatus .ok] rfl
    ⟨by decide +kernel,trivial⟩ (by decide) [.writeStatus .ok] [] rfl
  have hst := hk.iff.mp ⟨.ok,by decide +kernel⟩
  revert hst
  decide +kernel

end Gabby.Http.SocketWriter
