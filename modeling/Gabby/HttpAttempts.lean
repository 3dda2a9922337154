import Gabby.HttpSocket

/-! Calls over connections that fail: however the kernel cuts up what is written and read, a
response answers a request that arrived in full, and only a reset leads to another attempt. -/
namespace Gabby.Http

open Exec

/-- What a peer sends before it closes or the connection fails. -/
def Socket.answer : List (Except ℕ Bytes) → Except ℕ Bytes
  | [] => .ok []
  | .error e :: _ => .error e
  | .ok chunk :: rs => if chunk.isEmpty then .ok [] else (answer rs).map (chunk ++ ·)

theorem Socket.answer_ok {chunk : Bytes} (h : chunk ≠ []) (rs : List (Except ℕ Bytes)) :
    answer (.ok chunk :: rs) = (answer rs).map (chunk ++ ·) := by
  rw [answer,if_neg (by simpa using h)]

theorem Socket.answer_split {chunk : Bytes} {n : ℕ} (h : n < chunk.length)
    (rs : List (Except ℕ Bytes)) :
    answer (.ok chunk :: rs) = (answer (.ok (chunk.drop n) :: rs)).map (chunk.take n ++ ·) := by
  have hd : chunk.drop n ≠ [] := by
    rw [ne_eq,List.drop_eq_nil_iff]
    omega
  have hc : chunk ≠ [] := by
    rintro rfl
    simp at h
  rw [answer_ok hc,answer_ok hd]
  cases answer rs with
  | error e => rfl
  | ok d => simp [Except.map,← List.append_assoc]

theorem Socket.read_answer {n : ℕ} (hn : 0 < n) (s : Socket) : match s.read n with
    | (none,t) => t.received = s.received ∧ answer s.reads = .error t.errno
    | (some chunk,t) => t.received = s.received ∧
        (answer s.reads = if chunk = [] then .ok [] else (answer t.reads).map (chunk ++ ·)) ∧
        (chunk ≠ [] → t.unread < s.unread) := by
  rcases s with ⟨connects,writes,reads,errno,received⟩
  rcases reads with _ | ⟨e | chunk,rs⟩
  · simp [Socket.read,answer]
  · simp [Socket.read,answer]
  by_cases hlong : chunk.length ≤ n
  · simp only [Socket.read,hlong,if_true,unread,List.map_cons,List.sum_cons]
    refine ⟨trivial,?_,fun _ => by omega⟩
    split
    · rename_i hc
      simp [answer,hc]
    · rename_i hc
      exact answer_ok hc rs
  · simp only [Socket.read,hlong,if_false,unread,List.map_cons,List.sum_cons]
    refine ⟨trivial,?_,fun _ => by rw [List.length_drop]; omega⟩
    rw [if_neg,answer_split (not_le.mp hlong)]
    rw [List.take_eq_nil_iff]
    rintro (h | rfl)
    · omega
    · simp at hlong

namespace UnbufferedClientSocket

variable {s : Socket}

/-! ## One connection -/

/-- All of the data was sent, or a failure of `write` left a part of it. -/
inductive Sent (data : Bytes) (s : Socket) : Except (Stop ClientError) Unit × Socket → Prop
  | all {t : Socket} (received : t.received = s.received ++ data) (reads : t.reads = s.reads)
      (writes : t.writes <:+ s.writes) : Sent data s (.ok (),t)
  | part {t : Socket} {p : Bytes} {e : ℕ} (hp : p <+: data)
      (received : t.received = s.received ++ p) (failed : .error e ∈ s.writes) :
      Sent data s (.error (.throw (.systemError e)),t)

theorem Sent.nil : Sent [] s (.ok (),s) := .all (by simp) rfl List.suffix_rfl

theorem Sent.after {t : Socket} {data data' : Bytes} {r : Except (Stop ClientError) Unit × Socket}
    (h : Sent data' t r) (hrec : t.received = s.received ++ data) (hreads : t.reads = s.reads)
    (hw : t.writes <:+ s.writes) : Sent (data ++ data') s r := by
  cases h with
  | all hrec' hreads' hw' =>
    exact .all (by rw [hrec',hrec,List.append_assoc]) (hreads'.trans hreads) (hw'.trans hw)
  | part hp hrec' hf =>
    exact .part ((List.prefix_append_right_inj _).mpr hp)
      (by rw [hrec',hrec,List.append_assoc]) (hw.subset hf)

theorem Sent.bind {m m' : Exec Socket ClientError Unit} {data data' : Bytes}
    (hm : Sent data s (m.run s)) (hm' : ∀ t, Sent data' t (m'.run t)) :
    Sent (data ++ data') s ((m >>= fun _ => m').run s) := by
  rw [run_bind]
  generalize m.run s = r at hm
  cases hm with
  | all hrec hreads hw => exact (hm' _).after hrec hreads hw
  | part hp hrec hf => exact .part (hp.trans (List.prefix_append _ _)) hrec hf

theorem run_writeRound_end (data : Bytes) {n : ℕ} (hn : data.length ≤ n) (s : Socket) :
    (writeRound data n).run s = (.ok (.inr ()),s) := by
  rw [writeRound,if_neg (by omega)]
  rfl

theorem run_writeRound {data : Bytes} {n k : ℕ} {t : Socket} (hlen : data.length < 2^31)
    (hn : n < data.length) (hw : s.write (data.drop n) = (some k,t)) (hk : n + k ≤ data.length) :
    (writeRound data n).run s = (.ok (.inl (n+k)),t) := by
  have hlen' : data.length < 2147483648 := lt_of_lt_of_le hlen (by norm_num)
  have hres : result (some k) = k := Json.toInt32_of_lt (by norm_num; omega)
  have hstep : (Exec.step fun s => (.ok (result (s.write (data.drop n)).1),
      (s.write (data.drop n)).2) : Exec Socket ClientError ℤ).run s = (.ok (k : ℤ),t) := by
    rw [run_step,hw,← hres]
  rw [writeRound,if_pos hn,run_bind_ok hstep,if_neg (by omega),if_neg (by norm_num; omega)]
  simp

theorem run_writeRound_error {data : Bytes} {n e : ℕ} {t : Socket} (hn : n < data.length)
    (hw : s.write (data.drop n) = (none,t)) (he : t.errno = e) :
    (writeRound data n).run s = (.error (.throw (.systemError e)),t) := by
  have hstep : (Exec.step fun s => (.ok (result (s.write (data.drop n)).1),
      (s.write (data.drop n)).2) : Exec Socket ClientError ℤ).run s = (.ok (-1),t) := by
    rw [run_step,hw]
    rfl
  rw [writeRound,if_pos hn,run_bind_ok hstep,if_pos (by decide),systemError,
    run_bind_ok (run_read _ _),run_throw,he]

/-- The loop of `Write` from the `n`-th byte on. -/
theorem sent_writeLoop {data : Bytes} (hlen : data.length < 2^31) {fuel n : ℕ} {s : Socket}
    (hn : n ≤ data.length) (hf : s.writes.length + 2 ≤ fuel) :
    Sent (data.drop n) s ((Exec.iterate (writeRound data) fuel n).run s) := by
  induction fuel generalizing n s with
  | zero => omega
  | succ fuel ih =>
    by_cases hend : data.length ≤ n
    · rw [run_iterate_inr (run_writeRound_end data hend s),List.drop_eq_nil_of_le hend]
      exact .nil
    have hlt : n < data.length := by omega
    cases hws : s.writes with
    | nil =>
      -- the rest is taken at once, and one more round notices
      have hw : s.write (data.drop n) =
          (some (data.length - n),{ s with received := s.received ++ data.drop n }) := by
        simp [Socket.write,hws]
      obtain ⟨fuel,rfl⟩ : ∃ f, fuel = f + 1 := ⟨fuel - 1,by omega⟩
      rw [run_iterate_inl (run_writeRound hlen hlt hw (by omega)),
        run_iterate_inr (run_writeRound_end data (by omega) _)]
      exact .all rfl rfl List.suffix_rfl
    | cons w ws =>
      have hsub : ws <:+ s.writes := by
        rw [hws]
        exact List.suffix_cons _ _
      simp only [hws,List.length_cons] at hf
      cases w with
      | error e =>
        have hw : s.write (data.drop n) = (none,{ s with writes := ws, errno := e }) := by
          simp [Socket.write,hws]
        rw [run_iterate_error (run_writeRound_error hlt hw rfl)]
        exact .part List.nil_prefix (by simp) (by simp [hws])
      | ok k =>
        have hw : s.write (data.drop n) = (some (min k (data.length - n)),
            { s with writes := ws, received := s.received ++ (data.drop n).take k }) := by
          simp [Socket.write,hws]
        rw [run_iterate_inl (run_writeRound hlen hlt hw (by omega))]
        have hrest := ih (n := n + min k (data.length - n))
          (s := { s with writes := ws, received := s.received ++ (data.drop n).take k })
          (by omega) (by simp only; omega)
        have hsplit : data.drop n =
            (data.drop n).take k ++ data.drop (n + min k (data.length - n)) := by
          conv_lhs => rw [← List.take_append_drop k (data.drop n)]
          rw [List.drop_drop]
          rcases le_total k (data.length - n) with h | h
          · rw [min_eq_left h]
          · have h₁ : data.drop (n+k) = [] := List.drop_eq_nil_of_le (by omega)
            have h₂ : data.drop (n+(data.length-n)) = [] := List.drop_eq_nil_of_le (by omega)
            rw [min_eq_right h,h₁,h₂]
        have hall := hrest.after (s:=s) rfl rfl hsub
        rwa [← hsplit] at hall

theorem sent_write {data : Bytes} (hlen : data.length < 2^31) (s : Socket) :
    Sent data s ((write data).run s) := by
  unfold write
  split
  · rename_i hd
    rw [List.isEmpty_iff.mp hd]
    exact .nil
  · rw [run_loop]
    simpa using sent_writeLoop hlen (Nat.zero_le _) (le_refl (s.writes.length + 2))

/-- The loop of `ReadAll` appends what the peer sends to what was read. -/
theorem run_readLoop {fuel : ℕ} {s : Socket} (hf : s.unread < fuel) (data : Bytes) :
    ∃ t, t.received = s.received ∧ (Exec.iterate readRound fuel data).run s =
      (match Socket.answer s.reads with
        | .ok d => .ok (data ++ d)
        | .error e => .error (.throw (.systemError e)),t) := by
  induction fuel generalizing s data with
  | zero => omega
  | succ fuel ih =>
    have hread := Socket.read_answer (n:=1024) (by omega) s
    rcases hr : s.read 1024 with ⟨_ | chunk,t⟩ <;> rw [hr] at hread
    · obtain ⟨hrec,ha⟩ := hread
      refine ⟨t,hrec,?_⟩
      rw [ha,run_iterate_error (e:=.throw (.systemError t.errno)) (t:=t)]
      rw [readRound,run_bind_ok (by rw [run_step,hr])]
      rfl
    obtain ⟨hrec,ha,hu⟩ := hread
    by_cases hc : chunk = []
    · refine ⟨t,hrec,?_⟩
      rw [ha,if_pos hc,run_iterate_inr (b:=data) (t:=t)]
      · simp
      · rw [readRound,run_bind_ok (by rw [run_step,hr])]
        simp [hc]
    · obtain ⟨u,hu',hrun⟩ := ih (s:=t) (by have := hu hc; omega) (data ++ chunk)
      have hround : (readRound data).run s = (.ok (.inl (data ++ chunk)),t) := by
        rw [readRound,run_bind_ok (by rw [run_step,hr])]
        simp [hc]
      refine ⟨u,hu'.trans hrec,?_⟩
      rw [ha,if_neg hc,run_iterate_inl hround,hrun]
      cases Socket.answer t.reads <;> simp [Except.map]

theorem run_readAll (s : Socket) : ∃ t, t.received = s.received ∧ readAll.run s =
    (match Socket.answer s.reads with
      | .ok d => .ok d
      | .error e => .error (.throw (.systemError e)),t) := by
  obtain ⟨t,ht,hrun⟩ := run_readLoop (Nat.lt_succ_self s.unread) []
  exact ⟨t,ht,by simpa [readAll] using hrun⟩

/-- The constructor connects, or it fails with the first error that is not an aborted
connection; nothing is sent. -/
theorem run_connect (s : Socket) :
    (∃ t, connect.run s = (.ok (),t) ∧ t.received = s.received ∧ t.reads = s.reads ∧
      t.writes = s.writes ∧ ∀ e ∈ s.connects, e = ECONNABORTED) ∨
    ∃ t e, connect.run s = (.error (.throw (.systemError e)),t) ∧ t.received = s.received ∧
      e ∈ s.connects ∧ e ≠ ECONNABORTED := by
  simp only [connect,run_loop]
  generalize hc : s.connects = es
  induction es generalizing s with
  | nil =>
    refine .inl ⟨s,?_,rfl,rfl,rfl,by simp⟩
    rw [List.length_nil,Nat.zero_add,run_iterate_inr]
    rw [run_bind_ok (by rw [run_step,Socket.connect,hc])]
    rfl
  | cons e es ih =>
    have hround : ∀ {β : Type} (k : Bool → Exec Socket ClientError β),
        ((Exec.step fun s => (.ok s.connect.1,s.connect.2)) >>= k).run s =
          (k false).run { s with connects := es, errno := e } := by
      intro β k
      rw [run_bind_ok (by rw [run_step,Socket.connect,hc])]
    rw [List.length_cons]
    by_cases he : e = ECONNABORTED
    · rw [run_iterate_inl (t:={ s with connects := es, errno := e })]
      · rcases ih { s with connects := es, errno := e } rfl with ⟨t,h,h₁,h₂,h₃,h₄⟩ | h
        · exact .inl ⟨t,h,h₁,h₂,h₃,by simpa [he] using h₄⟩
        · obtain ⟨t,e',h,h₁,h₂,h₃⟩ := h
          exact .inr ⟨t,e',h,h₁,by simp [h₂],h₃⟩
      · rw [hround]
        simp [run_bind,he]
    · refine .inr ⟨_,e,run_iterate_error (t:={ s with connects := es, errno := e }) ?_,rfl,
        by simp,he⟩
      rw [hround]
      simp [run_bind,he,systemError]

end UnbufferedClientSocket

open UnbufferedClientSocket

namespace Call

variable {method : Method} {path : Bytes} {headers : Dict Bytes Bytes} {data : Bytes}

def headerText (headers : Dict Bytes Bytes) : Bytes :=
  lines ((headers.flatMap fun h => [h,h]).map Client.fieldLine)

def lengthLine (data : Bytes) : Bytes :=
  Client.headerLine (ascii "Content-Length") (decimal data.length)

theorem sent_writeHeaders (h : (headerText headers).length < 2^31) (s : Socket) :
    Sent (headerText headers) s ((writeHeaders headers).run s) := by
  induction headers generalizing s with
  | nil => exact .nil
  | cons m headers ih =>
    have hcons : headerText (m::headers) = Client.headerLine m.1 m.2 ++
        (Client.headerLine m.1 m.2 ++ headerText headers) := by
      simp [headerText,Client.headerLine,Client.fieldLine]
    rw [hcons] at h ⊢
    simp only [List.length_append] at h
    exact (sent_write (by omega) s).bind fun t => (sent_write (by omega) t).bind fun u =>
      ih (by omega) u

/-- The request in the parts in which it is written. -/
theorem sent_eq : Client.sent method path headers data =
    (method.toString ++ ascii " " ++ path ++ ascii " HTTP/1.1\r\n") ++ (headerText headers ++
      if data.isEmpty then crlf else lengthLine data ++ (lengthLine data ++ (crlf ++ data))) := by
  rw [Client.sent,Client.call,run_bind_ok (Client.run_write _ _),
    run_bind_ok (Client.run_writeHeaders _ _),headerText]
  cases data with
  | nil => simp [run_bind]
  | cons c data => simp [run_bind,Client.writeHeader,lengthLine]

theorem sent_send (h : (Client.sent method path headers data).length < 2^31) (s : Socket) :
    Sent (Client.sent method path headers data) s ((send method path headers data).run s) := by
  rw [sent_eq] at h ⊢
  simp only [List.length_append] at h
  refine (sent_write (by simp only [List.length_append]; omega) s).bind fun t =>
    (sent_writeHeaders (by omega) t).bind fun u => ?_
  by_cases hd : data = []
  · subst hd
    have hlen : crlf.length < 2^31 := by decide
    have hcrlf : Sent (crlf ++ []) u ((write crlf >>= fun _ => pure ()).run u) :=
      (sent_write hlen u).bind fun _ => .nil
    simpa using hcrlf
  · have hd' : data.isEmpty = false := by simpa using hd
    simp only [hd',Bool.false_eq_true,if_false,Bool.not_false,if_true,List.length_append] at h ⊢
    exact (sent_write (by omega) u).bind fun v => (sent_write (by omega) v).bind fun w =>
      (sent_write (by omega) w).bind fun x => sent_write (by omega) x

/-! ## Attempts -/

/-- An attempt fails with an error of the system and has sent a part of the request, or it
returns what the peer sends after it has sent all of it. -/
inductive Attempted (request : Bytes) (s : Socket) :
    Except (Stop ClientError) Bytes × Socket → Prop
  | failed {t : Socket} {p : Bytes} {e : ℕ} (hp : p <+: request)
      (received : t.received = s.received ++ p) :
      Attempted request s (.error (.throw (.systemError e)),t)
  | answered {t : Socket} {response : Bytes} (received : t.received = s.received ++ request)
      (answer : Socket.answer s.reads = .ok response) : Attempted request s (.ok response,t)

theorem attempted (h : (Client.sent method path headers data).length < 2^31) (s : Socket) :
    Attempted (Client.sent method path headers data) s
      ((attempt method path headers data).run s) := by
  unfold attempt
  rcases run_connect s with ⟨t,hrun,hrec,hreads,-,-⟩ | ⟨t,e,hrun,hrec,-⟩
  · rw [run_bind_ok hrun,run_bind]
    have hsent := sent_send h t
    generalize (send method path headers data).run t = r at hsent
    cases hsent with
    | @all u hrec' hreads' hw =>
      obtain ⟨v,hv,hread⟩ := run_readAll u
      simp only [hread,hreads',hreads]
      cases ha : Socket.answer s.reads with
      | ok d => exact .answered (by rw [hv,hrec',hrec]) ha
      | error e => exact .failed List.prefix_rfl (by rw [hv,hrec',hrec])
    | part hp hrec' hf => exact .failed hp (by rw [hrec',hrec])
  · rw [run_bind_error hrun]
    exact .failed List.nil_prefix (by simp [hrec])

/-- A connection on which nothing but an aborted `connect` fails before the response. -/
structure Clear (s : Socket) : Prop where
  connects : ∀ e ∈ s.connects, e = ECONNABORTED
  writes : ∀ e, .error e ∉ s.writes

/-- On such a connection the attempt returns what the peer sends. -/
theorem run_attempt_clear (h : (Client.sent method path headers data).length < 2^31) {s : Socket}
    (hs : Clear s) {response : Bytes} (ha : Socket.answer s.reads = .ok response) :
    ∃ t, (attempt method path headers data).run s = (.ok response,t) := by
  unfold attempt
  rcases run_connect s with ⟨t,hrun,-,hreads,hwrites,-⟩ | ⟨t,e,-,-,he,hne⟩
  · rw [run_bind_ok hrun,run_bind]
    have hsent := sent_send h t
    generalize (send method path headers data).run t = r at hsent
    cases hsent with
    | @all u hrec' hreads' hw =>
      obtain ⟨v,hv,hread⟩ := run_readAll u
      simp only [hread,hreads',hreads,ha]
      exact ⟨v,rfl⟩
    | part hp hrec' hf => exact absurd (hwrites ▸ hf) (hs.writes _)
  · exact absurd (hs.connects e he) hne

/-! ## The retry loop -/

def outcome (method : Method) (path : Bytes) (headers : Dict Bytes Bytes) (data : Bytes)
    (net : Network) (i : ℕ) : Except (Stop ClientError) Bytes × Socket :=
  (attempt method path headers data).run (net.sockets i)

def reset : Except (Stop ClientError) Bytes := .error (.throw (.systemError ECONNRESET))

def exceeded : Except (Stop ClientError) Bytes :=
  .error (.throw (.runtimeError (ascii "exceeded max retries")))

def after (method : Method) (path : Bytes) (headers : Dict Bytes Bytes) (data : Bytes)
    (net : Network) (n : ℕ) : Network :=
  { net with used := net.used ++ (List.range n).map fun j =>
      (outcome method path headers data net (net.used.length+j)).2 }

section Retry

variable (method : Method) (path : Bytes) (headers : Dict Bytes Bytes) (data : Bytes)

theorem after_succ (net : Network) (n : ℕ) :
    after method path headers data (after method path headers data net 1) n =
      after method path headers data net (n+1) := by
  simp only [after,outcome,List.range_succ_eq_map,List.range_zero,List.map_cons,List.map_nil,
    List.map_map,List.length_append,List.length_singleton,List.append_assoc,
    List.singleton_append,Nat.add_zero,Function.comp_def,Nat.succ_eq_add_one]
  congr 4
  funext j
  rw [Nat.add_assoc,Nat.add_comm 1]

theorem run_onSocket (net : Network) :
    (Network.onSocket (attempt method path headers data)).run net =
    ((outcome method path headers data net net.used.length).1,
      after method path headers data net 1) := rfl

theorem run_retry_last (net : Network) (n : ℕ)
    (h : (outcome method path headers data net net.used.length).1 ≠ reset) :
    (retry method path headers data (n+1)).run net =
      ((outcome method path headers data net net.used.length).1,
        after method path headers data net 1) := by
  have hrun := run_onSocket method path headers data net
  rw [retry]
  rcases ho : (outcome method path headers data net net.used.length).1 with e | response <;>
    rw [ho] at hrun h
  · by_cases he : ∃ x, e = .throw x
    · obtain ⟨x,rfl⟩ := he
      rw [run_tryCatch_throw hrun,if_neg fun hx => h (by rw [hx]; rfl)]
      rfl
    · exact run_tryCatch_stop hrun fun x hx => he ⟨x,hx⟩
  · exact run_tryCatch_ok hrun

theorem run_retry_reset (net : Network) (n : ℕ)
    (h : (outcome method path headers data net net.used.length).1 = reset) :
    (retry method path headers data (n+1)).run net =
      (retry method path headers data n).run (after method path headers data net 1) := by
  have hrun := run_onSocket method path headers data net
  rw [h] at hrun
  rw [retry,run_tryCatch_throw hrun,if_pos rfl]

/-- The loop makes attempts on consecutive sockets until one is not reset or none is left. -/
theorem run_retry (net : Network) (n : ℕ) : ∃ k ≤ n,
    (∀ j < k, (outcome method path headers data net (net.used.length+j)).1 = reset) ∧
    if k = n then (retry method path headers data n).run net =
      (exceeded,after method path headers data net n)
    else (outcome method path headers data net (net.used.length+k)).1 ≠ reset ∧
      (retry method path headers data n).run net =
        ((outcome method path headers data net (net.used.length+k)).1,
          after method path headers data net (k+1)) := by
  induction n generalizing net with
  | zero => exact ⟨0,le_rfl,by simp,by simp [retry,after,exceeded]⟩
  | succ n ih =>
    by_cases h : (outcome method path headers data net net.used.length).1 = reset
    · rw [run_retry_reset method path headers data net n h]
      obtain ⟨k,hk,hj,hrun⟩ := ih (after method path headers data net 1)
      have hout : ∀ j, outcome method path headers data (after method path headers data net 1)
          ((after method path headers data net 1).used.length+j) =
            outcome method path headers data net (net.used.length+(j+1)) := fun j => by
        simp only [outcome,after,List.length_append,List.length_map,List.length_range]
        rw [Nat.add_assoc,Nat.add_comm 1]
      simp only [hout,after_succ] at hj hrun
      refine ⟨k+1,by omega,fun j hjk => ?_,by simpa using hrun⟩
      cases j with
      | zero => exact h
      | succ j => exact hj j (by omega)
    · exact ⟨0,by omega,by simp,by
        rw [if_neg (by omega)]
        exact ⟨h,run_retry_last method path headers data net n h⟩⟩

end Retry

end Call

def Call.Settled (request : Bytes) (s : Socket) (k : ℕ)
    (last : Except (Stop ClientError) Bytes × Socket) : Except (Stop ClientError) Bytes → Prop
  | .ok response => last.2.received = s.received ++ request ∧ Socket.answer s.reads = .ok response
  | .error (.throw (.systemError e)) => e ≠ ECONNRESET ∧ last.1 = .error (.throw (.systemError e))
  | .error (.throw (.runtimeError _)) => k + 1 = kNumRetries ∧ last.1 = Call.reset
  | _ => False

section Settles

variable (method : Method) (path : Bytes) (headers : Dict Bytes Bytes) (data : Bytes)

open Call

/-- A call uses one socket after the other, sends a part of the request on each, and goes on
only after a reset; it returns what the peer of the last socket sends, which has received the
whole request. On a connection that does not fail it does return. -/
theorem call_settles (hlen : (Client.sent method path headers data).length < 2^31) (net : Network)
    (hused : net.used = []) :
    (∃ k < kNumRetries, (∀ j < k, (outcome method path headers data net j).1 = reset) ∧
      ((call method path headers data).run net).2.used =
        (List.range (k+1)).map (fun j => (outcome method path headers data net j).2) ∧
      (∀ j ≤ k, ∃ p, p <+: Client.sent method path headers data ∧
        (outcome method path headers data net j).2.received = (net.sockets j).received ++ p) ∧
      Settled (Client.sent method path headers data) (net.sockets k) k
        (outcome method path headers data net k) ((call method path headers data).run net).1) ∧
    ∀ k < kNumRetries, ∀ response, (∀ j < k, (outcome method path headers data net j).1 = reset) →
      Clear (net.sockets k) → Socket.answer (net.sockets k).reads = .ok response →
      ((call method path headers data).run net).1 = .ok response := by
  obtain ⟨k,hk,hj,hrun⟩ := run_retry method path headers data net kNumRetries
  simp only [hused,List.length_nil,Nat.zero_add] at hj hrun
  have hatt := fun j => attempted hlen (net.sockets j)
  have hpart : ∀ j, ∃ p, p <+: Client.sent method path headers data ∧
      (outcome method path headers data net j).2.received = (net.sockets j).received ++ p := by
    intro j
    have h := hatt j
    simp only [outcome]
    generalize (attempt method path headers data).run (net.sockets j) = r at h
    cases h with
    | failed hp hrec => exact ⟨_,hp,hrec⟩
    | answered hrec _ => exact ⟨_,List.prefix_rfl,hrec⟩
  by_cases hkn : k = kNumRetries
  · -- every attempt was reset
    subst hkn
    rw [if_pos rfl] at hrun
    rw [call,hrun]
    refine ⟨⟨2,by decide,fun j h => hj j (by simp only [kNumRetries]; omega),
      by simp [after,hused,kNumRetries],
      fun j _ => hpart j,rfl,hj 2 (by decide)⟩,fun k hk response _ hclear ha => ?_⟩
    obtain ⟨t,ht⟩ := run_attempt_clear hlen hclear ha
    have := hj k hk
    rw [outcome,ht] at this
    cases this
  · rw [if_neg hkn] at hrun
    obtain ⟨hne,hrun⟩ := hrun
    rw [call,hrun]
    refine ⟨⟨k,by omega,hj,by simp [after,hused],fun j _ => hpart j,?_⟩,
      fun k' hk' response hj' hclear ha => ?_⟩
    · have h := hatt k
      simp only [outcome] at hne ⊢
      generalize (attempt method path headers data).run (net.sockets k) = r at h hne
      cases h with
      | failed hp hrec => exact ⟨fun he => hne (by rw [he]; rfl),rfl⟩
      | answered hrec ha => exact ⟨hrec,ha⟩
    · obtain ⟨t,ht⟩ := run_attempt_clear hlen hclear ha
      obtain rfl : k = k' := by
        by_contra hkk
        rcases Nat.lt_or_gt_of_ne hkk with h | h
        · exact hne (hj' k h)
        · have := hj k' h
          rw [outcome,ht] at this
          cases this
      rw [outcome,ht]

end Settles

/-- The first connection is reset after the peer took a part of the request; on the second the
request and the response arrive in pieces. -/
def flaky : Network :=
  ⟨fun i => if i = 0 then ⟨[],[.ok 5,.error ECONNRESET],[],0,[]⟩
    else ⟨[ECONNABORTED],[.ok 3,.ok 0],[.ok (ascii "HTTP/1.1 "),.ok (ascii "200 OK")],0,[]⟩,[]⟩

theorem call_flaky : ((call .get (ascii "/") [] []).run flaky).1 = .ok (ascii "HTTP/1.1 200 OK") :=
  (call_settles .get (ascii "/") [] [] (by decide +kernel) flaky rfl).2 1 (by decide) _
    (by
      intro j hj
      obtain rfl : j = 0 := by omega
      decide +kernel)
    ⟨by decide,by simp [flaky]⟩ (by decide +kernel)

end Gabby.Http
