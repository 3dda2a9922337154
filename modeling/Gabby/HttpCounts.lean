import Gabby.HttpCalls

/-! What the writer counts and what the stream accepts. A write that is cut short, but not to
nothing, is taken for a success and counted in full. -/
namespace Gabby

/-! ## Writes against the counts of a stream -/

namespace Stream

/-- The bytes of the next write that the stream accepts. -/
def taken (plan : List WriteResult) (p : Bytes) : ℕ := match plan with
  | [] => p.length
  | r::_ => min r.count p.length

theorem taken_le (plan : List WriteResult) (p : Bytes) : taken plan p ≤ p.length := by
  cases plan with
  | nil => exact le_refl _
  | cons r plan => exact min_le_right _ _

theorem fwrite_count (p : Bytes) (f : Stream) : (f.fwrite p).1 = taken f.plan p := by
  unfold fwrite taken
  cases f.plan with
  | nil => rfl
  | cons r plan =>
    dsimp only
    split <;> simp <;> omega

theorem fwrite_plan (p : Bytes) (f : Stream) : (f.fwrite p).2.plan = f.plan.tail := by
  unfold fwrite
  cases h : f.plan with
  | nil => rfl
  | cons r plan =>
    dsimp only
    split <;> rfl

theorem fwrite_sent (p : Bytes) (f : Stream) :
    (f.fwrite p).2.sent = f.sent ++ [p.take (taken f.plan p)] := by
  unfold fwrite taken
  cases f.plan with
  | nil => simp
  | cons r plan =>
    dsimp only
    split
    · rename_i h
      simp [min_eq_left h.le]
    · rename_i h
      simp [min_eq_right (not_lt.mp h)]

theorem fwrite_output (p : Bytes) (f : Stream) :
    (f.fwrite p).2.output = f.output ++ p.take (taken f.plan p) := by
  simp [output,fwrite_sent]

end Stream

namespace Http.SocketWriter

open Exec

/-- The bytes of some writes that are accepted, up to the first write that is not at all. -/
def accepted (plan : List WriteResult) : List Bytes → ℕ
  | [] => 0
  | p::ps => if Stream.taken plan p = 0 then 0 else Stream.taken plan p + accepted plan.tail ps

def claimed (plan : List WriteResult) : List Bytes → ℕ
  | [] => 0
  | p::ps => if Stream.taken plan p = 0 then 0 else p.length + claimed plan.tail ps

/-- Each of the writes is accepted in full, up to the first that is not accepted at all. -/
def Whole (plan : List WriteResult) : List Bytes → Prop
  | [] => True
  | p::ps => Stream.taken plan p = 0 ∨ Stream.taken plan p = p.length ∧ Whole plan.tail ps

instance wholeDecidable : ∀ plan ps, Decidable (Whole plan ps)
  | _, [] => isTrue trivial
  | plan, p::ps =>
    have := wholeDecidable plan.tail ps
    inferInstanceAs (Decidable
      (Stream.taken plan p = 0 ∨ Stream.taken plan p = p.length ∧ Whole plan.tail ps))

theorem accepted_le_claimed (plan : List WriteResult) (ps : List Bytes) :
    accepted plan ps ≤ claimed plan ps := by
  induction ps generalizing plan with
  | nil => exact le_refl _
  | cons p ps ih =>
    have hp := Stream.taken_le plan p
    have ih := ih plan.tail
    simp only [accepted,claimed]
    split
    · exact le_refl _
    · omega

theorem accepted_eq_claimed_iff (plan : List WriteResult) (ps : List Bytes) :
    accepted plan ps = claimed plan ps ↔ Whole plan ps := by
  induction ps generalizing plan with
  | nil => exact iff_of_true rfl trivial
  | cons p ps ih =>
    have hp := Stream.taken_le plan p
    have hle := accepted_le_claimed plan.tail ps
    simp only [accepted,claimed,Whole,← ih plan.tail]
    by_cases h : Stream.taken plan p = 0
    · simp [h]
    · rw [if_neg h,if_neg h,or_iff_right h]
      omega

/-- What some writes left, whether one of them threw or not. -/
structure Written (ps : List Bytes) (w : SocketWriter)
    (r : Except (Stop Exn) Unit × SocketWriter) : Prop where
  length_eq : r.2.stream.output.length = w.stream.output.length + accepted w.stream.plan ps
  count_eq : w.bytesWritten.bmod (2^32) = w.bytesWritten →
    r.2.bytesWritten = (w.bytesWritten + claimed w.stream.plan ps).bmod (2^32)
  returns : r.1 = .ok () → claimed w.stream.plan ps = ps.flatten.length ∧
    (Whole w.stream.plan ps → r.2.stream.output = w.stream.output ++ ps.flatten)
  throws : r.1 ≠ .ok () → ps ≠ [] ∧ claimed w.stream.plan ps ≤ ps.dropLast.flatten.length ∧
    (r.1 = .error (.throw .timeoutException) ∨ ∃ what, r.1 = .error (.throw (.internalError what)))

theorem written_nil (w : SocketWriter) : Written [] w (.ok (),w) where
  length_eq := rfl
  count_eq hb := by simpa [claimed] using hb.symm
  returns _ := ⟨rfl,fun _ => by simp⟩
  throws h := absurd rfl h

theorem Written.settle {ps : List Bytes} {w : SocketWriter}
    {r : Except (Stop Exn) Unit × SocketWriter} (h : Written ps w r) (c : Call) :
    Written ps w (r.1,c.settle r.2) := by
  obtain ⟨h₁,h₂,h₃,h₄⟩ := h
  exact ⟨by rwa [Call.settle_output],by rwa [Call.settle_bytesWritten],
    by rwa [Call.settle_output],h₄⟩

theorem written_error {w : SocketWriter} {p : Bytes} (h : Stream.taken w.stream.plan p = 0)
    (ps : List Bytes) : Written (p::ps) w (.error (.throw (writeError (w.stream.fwrite p).2)),
      { w with stream := (w.stream.fwrite p).2 }) where
  length_eq := by simp [Stream.fwrite_output,h,accepted]
  count_eq hb := by simpa [claimed,h] using hb.symm
  returns hr := by cases hr
  throws _ := by
    refine ⟨by simp,by simp [claimed,h],?_⟩
    unfold writeError
    split
    · exact .inl rfl
    · exact .inr ⟨_,rfl⟩

/-- The first write is accepted, at least in part, and counted in full. -/
theorem written_cons {w t : SocketWriter} {p : Bytes} {ps : List Bytes}
    {r : Except (Stop Exn) Unit × SocketWriter} (h : Stream.taken w.stream.plan p ≠ 0)
    (hs : t.stream = (w.stream.fwrite p).2)
    (hb : t.bytesWritten = (w.bytesWritten + p.length).bmod (2^32)) (hr : Written ps t r) :
    Written (p::ps) w r := by
  obtain ⟨h₁,h₂,h₃,h₄⟩ := hr
  have hplan : t.stream.plan = w.stream.plan.tail := by rw [hs,Stream.fwrite_plan]
  have hout : t.stream.output = w.stream.output ++ p.take (Stream.taken w.stream.plan p) := by
    rw [hs,Stream.fwrite_output]
  have hle := Stream.taken_le w.stream.plan p
  rw [hplan] at h₁ h₂ h₃ h₄
  refine ⟨?_,fun _ => ?_,fun ho => ?_,fun ho => ?_⟩
  · rw [h₁,hout,accepted,if_neg h,List.length_append,List.length_take,min_eq_left hle]
    omega
  · rw [h₂ (by rw [hb,Int.bmod_bmod]),hb,claimed,if_neg h,Int.bmod_add_bmod]
    push_cast
    rw [Int.add_assoc]
  · obtain ⟨hc,hw⟩ := h₃ ho
    refine ⟨by simp [claimed,h,hc],fun hwhole => ?_⟩
    rw [Whole,or_iff_right h] at hwhole
    rw [hw hwhole.2,hout,hwhole.1,List.take_length]
    simp
  · obtain ⟨hne,hc,he⟩ := h₄ ho
    refine ⟨by simp,?_,he⟩
    rw [claimed,if_neg h,List.dropLast_cons_of_ne_nil hne,List.flatten_cons,List.length_append]
    omega

theorem written_perform {as : List (Bytes × Mark)} (hne : ∀ a ∈ as, a.1 ≠ [])
    (w : SocketWriter) : Written (as.map Prod.fst) w ((perform as).run w) := by
  induction as generalizing w with
  | nil => exact written_nil w
  | cons a as ih =>
    have hw := run_write_eq (w:=w) (hne a (by simp))
    rw [Stream.fwrite_count] at hw
    rw [List.map_cons]
    by_cases h : Stream.taken w.stream.plan a.1 = 0
    · rw [if_pos h] at hw
      rw [run_perform_error hw]
      exact written_error h _
    · rw [if_neg h] at hw
      rw [run_perform_ok hw]
      exact written_cons h (by simp) (by simp) (ih (fun b hb => hne b (by simp [hb])) _)

/-! ## Calls -/

def Call.pieces (w : SocketWriter) (c : Call) : List Bytes :=
  if c.refused w then [] else (c.actions w).map Prod.fst

theorem statusLine_ne_nil (status : StatusCode) : statusLine status ++ crlf ≠ [] := by
  simp [crlf]

theorem headerLine_ne_nil (key value : Bytes) : headerLine key value ≠ [] := by
  simp [headerLine,crlf]

theorem ne_nil_of_mem_actions {w : SocketWriter} {c : Call} {a : Bytes × Mark}
    (h : a ∈ c.actions w) : a.1 ≠ [] := by
  have hhead : ∀ status, a ∈ headActions status → a.1 ≠ [] := by
    intro status h
    rcases (by simpa [headActions] using h : a = _ ∨ a = _) with rfl | rfl
    · exact statusLine_ne_nil status
    · exact headerLine_ne_nil _ _
  cases c with
  | writeStatus status => exact hhead status h
  | writeHeader key value =>
    obtain rfl : a = _ := by simpa [Call.actions] using h
    exact headerLine_ne_nil key value
  | flush => cases h
  | writeData data =>
    rcases List.mem_append.mp h with h | h
    · unfold openActions at h
      split at h
      · cases h
      · rcases List.mem_append.mp h with h | h
        · split at h
          · exact hhead .ok h
          · cases h
        · obtain rfl : a = _ := by simpa using h
          simp [crlf]
    · unfold dataActions at h
      split at h
      · cases h
      · rename_i hd
        obtain rfl : a = _ := by simpa using h
        simpa using hd

theorem written_exec (w : SocketWriter) (c : Call) : c.refused w = true ∨
    Written (c.pieces w) w (c.exec.run w) := by
  cases hr : c.refused w with
  | true => exact .inl rfl
  | false =>
    refine .inr ?_
    rw [run_exec,hr,Call.pieces,hr]
    exact (written_perform (fun a ha => ne_nil_of_mem_actions ha) w).settle c

theorem length_openActions (w : SocketWriter) :
    ((openActions w).map Prod.fst).flatten.length < 100 := by
  unfold openActions
  generalize w.sendingData = sending
  generalize w.status.isNone = first
  cases sending <;> cases first <;> decide

theorem length_dropLast_headActions (status : StatusCode) :
    ((headActions status).map Prod.fst).dropLast.flatten.length < 100 := by
  cases status <;> decide

theorem length_dropLast_pieces (w : SocketWriter) (c : Call) :
    (c.pieces w).dropLast.flatten.length < 100 := by
  unfold Call.pieces
  split
  · decide
  · cases c with
    | writeStatus status => exact length_dropLast_headActions status
    | writeHeader key value => simp [Call.actions]
    | flush => simp [Call.actions]
    | writeData data =>
      have h := length_openActions w
      rw [Call.actions,List.map_append]
      generalize (openActions w).map Prod.fst = ps at h ⊢
      unfold dataActions
      split
      · have := (List.dropLast_sublist ps).flatten.length_le
        simpa using this.trans_lt h
      · simpa using h

/-! ## Runs -/

/-- The call returns only when all it was to write was accepted, else it throws one of the two
exceptions; the count of bytes is right after it. -/
structure AcceptedInFull (w : SocketWriter) (c : Call) : Prop where
  returns : (c.exec.run w).1 = .ok () →
    (calls.next w c).stream.output = w.stream.output ++ (c.pieces w).flatten
  throws : (c.exec.run w).1 ≠ .ok () → (c.exec.run w).1 = .error (.throw .timeoutException) ∨
    ∃ what, (c.exec.run w).1 = .error (.throw (.internalError what))
  count : (calls.next w c).bytesWritten = (calls.next w c).stream.output.length

/-- No write of the call is cut short, unless to nothing, and the bytes sent can be counted. -/
def Uncut (w : SocketWriter) (c : Call) : Prop :=
  Whole w.stream.plan (c.pieces w) ∧
    w.stream.output.length + accepted w.stream.plan (c.pieces w) < 2^31

structure Counts (w : SocketWriter) : Prop where
  count : w.bytesWritten = w.stream.output.length
  small : w.stream.output.length < 2^31

theorem bmod_of_lt {n : ℕ} (h : n < 2^31) : (n : ℤ).bmod (2^32) = n := by
  apply Int.bmod_eq_of_le <;> omega

theorem bmod_eq_natCast {a c : ℕ} (h : (a : ℤ).bmod (2^32) = c) :
    c < 2^31 ∧ ((2^32 : ℕ) : ℤ) ∣ c - a := by
  obtain ⟨-,hlt,hdvd⟩ := (Int.bmod_eq_iff (by decide)).mp h
  exact ⟨by omega,hdvd⟩

theorem uncut_of_nil {w : SocketWriter} (hw : Counts w) {c : Call} (hp : c.pieces w = []) :
    Uncut w c := by
  rw [Uncut,hp]
  exact ⟨trivial,hw.small⟩

/-- A call keeps the count and is accepted in full exactly when it is not cut. -/
theorem acceptedInFull_iff {w : SocketWriter} (hw : Counts w) (c : Call) :
    AcceptedInFull w c ↔ Uncut w c := by
  rcases written_exec w c with hr | h
  · -- a refused call writes nothing
    have hrun := run_exec c w
    rw [if_pos hr] at hrun
    have hp : c.pieces w = [] := if_pos hr
    refine iff_of_true ⟨fun h => ?_,fun _ => ?_,?_⟩ (uncut_of_nil hw hp)
    · rw [hrun] at h
      cases h
    · rw [hrun]
      exact .inr ⟨_,rfl⟩
    · rw [show calls.next w c = w from congrArg Prod.snd hrun]
      exact hw.count
  · have hle := accepted_le_claimed w.stream.plan (c.pieces w)
    have hshort := length_dropLast_pieces w c
    have hcount : (calls.next w c).bytesWritten =
        ((w.stream.output.length + claimed w.stream.plan (c.pieces w) : ℕ) : ℤ).bmod (2^32) := by
      have := h.count_eq (by rw [hw.count,bmod_of_lt hw.small])
      rw [hw.count] at this
      exact_mod_cast this
    have hlen : (calls.next w c).stream.output.length =
        w.stream.output.length + accepted w.stream.plan (c.pieces w) := h.length_eq
    rw [Uncut,← accepted_eq_claimed_iff]
    constructor
    · intro ha
      obtain ⟨hlt,hdvd⟩ := bmod_eq_natCast (hcount.symm.trans ha.count)
      rw [hlen] at hlt hdvd
      refine ⟨?_,hlt⟩
      by_cases hok : (c.exec.run w).1 = .ok ()
      · -- all of it was counted, and all of it was accepted
        have hout := congrArg List.length (ha.returns hok)
        rw [hlen,List.length_append] at hout
        have := (h.returns hok).1
        omega
      · -- what was counted without being accepted is too little to go unnoticed
        have hsmall := (h.throws hok).2.1
        push_cast at hdvd
        obtain ⟨k,hk⟩ := hdvd
        omega
    · rintro ⟨heq,hlt⟩
      refine ⟨fun hok => ?_,fun hne => (h.throws hne).2.2,?_⟩
      · exact (h.returns hok).2 ((accepted_eq_claimed_iff _ _).mp heq)
      · rw [hcount,← heq,bmod_of_lt hlt,hlen]

theorem counts_next {w : SocketWriter} {c : Call} (hw : Counts w) (h : Uncut w c) :
    Counts (calls.next w c) := by
  refine ⟨((acceptedInFull_iff hw c).mpr h).count,?_⟩
  rcases written_exec w c with hr | hwr
  · rw [show calls.next w c = w from congrArg Prod.snd ((run_exec c w).trans (if_pos hr))]
    exact hw.small
  · exact hwr.length_eq.trans_lt h.2

/-- In a run every call is accepted in full or throws, and the count is right all along,
exactly when no write is cut short, except to nothing, and there are less than 2 ^ 31 bytes. -/
theorem calls_acceptedInFull_iff {f : Stream} (hs : f.sent = []) (cs : List Call) :
    calls.Along AcceptedInFull (init f) cs ↔ calls.Along Uncut (init f) cs := by
  have hinit : Counts (init f) := by
    constructor <;> simp [init,Stream.output,hs]
  exact System.along_iff (E:=fun _ _ => True) (fun w c hw _ => acceptedInFull_iff hw c)
    (fun w c hw _ h => counts_next hw h) hinit (System.along_of_mem fun _ _ _ => trivial)

/-- A stream that accepts a status line and the header after it, and then times out. -/
def stalled : Stream := { Stream.ofBytes [] with plan := [⟨100,0⟩,⟨100,0⟩,⟨0,EAGAIN⟩] }

theorem calls_acceptedInFull_iff_stalled :
    calls.Along AcceptedInFull (init stalled) [.writeStatus .ok,.writeData (ascii "abc")] ↔
      calls.Along Uncut (init stalled) [.writeStatus .ok,.writeData (ascii "abc")] :=
  calls_acceptedInFull_iff rfl _

/-- Two of three bytes of data are accepted, and three are counted. -/
theorem not_acceptedInFull : ¬ ∀ (f : Stream) (cs : List Call), f.sent = [] →
    calls.Along AcceptedInFull (init f) cs := by
  intro h
  have hcut := h { Stream.ofBytes [] with plan := [⟨100,0⟩,⟨100,0⟩,⟨100,0⟩,⟨2,EAGAIN⟩] }
    [.writeData (ascii "abc")] rfl
  have hcount := hcut.1.count
  revert hcount
  decide +kernel

end Http.SocketWriter
end Gabby
