import Gabby.JsonPrinted
import Gabby.ServiceResponse

/-! Whether the answer can be read back from the printed response. The printer does not escape
the strings of the answer, and the parser takes a backslash for an escape. -/
namespace Gabby.Service

open Json

/-- The choices are one object, and its message is the answer. -/
def Carries (v : Value) (answer : Message) : Prop :=
  ∃ ms choice message, v = .object ms ∧
    Dict.find (ascii "choices") ms = some (.array [.object choice]) ∧
    Dict.find (ascii "message") choice = some (.object message) ∧
    Dict.find (ascii "role") message = some (.string answer.role) ∧
    Dict.find (ascii "content") message = some (.string answer.content)

namespace Carries

variable {v w : Value} {answer : Message} {N : Double → Prop} {S : Bytes → Prop}

theorem strings (h : Carries v answer) (hv : v.Of N S) : S answer.role ∧ S answer.content := by
  obtain ⟨ms,choice,message,rfl,hc,hm,hr,ht⟩ := h
  have hmessage := ((hv.find hc).element (by simp)).find hm
  have hstring : ∀ {s : Bytes}, Value.Of N S (.string s) → S s := fun h => by
    cases h with
    | string _ h => exact h
  exact ⟨hstring (hmessage.find hr),hstring (hmessage.find ht)⟩

theorem shaped {R : Value → Value → Prop} (hR : Shaped R) (h : Carries v answer)
    (hv : v.Of N S) (hw : R v w) : Carries w answer := by
  obtain ⟨ms,choice,message,rfl,hc,hm,hr,ht⟩ := h
  have hchoice := (hv.find hc).element (List.mem_singleton_self _)
  have hmessage := hchoice.find hm
  obtain ⟨ms',rfl,hms⟩ := hR.find hv.wf hw
  obtain ⟨_,hc',hu⟩ := hms hc
  obtain ⟨us,rfl,hus⟩ := hR.array hu
  rcases hus with _ | ⟨hu',⟨⟩⟩
  obtain ⟨choice',rfl,hchoice'⟩ := hR.find hchoice.wf hu'
  obtain ⟨_,hm',hu⟩ := hchoice' hm
  obtain ⟨message',rfl,hmessage'⟩ := hR.find hmessage.wf hu
  obtain ⟨_,hr',hu⟩ := hmessage' hr
  obtain rfl := hR.string hu
  obtain ⟨_,ht',hu⟩ := hmessage' ht
  obtain rfl := hR.string hu
  exact ⟨ms',choice',message',rfl,hc',hm',hr',ht'⟩

end Carries

/-! ## The parts of the response -/

def Rereadable (d : Double) : Prop := chr '\\' ∉ d.print ∧ ∃ d', RereadsNumber d d'

theorem of_number {n : ℕ} {text : Bytes}
    (hp : ((Double.ofFraction false n 1).getD (.inf false)).print = text) (ht : NumberText text)
    (hs : (Double.stod text).isSome = true) (hb : chr '\\' ∉ text) :
    (number n).Of Rereadable Unescaped := by
  subst hp
  obtain ⟨d,hd⟩ := Option.isSome_iff_exists.mp hs
  exact .number _ ⟨hb,d,ht,hd⟩

theorem of_zero : (number 0).Of Rereadable Unescaped :=
  of_number (by decide +kernel) (numberText_decimal false 0) (by decide +kernel) (by decide +kernel)

theorem of_one : (number 1).Of Rereadable Unescaped :=
  of_number (by decide +kernel) (numberText_decimal false 1) (by decide +kernel) (by decide +kernel)

/-- The creation time is printed with six digits only. -/
theorem of_created : (number 1111111111).Of Rereadable Unescaped :=
  of_number (show _ = ascii "1.11111e+09" by decide +kernel)
    (.mk [] (chr '1') [] (ascii ".11111") (ascii "e+09") (.inl ⟨rfl,by decide +kernel⟩) rfl
      (.inr ⟨ascii "11111",rfl,by decide +kernel⟩)
      (.inr ⟨chr '+',ascii "09",rfl,by decide +kernel⟩))
    (by decide +kernel) (by decide +kernel)

def message (answer : Message) : List (Bytes × Value) :=
  [(ascii "role",.string answer.role),(ascii "content",.string answer.content)]

def choiceRest : List (Bytes × Value) :=
  [(ascii "index",number 0),(ascii "logprobs",.nil),(ascii "finish_reason",.string (ascii "stop"))]

theorem choice_eq (answer : Message) :
    choice answer = .object (choiceRest ++ (ascii "message",.object (message answer))::[]) := rfl

theorem stub_eq (choices : List Value) : stub choices =
    (stub []).take 5 ++ (ascii "choices",.array choices)::(stub []).drop 6 := rfl

structure Inert (m : Bytes × Value) : Prop where
  keyword : Keyword m.1
  unescaped : Unescaped m.1
  of : m.2.Of Rereadable Unescaped

theorem inert_choiceRest : ∀ m ∈ choiceRest, Inert m := by
  have hk : ∀ m ∈ choiceRest, Keyword m.1 ∧ Unescaped m.1 := by decide +kernel
  have hv : ∀ m ∈ choiceRest, m.2.Of Rereadable Unescaped := by
    simp only [choiceRest,List.forall_mem_cons]
    exact ⟨of_zero,.nil,.string _ (by decide +kernel),by simp⟩
  exact fun m hm => ⟨(hk m hm).1,(hk m hm).2,hv m hm⟩

theorem inert_stub : ∀ m ∈ stub [], Inert m := by
  have hk : ∀ m ∈ stub [], Keyword m.1 ∧ Unescaped m.1 := by decide +kernel
  have hv : ∀ m ∈ stub [], m.2.Of Rereadable Unescaped := by
    simp only [stub,List.forall_mem_cons]
    refine ⟨.string _ (by decide +kernel),.string _ (by decide +kernel),of_created,
      .string _ (by decide +kernel),.string _ (by decide +kernel),.array _ (by simp),
      .object _ (by decide +kernel) (by decide +kernel) ?_,by simp⟩
    simp only [List.forall_mem_cons]
    refine ⟨of_one,of_one,of_one,.object _ (by decide +kernel) (by decide +kernel) ?_,by simp⟩
    simp only [List.forall_mem_cons]
    exact ⟨of_one,of_zero,of_zero,by simp⟩
  exact fun m hm => ⟨(hk m hm).1,(hk m hm).2,hv m hm⟩

theorem inert_around_choices : ∀ m ∈ (stub []).take 5 ++ (stub []).drop 6, Inert m := by
  intro m hm
  rcases List.mem_append.mp hm with hm | hm
  · exact inert_stub m (List.mem_of_mem_take hm)
  · exact inert_stub m (List.mem_of_mem_drop hm)

/-! ## All strings of the response -/

section

variable {S : Bytes → Prop} (hS : ∀ s, Unescaped s → S s)
include hS

theorem of_insert {ms ns : List (Bytes × Value)} {k : Bytes} {v : Value}
    (hwf : Dict.WF (ms ++ (k,v)::ns)) (hm : ∀ m ∈ ms ++ ns, Inert m) (hk : Unescaped k)
    (hv : v.Of Rereadable S) : Value.Of Rereadable S (.object (ms ++ (k,v)::ns)) := by
  have hmem : ∀ m ∈ ms ++ (k,v)::ns, m = (k,v) ∨ m ∈ ms ++ ns := by
    simp only [List.mem_append,List.mem_cons]
    tauto
  refine .object _ hwf (fun m h => ?_) fun m h => ?_ <;> rcases hmem m h with rfl | h
  · exact hS _ hk
  · exact hS _ (hm m h).unescaped
  · exact hv
  · exact (hm m h).of.mono (fun _ h => h) hS

theorem of_message {answer : Message} (hr : S answer.role) (hc : S answer.content) :
    Value.Of Rereadable S (.object (message answer)) := by
  refine .object _ (show Dict.WF (message ⟨[],[]⟩) by decide +kernel) ?_ ?_ <;>
    simp only [message,List.forall_mem_cons]
  · exact ⟨hS _ (by decide +kernel),hS _ (by decide +kernel),by simp⟩
  · exact ⟨.string _ hr,.string _ hc,by simp⟩

/-- The strings of the response are unescaped, but for those of the answer. -/
theorem of_response {answer : Message} (hr : S answer.role) (hc : S answer.content) :
    Value.Of Rereadable S (.object (stub [choice answer])) := by
  have hchoice : (choice answer).Of Rereadable S := by
    rw [choice_eq]
    exact of_insert hS (show Dict.WF (choiceRest ++ [(ascii "message",.nil)]) by decide +kernel)
      (by simpa using inert_choiceRest) (by decide +kernel) (of_message hS hr hc)
  rw [stub_eq]
  exact of_insert hS (show Dict.WF (stub []) by decide +kernel) inert_around_choices
    (by decide +kernel) (.array _ (by simpa using hchoice))

end

/-! ## The response shows the answer -/

theorem Inert.quiet {m : Bytes × Value} (h : Inert m) {u : Value} (hu : m.2.Enumerates u) :
    Quiet (m.1,u) :=
  ⟨h.keyword,no_backslash_print ((h.of.enumerates hu).mono (fun _ h => h.1)
    fun _ h hb => (h _ hb).2.1 rfl)⟩

theorem shows_response {answer : Message} {w : Value}
    (h : Value.Enumerates (.object (stub [choice answer])) w) :
    Shows answer.role answer.content w.print := by
  have hmessage : ∀ u, Value.Enumerates (.object (message answer)) u →
      Shows answer.role answer.content u.print :=
    fun u => Shows.enumerates_pair (by decide +kernel) (by decide +kernel)
  have hchoice : ∀ u, (choice answer).Enumerates u →
      Shows answer.role answer.content u.print := fun u hu => by
    rw [choice_eq] at hu
    exact Shows.enumerates_object hmessage (by decide +kernel)
      (fun m hm u => (inert_choiceRest m (by simpa using hm)).quiet) hu
  rw [stub_eq] at h
  exact Shows.enumerates_object (fun u => Shows.enumerates_array hchoice) (by decide +kernel)
    (fun m hm u => (inert_around_choices m hm).quiet) h

/-! ## Lengths -/

def overhead : ℕ := 450

theorem length_print_response (answer : Message) :
    (Value.print (.object (stub [choice answer]))).length =
      overhead + (answer.role.length + answer.content.length) := by
  have hbase : (Value.print (.object (stub [choice ⟨[],[]⟩]))).length = overhead := by
    decide +kernel
  have hmessage : (Value.print (.object (message answer))).length =
      (Value.print (.object (message ⟨[],[]⟩))).length +
        (answer.role.length + answer.content.length) := by
    rw [Value.length_print_object,Value.length_print_object]
    simp only [message,List.map_cons,List.map_nil,List.sum_cons,
      Value.memberLength,Value.print,List.length_append,List.length_cons,List.length_nil]
    omega
  have hchoice := Value.length_print_replace choiceRest [] (ascii "message") hmessage
  rw [← choice_eq,← choice_eq] at hchoice
  have harray : (Value.print (.array [choice answer])).length =
      (Value.print (.array [choice ⟨[],[]⟩])).length +
        (answer.role.length + answer.content.length) := by
    simp [Value.print,Value.printValues,hchoice]
    omega
  have hstub := Value.length_print_replace ((stub []).take 5) ((stub []).drop 6)
    (ascii "choices") harray
  rw [← stub_eq,← stub_eq,hbase] at hstub
  exact hstub

/-! ## Fidelity -/

theorem carries_response (answer : Message) : Carries (.object (stub [choice answer])) answer := by
  have hrest : Dict.find (ascii "message") choiceRest = none :=
    Dict.find_eq_none.mpr (by decide +kernel)
  refine ⟨_,choiceRest ++ [(ascii "message",.object (message answer))],message answer,rfl,
    find_choices _,?_,?_,?_⟩
  · rw [Dict.find_append,hrest,Option.none_or,Dict.find_cons,if_pos rfl]
  · rw [message,Dict.find_cons,if_pos rfl]
  · rw [message,Dict.find_cons,if_neg (by decide +kernel),Dict.find_cons,if_pos rfl]

section

variable {answer : Message} {w : Value}
  (hw : Value.Enumerates (.object (stub [choice answer])) w)
include hw

theorem length_print_enumerated :
    w.print.length = overhead + (answer.role.length + answer.content.length) :=
  (Value.length_print_of_enumerates hw).trans (length_print_response answer)

/-- A text that `Parse` accepts only a part of is too long to hold both strings in the part. -/
theorem length_print_lt {u : Value} (hu : parseString w.toString = .ok u)
    (hc : Carries u answer) : w.print.length < 2^31 := by
  obtain ⟨⟨ts,hs,hd⟩,hsize⟩ := parseString_denotes hu
  rw [Value.toString] at hs hsize
  obtain ⟨hr,ht⟩ := hc.strings hd.of
  by_contra hge
  have h₁ := hs.length_str_le hr
  have h₂ := hs.length_str_le ht
  have h₃ := toInt32_lt hsize.symm (not_lt.mp hge)
  have hlen := length_print_enumerated hw
  rw [overhead] at hlen
  omega

theorem unescaped_of_carries {u : Value} (hu : parseString w.toString = .ok u)
    (hc : Carries u answer) : Unescaped answer.role ∧ Unescaped answer.content := by
  obtain ⟨ts,hs,hd⟩ := (parseString_eq_ok (length_print_lt hw hu hc)).mp hu
  obtain ⟨hr,ht⟩ := hc.strings hd.of
  obtain ⟨h₁,h₂⟩ := (shows_response hw).specials_eq_zero hs hr ht
  exact ⟨unescaped_of_specials h₁ (hs.no_newline hr),
    unescaped_of_specials h₂ (hs.no_newline ht)⟩

theorem carries_of_unescaped (hr : Unescaped answer.role) (hc : Unescaped answer.content)
    (hlt : w.print.length < 2^31) : ∃ u, parseString w.toString = .ok u ∧ Carries u answer := by
  have hof := of_response (fun _ h => h) hr hc
  obtain ⟨u,hu⟩ := exists_rereads ((hof.enumerates hw).mono (fun _ h => h.2) fun _ h => h)
  exact ⟨u,(parseString_eq_ok hlt).mpr (denotes_print hu),((carries_response answer).shaped
    shaped_enumerates hof hw).shaped shaped_rereads (hof.enumerates hw) hu⟩

end

/-- The answer comes back from the printed response exactly when neither string needs an
escape and the whole text is short enough for the `int` that `Parse` is given. -/
theorem makeResponse_carries (answer : Message) {v w : Value} (hv : makeResponse answer = .ok v)
    (hw : v.Enumerates w) : (∃ u, parseString w.toString = .ok u ∧ Carries u answer) ↔
      Unescaped answer.role ∧ Unescaped answer.content ∧
        overhead + (answer.role.length + answer.content.length) < 2^31 := by
  rw [makeResponse_eq] at hv
  obtain rfl := Except.ok.inj hv
  rw [← length_print_enumerated hw]
  constructor
  · rintro ⟨u,hu,hc⟩
    obtain ⟨hr,ht⟩ := unescaped_of_carries hw hu hc
    exact ⟨hr,ht,length_print_lt hw hu hc⟩
  · rintro ⟨hr,hc,hlt⟩
    exact carries_of_unescaped hw hr hc hlt

theorem makeResponse_carries_hello :
    ∃ u, parseString (Value.toString (.object (stub [choice ⟨ascii "assistant",ascii "hello"⟩]))) =
      .ok u ∧ Carries u ⟨ascii "assistant",ascii "hello"⟩ :=
  (makeResponse_carries ⟨ascii "assistant",ascii "hello"⟩ (makeResponse_eq _)
    (Value.enumerates_refl (of_response (S:=fun _ => True) (by simp) trivial trivial))).mpr
      ⟨by decide +kernel,by decide +kernel,by decide +kernel⟩

/-- An answer that is one quote does not come back. -/
theorem makeResponse_carries_quote :
    ¬ ∀ (answer : Message) (v w : Value), makeResponse answer = .ok v → v.Enumerates w →
      ∃ u, parseString w.toString = .ok u ∧ Carries u answer := by
  intro h
  have hw : Value.Enumerates (.object (stub [choice ⟨ascii "assistant",ascii "\""⟩])) _ :=
    Value.enumerates_refl (of_response (S:=fun _ => True) (by simp) trivial trivial)
  obtain ⟨u,hu,hc⟩ := h ⟨ascii "assistant",ascii "\""⟩ _ _ (makeResponse_eq _) hw
  exact absurd (unescaped_of_carries hw hu hc).2 (by decide +kernel)

end Gabby.Service
