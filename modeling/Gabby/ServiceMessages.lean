import Gabby.HttpReplies
import Gabby.JsonComparison
import Gabby.ServiceRequest

/-! The two messages of a chat completion: what `ExtractRequest` accepts, which messages it
takes, and how it fails. -/
namespace Gabby.Service

open Json Http

/-! ## Searching -/

section FindIf

variable {p : Value → Except Exn Bool} {last index : ℤ} {vs : List Value}

theorem findIf_eq_some (hl : index + vs.length = last) {v : Value} :
    findIf p last index vs = .ok (some v) ↔ ∃ before after, vs = before ++ v::after ∧
      (∀ u ∈ before, p u = .ok false) ∧ p v = .ok true := by
  induction vs generalizing index with
  | nil =>
    obtain rfl : index = last := by simpa using hl
    simp [findIf]
  | cons w vs ih =>
    simp only [List.length_cons,Nat.cast_add,Nat.cast_one] at hl
    have hl : index + 1 + vs.length = last := by omega
    have ih := ih hl
    rw [findIf,if_neg (by omega),bind_eq_ok]
    constructor
    · rintro ⟨_ | _,hw,h⟩
      · obtain ⟨before,after,rfl,hb,hv⟩ := ih.mp h
        exact ⟨w::before,after,rfl,List.forall_mem_cons.mpr ⟨hw,hb⟩,hv⟩
      · cases h
        exact ⟨[],vs,rfl,by simp,hw⟩
    · rintro ⟨_ | ⟨u,before⟩,after,h,hb,hv⟩
      · obtain ⟨rfl,rfl⟩ := List.cons.inj h
        exact ⟨true,hv,rfl⟩
      · obtain ⟨rfl,rfl⟩ := List.cons.inj h
        exact ⟨false,hb w (by simp),ih.mpr ⟨before,after,rfl,fun u hu => hb u (by simp [hu]),hv⟩⟩

theorem findIf_eq_error (hl : index + vs.length = last) {e : Exn}
    (h : findIf p last index vs = .error e) : ∃ v ∈ vs, p v = .error e := by
  induction vs generalizing index with
  | nil =>
    obtain rfl : index = last := by simpa using hl
    simp [findIf] at h
  | cons w vs ih =>
    simp only [List.length_cons,Nat.cast_add,Nat.cast_one] at hl
    have hl' : index + 1 + vs.length = last := by omega
    rw [findIf,if_neg (by omega),bind_eq_error] at h
    rcases h with hw | ⟨_ | _,-,h⟩
    · exact ⟨w,by simp,hw⟩
    · obtain ⟨v,hv,he⟩ := ih hl' h
      exact ⟨v,by simp [hv],he⟩
    · cases h

end FindIf

/-! ## Members that are strings -/

def HasString (v : Value) (key s : Bytes) : Prop :=
  ∃ ms, v = .object ms ∧ Dict.find key ms = some (.string s)

theorem asObject_eq_ok {v : Value} {ms : Dict Bytes Value} :
    v.asObject = .ok ms ↔ v = .object ms := by
  cases v <;> simp [Value.asObject]

theorem asArray_eq_ok {v : Value} {vs : List Value} : v.asArray = .ok vs ↔ v = .array vs := by
  cases v <;> simp [Value.asArray]

theorem asString_eq_ok {v : Value} {s : Bytes} : v.asString = .ok s ↔ v = .string s := by
  cases v <;> simp [Value.asString]

theorem at_eq_ok {ms : Dict Bytes Value} {key : Bytes} {v : Value} :
    ObjectValue.at ms key = .ok v ↔ Dict.find key ms = some v := by
  unfold ObjectValue.at
  cases Dict.find key ms <;> simp

theorem hasRole_eq_ok {role : Bytes} {v : Value} {b : Bool} :
    hasRole role v = .ok b ↔ ∃ r, HasString v (ascii "role") r ∧ (r == role) = b := by
  simp only [hasRole,HasString,bind_eq_ok,asObject_eq_ok,at_eq_ok,asString_eq_ok]
  constructor
  · rintro ⟨ms,rfl,w,hf,r,rfl,h⟩
    exact ⟨r,⟨ms,rfl,hf⟩,Except.ok.inj h⟩
  · rintro ⟨r,⟨ms,rfl,hf⟩,rfl⟩
    exact ⟨ms,rfl,_,hf,r,rfl,rfl⟩

/-! ## The message of a role -/

def FirstWithRole (role : Bytes) (msgs : List Value) (m : Message) : Prop :=
  ∃ before v after, msgs = before ++ v::after ∧
    (∀ u ∈ before, ∃ r, HasString u (ascii "role") r ∧ r ≠ role) ∧
    HasString v (ascii "role") role ∧ HasString v (ascii "content") m.content ∧ m.role = role

variable {role : Bytes} {msgs : List Value}

theorem findIf_hasRole_eq_some (hl : msgs.length < 2^31) {v : Value} :
    findIf (hasRole role) (toInt32 msgs.length) 0 msgs = .ok (some v) ↔
      ∃ before after, msgs = before ++ v::after ∧
        (∀ u ∈ before, ∃ r, HasString u (ascii "role") r ∧ r ≠ role) ∧
        HasString v (ascii "role") role := by
  rw [toInt32_of_lt hl,findIf_eq_some (by simp)]
  simp [hasRole_eq_ok]

theorem findMessageForRole_eq_ok (hl : msgs.length < 2^31) {m : Message} :
    findMessageForRole role msgs = .ok m ↔ FirstWithRole role msgs m := by
  rw [findMessageForRole,bind_eq_ok]
  constructor
  · rintro ⟨_ | v,hf,h⟩
    · cases h
    · obtain ⟨before,after,hs,hb,hr⟩ := (findIf_hasRole_eq_some hl).mp hf
      simp only [bind_eq_ok,asObject_eq_ok,at_eq_ok,asString_eq_ok] at h
      obtain ⟨ms,rfl,w,hw,r,rfl,x,hx,c,rfl,h⟩ := h
      obtain ⟨ms',hms,hr'⟩ := hr
      cases hms
      rw [hw] at hr'
      cases hr'
      cases h
      exact ⟨before,_,after,hs,hb,⟨_,rfl,hw⟩,⟨_,rfl,hx⟩,rfl⟩
  · rintro ⟨before,v,after,hs,hb,hr,hc,hrole⟩
    refine ⟨some v,(findIf_hasRole_eq_some hl).mpr ⟨before,after,hs,hb,hr⟩,?_⟩
    obtain ⟨ms,rfl,hr⟩ := hr
    obtain ⟨ms',hms,hc⟩ := hc
    cases hms
    rcases m with ⟨_,content⟩
    cases hrole
    simp only [bind_eq_ok,asObject_eq_ok,at_eq_ok,asString_eq_ok]
    exact ⟨ms,rfl,_,hr,_,rfl,_,hc,content,rfl,rfl⟩

/-! ## Errors of the client -/

/-- Everything that can go wrong here is the client's fault. -/
def Blames {α : Type} (x : Except Exn α) : Prop := ∀ e, x = .error e → rescueStatus e = .badRequest

theorem blames_ok {α : Type} (a : α) : Blames (.ok a) := by simp [Blames]

theorem blames_error {α : Type} {e : Exn} (h : rescueStatus e = .badRequest) :
    Blames (.error e : Except Exn α) := by
  rintro _ ⟨⟩
  exact h

theorem Blames.bind {α β : Type} {x : Except Exn α} {f : α → Except Exn β} (hx : Blames x)
    (hf : ∀ a, Blames (f a)) : Blames (x >>= f) := by
  cases x with
  | ok a => exact hf a
  | error e => exact blames_error (hx e rfl)

theorem blames_asString (v : Value) : Blames v.asString := by
  cases v <;> first | exact blames_ok _ | exact blames_error rfl

theorem blames_asArray (v : Value) : Blames v.asArray := by
  cases v <;> first | exact blames_ok _ | exact blames_error rfl

theorem blames_asObject (v : Value) : Blames v.asObject := by
  cases v <;> first | exact blames_ok _ | exact blames_error rfl

theorem blames_at (ms : Dict Bytes Value) (k : Bytes) : Blames (ObjectValue.at ms k) := by
  unfold ObjectValue.at
  split
  · exact blames_error rfl
  · exact blames_ok _

theorem blames_findIf {p : Value → Except Exn Bool} (hp : ∀ v, Blames (p v)) {vs : List Value}
    (hl : vs.length < 2^31) : Blames (findIf p (toInt32 vs.length) 0 vs) := by
  intro e he
  rw [toInt32_of_lt hl] at he
  obtain ⟨v,-,hv⟩ := findIf_eq_error (by simp) he
  exact hp v e hv

theorem blames_hasRole (role : Bytes) (v : Value) : Blames (hasRole role v) :=
  (blames_asObject v).bind fun _ => (blames_at _ _).bind fun w => (blames_asString w).bind
    fun _ => blames_ok _

theorem blames_findMessageForRole (role : Bytes) (hl : msgs.length < 2^31) :
    Blames (findMessageForRole role msgs) := by
  refine (blames_findIf (blames_hasRole role) hl).bind fun o => ?_
  cases o with
  | none => exact blames_error rfl
  | some v =>
    exact (blames_asObject v).bind fun _ => (blames_at _ _).bind fun w => (blames_asString w).bind
      fun _ => (blames_at _ _).bind fun w => (blames_asString w).bind fun _ => blames_ok _

/-! ## Requests -/

def HasMessages (v : Value) (msgs : List Value) : Prop :=
  ∃ ms, v = .object ms ∧ Dict.find (ascii "messages") ms = some (.array msgs)

def FewMessages (v : Value) : Prop := ∀ msgs, HasMessages v msgs → msgs.length < 2^31

def Contains (v : Value) (q : Question) : Prop := ∃ msgs, HasMessages v msgs ∧
  FirstWithRole (ascii "system") msgs q.systemMessage ∧
  FirstWithRole (ascii "user") msgs q.userMessage

theorem extractRequest_eq_ok {v : Value} (hv : FewMessages v) {q : Question} :
    extractRequest v = .ok q ↔ Contains v q := by
  simp only [extractRequest,bind_eq_ok,asObject_eq_ok,at_eq_ok,asArray_eq_ok]
  constructor
  · rintro ⟨ms,rfl,w,hf,msgs,rfl,system,hs,user,hu,h⟩
    have hl := hv msgs ⟨ms,rfl,hf⟩
    cases h
    exact ⟨msgs,⟨ms,rfl,hf⟩,(findMessageForRole_eq_ok hl).mp hs,(findMessageForRole_eq_ok hl).mp hu⟩
  · rintro ⟨msgs,⟨ms,rfl,hf⟩,hs,hu⟩
    have hl := hv msgs ⟨ms,rfl,hf⟩
    exact ⟨ms,rfl,_,hf,msgs,rfl,_,(findMessageForRole_eq_ok hl).mpr hs,_,
      (findMessageForRole_eq_ok hl).mpr hu,rfl⟩

theorem blames_extractRequest {v : Value} (hv : FewMessages v) : Blames (extractRequest v) := by
  intro e he
  simp only [extractRequest,bind_eq_error,asObject_eq_ok,at_eq_ok,asArray_eq_ok] at he
  rcases he with he | ⟨ms,rfl,he | ⟨w,hf,he | ⟨msgs,rfl,he⟩⟩⟩
  · exact blames_asObject v e he
  · exact blames_at _ _ e he
  · exact blames_asArray w e he
  · have hl := hv msgs ⟨ms,rfl,hf⟩
    rcases he with he | ⟨system,-,he | ⟨user,-,he⟩⟩
    · exact blames_findMessageForRole _ hl e he
    · exact blames_findMessageForRole _ hl e he
    · cases he

/-- The status is that of the client's errors only. -/
theorem isJSONError_of_rescueStatus {e : Exn} (h : rescueStatus e = .badRequest) :
    e.isJSONError ∨ ∃ what, e = .badRequestException what := by
  cases e <;> simp [rescueStatus,Exn.isJSONError,Exn.status] at h ⊢

/-! ## The requests that the service gets -/

/-- A parsed value has fewer messages than there are bytes, whose number is an `int`. -/
theorem fewMessages_of_parse {f : Stream} {size : ℤ} {v : Value} (hsize : size < 2^31)
    (h : (parseRun f size).outcome = .ok v) : FewMessages v := by
  rintro msgs ⟨ms,rfl,hf⟩
  by_contra hlong
  have := lt_of_parse_hasLonger h (n:=2^31-1)
    (.object (Dict.mem_of_find hf) (.here (by rw [not_lt] at hlong; omega)))
  norm_num at this hsize
  omega

/-- `ExtractRequest` returns the first well-formed messages of the two roles, and otherwise
throws an error that the client is to blame for. -/
theorem extractRequest_iff (v : Value) (hv : FewMessages v) :
    (∀ q, extractRequest v = .ok q ↔ Contains v q) ∧
    ((∀ q, ¬ Contains v q) → ∃ e, extractRequest v = .error e ∧
      (e.isJSONError ∨ ∃ what, e = .badRequestException what)) := by
  refine ⟨fun q => extractRequest_eq_ok hv,fun h => ?_⟩
  cases hx : extractRequest v with
  | ok q => exact absurd ((extractRequest_eq_ok hv).mp hx) (h q)
  | error e => exact ⟨e,rfl,isJSONError_of_rescueStatus (blames_extractRequest hv e hx)⟩

/-- The service gives it values that `Parse` returned, and these never have too many messages. -/
theorem extractRequest_of_parse {f : Stream} {size : ℤ} {v : Value} (hsize : size < 2^31)
    (h : (parseRun f size).outcome = .ok v) :
    (∀ q, extractRequest v = .ok q ↔ Contains v q) ∧
    ((∀ q, ¬ Contains v q) → ∃ e, extractRequest v = .error e ∧ rescueStatus e = .badRequest) := by
  have hv := fewMessages_of_parse hsize h
  refine ⟨fun q => extractRequest_eq_ok hv,fun hnone => ?_⟩
  cases hx : extractRequest v with
  | ok q => exact absurd ((extractRequest_eq_ok hv).mp hx) (hnone q)
  | error e => exact ⟨e,rfl,blames_extractRequest hv e hx⟩

/-- The messages come in any order, and what follows them does not matter. -/
def chat : Value := .object [(ascii "messages",.array [
  .object [(ascii "role",.string (ascii "user")),(ascii "content",.string (ascii "hi"))],
  .object [(ascii "role",.string (ascii "system")),(ascii "content",.string (ascii "be"))],
  .nil])]

theorem extractRequest_iff_chat :
    (∀ q, extractRequest chat = .ok q ↔ Contains chat q) ∧
    ((∀ q, ¬ Contains chat q) → ∃ e, extractRequest chat = .error e ∧
      (e.isJSONError ∨ ∃ what, e = .badRequestException what)) := by
  refine extractRequest_iff chat ?_
  rintro msgs ⟨ms,hms,hf⟩
  cases hms
  rw [Dict.find_cons,if_pos rfl] at hf
  cases hf
  decide

end Gabby.Service
