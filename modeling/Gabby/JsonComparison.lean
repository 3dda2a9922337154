import Gabby.JsonMeaning
import Gabby.JsonText

/-! What `operator==` compares. The elements of arrays are counted by an `int`, and those beyond
it are never looked at. The relation stays an equivalence; it is structural equality for the
values whose arrays an `int` can index, and for no others. -/
namespace Gabby.Json

/-- The root of a value, as far as it is compared. -/
inductive Label
  | nil
  | boolean (b : Bool)
  | number (x : Option (WithBot (WithTop ℚ)))
  | string (s : Bytes)
  | array (length : ℕ)
  | object

namespace Value

def label : Value → Label
  | nil => .nil
  | boolean b => .boolean b
  | number d => .number d.value
  | string s => .string s
  | array vs => .array vs.length
  | object _ => .object

/-- The root of a part of a value, if there is such a part and an `int` leads to it. -/
def look : List Field → Value → Option Label
  | [], v => some v.label
  | .index i::fs, .array vs => if i < 2^31 then vs[i]?.bind (look fs) else none
  | .key key::fs, .object ms => (Dict.find key ms).bind (look fs)
  | _::_, _ => none

def compared (v : Value) (fs : List Field) : Option Label := v.look fs

/-! ## Parts -/

section Compared

variable {v w : Value}

theorem label_of_compared (h : v.compared = w.compared) : v.label = w.label :=
  Option.some.inj (congrFun h [])

theorem type_of_label (h : v.label = w.label) : v.type = w.type := by
  cases v <;> cases w <;> simp [label,type] at h ⊢

theorem compared_of_label (h : v.label = w.label) (ha : v.type ≠ .array) (ho : v.type ≠ .obj) :
    v.compared = w.compared := by
  funext fs
  cases fs with
  | nil => exact congrArg some h
  | cons f fs => cases v <;> cases w <;> simp [label,type,compared,look] at h ha ho ⊢

theorem bind_look_iff {o o' : Option Value} :
    (∀ fs, o.bind (look fs) = o'.bind (look fs)) ↔ o.map compared = o'.map compared := by
  constructor
  · intro h
    cases o with
    | none => cases o' with
      | none => rfl
      | some w => cases h []
    | some v => cases o' with
      | none => cases h []
      | some w => exact congrArg some (funext h)
  · intro h fs
    cases o <;> cases o' <;> simp only [Option.map_some,Option.map_none,reduceCtorEq,
      Option.some.injEq] at h
    · rfl
    · exact congrFun h fs

theorem compared_array {vs ws : List Value} :
    compared (.array vs) = compared (.array ws) ↔ vs.length = ws.length ∧
      ∀ j < 2^31, vs[j]?.map compared = ws[j]?.map compared := by
  constructor
  · intro h
    refine ⟨by simpa [label] using label_of_compared h,fun j hj => bind_look_iff.mp fun fs => ?_⟩
    have := congrFun h (.index j::fs)
    rwa [compared,compared,look,look,if_pos hj,if_pos hj] at this
  · rintro ⟨hlen,h⟩
    funext fs
    rcases fs with _ | ⟨key | i,fs⟩
    · exact congrArg (fun n => some (Label.array n)) hlen
    · rfl
    · by_cases hi : i < 2^31
      · rw [compared,compared,look,look,if_pos hi,if_pos hi,bind_look_iff.mpr (h i hi)]
      · rw [compared,compared,look,look,if_neg hi,if_neg hi]

theorem compared_object {ms ns : Dict Bytes Value} : compared (.object ms) = compared (.object ns) ↔
    ∀ key, (ms.find key).map compared = (ns.find key).map compared := by
  constructor
  · exact fun h key => bind_look_iff.mp fun fs => congrFun h (.key key::fs)
  · intro h
    funext fs
    rcases fs with _ | ⟨key | i,fs⟩
    · rfl
    · exact bind_look_iff.mpr (h key) fs
    · rfl

/-! ## Equality -/

theorem eq_iff_of_type_ne (h : v.type ≠ w.type) : eq v w = true ↔ v.compared = w.compared :=
  iff_of_false (by cases v <;> cases w <;> simp [eq,type] at h ⊢)
    fun hc => h (type_of_label (label_of_compared hc))

theorem eqValues_iff_compared {vs ws : List Value}
    (h : ∀ v ∈ vs, ∀ w ∈ ws, eq v w = true ↔ v.compared = w.compared) :
    vs.length = ws.length ∧ eqValues 0 vs ws = true ↔
      compared (.array vs) = compared (.array ws) := by
  rw [eqValues_eq_true,compared_array]
  refine and_congr_right fun hlen => forall₂_congr fun j _ => ?_
  constructor
  · intro heq
    by_cases hj : j < vs.length
    · have hj' := hlen ▸ hj
      have hv := List.getElem?_eq_getElem hj
      have hw := List.getElem?_eq_getElem hj'
      rw [hv,hw,Option.map_some,Option.map_some,
        (h _ (List.getElem_mem hj) _ (List.getElem_mem hj')).mp (heq _ _ hv hw)]
    · rw [List.getElem?_eq_none (not_lt.mp hj),List.getElem?_eq_none (hlen ▸ not_lt.mp hj)]
  · intro hmap v w hv hw
    refine (h v (List.mem_of_getElem? hv) w (List.mem_of_getElem? hw)).mpr ?_
    simpa [hv,hw] using hmap

theorem eqMembers_iff_compared {ms ns : Dict Bytes Value} (hms : ms.WF) (hns : ns.WF)
    (h : ∀ m ∈ ms, ∀ n ∈ ns, eq n.2 m.2 = true ↔ n.2.compared = m.2.compared) :
    ms.length = ns.length ∧ eqMembers ms ns = true ↔
      compared (.object ms) = compared (.object ns) := by
  rw [compared_object,Dict.map_find_eq_iff hms hns,eqMembers_eq_true]
  refine and_congr_right fun _ => forall₂_congr fun m hm => exists_congr fun w => ?_
  exact and_congr_right fun hw => h m hm (m.1,w) (Dict.mem_of_find hw)

theorem iff_compared_of_label {p : Prop} (ha : v.type ≠ .array) (ho : v.type ≠ .obj)
    (hp : p ↔ v.label = w.label) : p ↔ v.compared = w.compared :=
  ⟨fun h => compared_of_label (hp.mp h) ha ho,fun h => hp.mpr (label_of_compared h)⟩

/-- The two directions together, because `operator==` swaps its operands at each level. -/
theorem eq_iff_compared (hv : v.Of (fun d => d.isNaN = false) fun _ => True)
    (hw : w.Of (fun d => d.isNaN = false) fun _ => True) :
    (eq v w = true ↔ v.compared = w.compared) ∧ (eq w v = true ↔ w.compared = v.compared) := by
  have hne : ∀ {v w : Value}, v.type ≠ w.type → (eq v w = true ↔ v.compared = w.compared) ∧
      (eq w v = true ↔ w.compared = v.compared) := fun h =>
    ⟨eq_iff_of_type_ne h,eq_iff_of_type_ne (Ne.symm h)⟩
  induction hv generalizing w with
  | nil =>
    cases hw with
    | nil => simp [eq]
    | _ => exact hne (by simp [type])
  | boolean a =>
    cases hw with
    | boolean b =>
      refine ⟨iff_compared_of_label (by simp [type]) (by simp [type]) ?_,
        iff_compared_of_label (by simp [type]) (by simp [type]) ?_⟩
      · simp [eq,label,eq_comm (a:=a)]
      · simp [eq,label,eq_comm (a:=b)]
    | _ => exact hne (by simp [type])
  | number d hd =>
    cases hw with
    | number d' hd' =>
      refine ⟨iff_compared_of_label (by simp [type]) (by simp [type]) ?_,
        iff_compared_of_label (by simp [type]) (by simp [type]) ?_⟩
      · rw [eq,Double.eq_iff_value hd',label,label,Label.number.injEq,eq_comm]
      · rw [eq,Double.eq_iff_value hd,label,label,Label.number.injEq,eq_comm]
    | _ => exact hne (by simp [type])
  | string s =>
    cases hw with
    | string t =>
      refine ⟨iff_compared_of_label (by simp [type]) (by simp [type]) ?_,
        iff_compared_of_label (by simp [type]) (by simp [type]) ?_⟩
      · simp [eq,label,eq_comm (a:=s)]
      · simp [eq,label,eq_comm (a:=t)]
    | _ => exact hne (by simp [type])
  | array vs _ ih =>
    cases hw with
    | array ws hw =>
      have h₁ := eqValues_iff_compared fun w hm v hm' => (ih v hm' (hw w hm)).2
      have h₂ := eqValues_iff_compared fun v hm w hm' => (ih v hm (hw w hm')).1
      simp only [eq,Bool.and_eq_true,beq_iff_eq,h₁,h₂]
      exact ⟨eq_comm,eq_comm⟩
    | _ => exact hne (by simp [type])
  | object ms hwf _ _ ih =>
    cases hw with
    | object ns hwf' _ hw =>
      have h₁ := eqMembers_iff_compared hwf' hwf fun n hn m hm => (ih m hm (hw n hn)).1
      have h₂ := eqMembers_iff_compared hwf hwf' fun m hm n hn => (ih m hm (hw n hn)).2
      simp only [eq,Bool.and_eq_true,beq_iff_eq,h₁,h₂]
      exact ⟨eq_comm,eq_comm⟩
    | _ => exact hne (by simp [type])

end Compared

/-! ## What is not compared -/

section Hidden

variable {N : Double → Prop} {S : Bytes → Prop} {vs : List Value} {i : ℕ} {x : Value}

theorem Of.set (hv : Of N S (.array vs)) (hx : Of N S x) (i : ℕ) : Of N S (.array (vs.set i x)) :=
  .array _ fun _ hw => (List.mem_or_eq_of_mem_set hw).elim hv.element fun h => h ▸ hx

theorem Of.assign {ms : Dict Bytes Value} (hv : Of N S (.object ms)) (key : Bytes) (hk : S key)
    (hx : Of N S x) : Of N S (.object (ms.assign key x)) := by
  cases hv with
  | object _ hwf hks hv =>
    refine .object _ (Dict.wf_assign hwf key x) (fun m hm => ?_) fun m hm => ?_ <;>
      rcases Dict.mem_assign hm with rfl | hm
    · exact hk
    · exact hks m hm
    · exact hx
    · exact hv m hm

theorem denote_set_ne (hi : i < vs.length) (hx : x.denote ≠ vs[i].denote) :
    (array (vs.set i x)).denote ≠ (array vs).denote := by
  intro h
  rw [denote,denote,denoteValues_eq,denoteValues_eq,Doc.array.injEq] at h
  have hj := congrArg (·[i]?) h
  simp only [List.getElem?_map,List.getElem?_set_self hi,List.getElem?_eq_getElem hi,
    Option.map_some,Option.some.injEq] at hj
  exact hx hj

theorem compared_set (h : ∀ hi : i < vs.length, i < 2^31 → x.compared = vs[i].compared) :
    compared (.array (vs.set i x)) = compared (.array vs) := by
  refine compared_array.mpr ⟨by simp,fun j hj => ?_⟩
  by_cases hij : i = j
  · subst hij
    by_cases hi : i < vs.length
    · rw [List.getElem?_set_self hi,List.getElem?_eq_getElem hi,Option.map_some,Option.map_some,
        h hi hj]
    · rw [List.set_eq_of_length_le (not_lt.mp hi)]
  · rw [List.getElem?_set_ne hij]

/-- Some change of a value with a long array goes unnoticed. -/
theorem exists_hidden {v : Value} (hv : v.Of (fun d => d.isNaN = false) fun _ => True)
    (hlong : v.HasLonger (2^31)) : ∃ w : Value, w.Of (fun d => d.isNaN = false) (fun _ => True) ∧
      w.compared = v.compared ∧ w.denote ≠ v.denote := by
  induction hlong with
  | here h =>
    rename_i vs
    obtain ⟨x,hx,hne⟩ : ∃ x : Value, x.Of (fun d => d.isNaN = false) (fun _ => True) ∧
        x.denote ≠ vs[2^31].denote := by
      by_cases hnull : vs[2^31].denote = .null
      · refine ⟨.boolean true,.boolean true,?_⟩
        rw [hnull]
        simp [denote]
      · exact ⟨.nil,.nil,Ne.symm hnull⟩
    exact ⟨_,hv.set hx (2^31),compared_set fun _ hlt => absurd hlt (lt_irrefl _),
      denote_set_ne h hne⟩
  | array hm _ ih =>
    obtain ⟨w,hw,hc,hne⟩ := ih (hv.element hm)
    obtain ⟨i,hi,rfl⟩ := List.getElem_of_mem hm
    exact ⟨_,hv.set hw i,compared_set fun _ _ => hc,denote_set_ne hi hne⟩
  | object hm _ ih =>
    rename_i m ms _
    have hfind : Dict.find m.1 ms = some m.2 := Dict.find_of_mem hv.wf hm
    obtain ⟨w,hw,hc,hne⟩ := ih (hv.find hfind)
    refine ⟨_,hv.assign m.1 trivial hw,compared_object.mpr fun key => ?_,fun h => ?_⟩
    · rw [Dict.find_assign]
      split
      · rename_i hk
        subst hk
        rw [hfind,Option.map_some,Option.map_some,hc]
      · rfl
    · rw [denote,denote,Doc.object.injEq] at h
      have hk := congrFun h m.1
      rw [denoteMembers_eq,denoteMembers_eq,Dict.find_assign,if_pos rfl,hfind,Option.map_some,
        Option.map_some,Option.some.injEq] at hk
      exact hne hk

end Hidden

end Value

/-! ## The values that `Parse` returns -/

theorem length_le_commaSeparated {items : List (List Token)} (h : ∀ ts ∈ items, ts ≠ []) :
    items.length ≤ (commaSeparated items).length := by
  cases items with
  | nil => exact le_refl 0
  | cons ts items =>
    have hts := List.length_pos_of_ne_nil (h ts (by simp))
    have hrest : items.length ≤ (items.flatMap (Token.comma :: ·)).length := by
      rw [List.length_flatMap]
      simp
    simp only [commaSeparated,List.length_append,List.length_cons]
    omega

theorem sublist_commaSeparated {items : List (List Token)} {ts : List Token} (h : ts ∈ items) :
    ts.Sublist (commaSeparated items) := by
  cases items with
  | nil => simp at h
  | cons us items =>
    rw [commaSeparated]
    rcases List.mem_cons.mp h with rfl | h
    · exact List.sublist_append_left _ _
    · have hsub : (Token.comma :: ts).Sublist (items.flatMap (Token.comma :: ·)) := by
        rw [List.flatMap_def]
        exact List.sublist_flatten_of_mem (List.mem_map_of_mem h)
      exact ((List.sublist_cons_self _ _).trans hsub).trans (List.sublist_append_right _ _)

/-- A value takes more tokens than any array in it has elements. -/
theorem Derives.lt_of_hasLonger {n : ℕ} {v : Value} (hlong : v.HasLonger n) {ts : List Token}
    (h : Derives ts v) : n + 2 < ts.length := by
  induction hlong generalizing ts with
  | here hn =>
    cases h with
    | array items hi =>
      have hne : ∀ ts ∈ items.map Prod.fst, ts ≠ [] := by
        intro ts hts
        obtain ⟨i,hm,rfl⟩ := List.mem_map.mp hts
        exact (hi i hm).ne_nil
      have := length_le_commaSeparated hne
      simp only [List.length_map,List.length_cons,List.length_append,List.length_nil] at this hn ⊢
      omega
  | array hv _ ih =>
    cases h with
    | array items hi =>
      obtain ⟨i,hm,rfl⟩ := List.mem_map.mp hv
      have hlt := ih (hi i hm)
      have hsub := (sublist_commaSeparated (List.mem_map_of_mem (f:=Prod.fst) hm)).length_le
      simp only [List.length_cons,List.length_append] at hsub ⊢
      omega
  | object hm _ ih =>
    cases h with
    | object members hv =>
      rcases Dict.mem_assignAll hm with hm | hm
      · cases hm
      · obtain ⟨m,hmm,rfl⟩ := List.mem_map.mp hm
        have hlt := ih (hv m hmm)
        have hsub := (sublist_commaSeparated (List.mem_map_of_mem (f:=fun m : Bytes × List Token ×
          Value => Token.str m.1 :: Token.colon :: m.2.1) hmm)).length_le
        simp only [List.length_cons,List.length_append] at hsub ⊢
        omega

theorem lt_of_parse_hasLonger {f : Stream} {size : ℤ} {v : Value} {n : ℕ}
    (h : (parseRun f size).outcome = .ok v) (hlong : v.HasLonger n) : n + 2 < size := by
  obtain ⟨⟨ts,hs,hd⟩,hlen⟩ := parseRun_sound h
  have hts := hs.length_le
  have := hd.lt_of_hasLonger hlong
  omega

theorem eq_iff_denote_of_parse {f : Stream} {size : ℤ} {v : Value} (hsize : size < 2^31)
    (h : (parseRun f size).outcome = .ok v) (hnan : ¬ v.HasNumber fun d => d.isNaN = true)
    (w : PlainValue) : v.eq w.value = true ↔ v.denote = w.value.denote := by
  obtain ⟨⟨ts,-,hd⟩,-⟩ := parseRun_sound h
  have hv : v.Of (fun d => d.isNaN = false) fun _ => True :=
    (hd.of.of_not_hasNumber hnan).mono (by simp) (by simp)
  refine (Value.eq_iff_denote hv w.of fun hlong => ?_).1
  have := lt_of_parse_hasLonger h hlong
  norm_num at this hsize
  omega

/-! ## Structural equality -/

/-- `operator==` is an equivalence. A value whose arrays an `int` can index is equal to those that
denote the same and to no others; every other value is equal to one that denotes something
else. -/
theorem eq_structural_iff (v : PlainValue) :
    Equivalence (fun v w : PlainValue => v.value.eq w.value = true) ∧
      ((∀ w : PlainValue, v.value.eq w.value = true ↔ v.value.denote = w.value.denote) ↔
        ¬ v.value.HasLonger (2^31)) := by
  have h : ∀ v w : PlainValue, v.value.eq w.value = true ↔ v.value.compared = w.value.compared :=
    fun v w => (Value.eq_iff_compared v.of w.of).1
  refine ⟨⟨fun v => (h v v).mpr rfl,fun hvw => ?_,fun hvw hwu => ?_⟩,fun hv => ?_,?_⟩
  · exact (h _ _).mpr ((h _ _).mp hvw).symm
  · exact (h _ _).mpr (((h _ _).mp hvw).trans ((h _ _).mp hwu))
  · intro hlong
    obtain ⟨w,hw,hc,hne⟩ := Value.exists_hidden v.of hlong
    exact hne ((hv ⟨w,hw⟩).mp ((h v ⟨w,hw⟩).mpr hc.symm)).symm
  · exact fun hlong w => (Value.eq_iff_denote v.of w.of hlong).1

def nullsThen (n : ℕ) (last : Value) : Value := .array (List.replicate n .nil ++ [last])

theorem of_nullsThen (n : ℕ) {last : Value}
    (h : last.Of (fun d => d.isNaN = false) fun _ => True) :
    (nullsThen n last).Of (fun d => d.isNaN = false) fun _ => True := by
  refine .array _ fun v hv => ?_
  rcases List.mem_append.mp hv with hv | hv
  · rw [List.eq_of_mem_replicate hv]
    exact .nil
  · rw [List.mem_singleton.mp hv]
    exact h

theorem compared_nullsThen {n : ℕ} (hn : 2^31 ≤ n) (v w : Value) :
    (nullsThen n v).compared = (nullsThen n w).compared := by
  have hlen (j : ℕ) (hj : j < 2^31) : j < (List.replicate n Value.nil).length := by
    rw [List.length_replicate]
    exact hj.trans_le hn
  refine Value.compared_array.mpr ⟨by simp,fun j hj => ?_⟩
  rw [List.getElem?_append_left (hlen j hj),List.getElem?_append_left (hlen j hj)]

theorem denote_nullsThen_inj {n : ℕ} {v w : Value}
    (h : (nullsThen n v).denote = (nullsThen n w).denote) : v.denote = w.denote := by
  simpa [nullsThen,Value.denote,Value.denoteValues_eq] using h

/-- What comes after the nulls is not compared. -/
theorem not_eq_structural : ¬ ∀ v w : PlainValue,
    v.value.eq w.value = true ↔ v.value.denote = w.value.denote := by
  intro h
  have hv := of_nullsThen (2^31) .nil
  have hw := of_nullsThen (2^31) (.boolean true)
  have hd := (h ⟨_,hv⟩ ⟨_,hw⟩).mp
    ((Value.eq_iff_compared hv hw).1.mpr (compared_nullsThen le_rfl _ _))
  simpa [Value.denote] using denote_nullsThen_inj hd

end Gabby.Json
