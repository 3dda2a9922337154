import Gabby.JsonValue

/-! Values up to the enumeration order of their objects. Two enumerations of one value are
equal for `operator==`, unless a number in them is not equal to itself. -/
namespace Gabby.Json.Value

/-- All numbers satisfy `N`, all strings and keys satisfy `S`, and keys are distinct. -/
inductive Of (N : Double → Prop) (S : Bytes → Prop) : Value → Prop
  | nil : Of N S .nil
  | boolean (b : Bool) : Of N S (.boolean b)
  | number (d : Double) (h : N d) : Of N S (.number d)
  | string (s : Bytes) (h : S s) : Of N S (.string s)
  | array (vs : List Value) (h : ∀ v ∈ vs, Of N S v) : Of N S (.array vs)
  | object (ms : Dict Bytes Value) (hwf : ms.WF) (hk : ∀ m ∈ ms, S m.1)
      (h : ∀ m ∈ ms, Of N S m.2) : Of N S (.object ms)

theorem Of.mono {N N' : Double → Prop} {S S' : Bytes → Prop} {v : Value} (h : Of N S v)
    (hn : ∀ d, N d → N' d) (hs : ∀ s, S s → S' s) : Of N' S' v := by
  induction h with
  | nil => exact .nil
  | boolean b => exact .boolean b
  | number d h => exact .number d (hn d h)
  | string s h => exact .string s (hs s h)
  | array vs _ ih => exact .array vs ih
  | object ms hwf hk _ ih => exact .object ms hwf (fun m hm => hs _ (hk m hm)) ih

theorem Of.wf {N : Double → Prop} {S : Bytes → Prop} {ms : Dict Bytes Value}
    (h : Of N S (.object ms)) : ms.WF := by
  cases h with
  | object _ hwf => exact hwf

theorem Of.find {N : Double → Prop} {S : Bytes → Prop} {ms : Dict Bytes Value}
    (h : Of N S (.object ms)) {k : Bytes} {v : Value} (hv : ms.find k = some v) : Of N S v := by
  cases h with
  | object _ _ _ h => exact h _ (Dict.mem_of_find hv)

theorem Of.element {N : Double → Prop} {S : Bytes → Prop} {vs : List Value}
    (h : Of N S (.array vs)) {v : Value} (hv : v ∈ vs) : Of N S v := by
  cases h with
  | array _ h => exact h v hv

inductive HasNumber (P : Double → Prop) : Value → Prop
  | number (d : Double) (h : P d) : HasNumber P (.number d)
  | array {v : Value} {vs : List Value} (hv : v ∈ vs) (h : HasNumber P v) :
      HasNumber P (.array vs)
  | object {m : Bytes × Value} {ms : Dict Bytes Value} (hm : m ∈ ms) (h : HasNumber P m.2) :
      HasNumber P (.object ms)

theorem Of.of_not_hasNumber {N P : Double → Prop} {S : Bytes → Prop} {v : Value} (h : Of N S v)
    (hp : ¬ HasNumber P v) : Of (fun d => ¬ P d) S v := by
  induction h with
  | nil => exact .nil
  | boolean b => exact .boolean b
  | number d _ => exact .number d fun h => hp (.number d h)
  | string s h => exact .string s h
  | array vs _ ih => exact .array vs fun v hv => ih v hv fun h => hp (.array hv h)
  | object ms hwf hk _ ih => exact .object ms hwf hk fun m hm => ih m hm fun h => hp (.object hm h)

/-- Some array in the value has more than `n` elements. -/
inductive HasLonger (n : ℕ) : Value → Prop
  | here {vs : List Value} (h : n < vs.length) : HasLonger n (.array vs)
  | array {v : Value} {vs : List Value} (hv : v ∈ vs) (h : HasLonger n v) :
      HasLonger n (.array vs)
  | object {m : Bytes × Value} {ms : Dict Bytes Value} (hm : m ∈ ms) (h : HasLonger n m.2) :
      HasLonger n (.object ms)

/-- The second value lists the members of every object of the first in some order. -/
inductive Enumerates : Value → Value → Prop
  | nil : Enumerates .nil .nil
  | boolean (b : Bool) : Enumerates (.boolean b) (.boolean b)
  | number (d : Double) : Enumerates (.number d) (.number d)
  | string (s : Bytes) : Enumerates (.string s) (.string s)
  | array (ps : List (Value × Value)) (h : ∀ p ∈ ps, Enumerates p.1 p.2) :
      Enumerates (.array (ps.map Prod.fst)) (.array (ps.map Prod.snd))
  | object (ps : List (Bytes × Value × Value)) (ms : Dict Bytes Value)
      (h : ∀ p ∈ ps, Enumerates p.2.1 p.2.2) (hms : ms.Perm (ps.map fun p => (p.1,p.2.2))) :
      Enumerates (.object (ps.map fun p => (p.1,p.2.1))) (.object ms)

theorem Of.enumerates {N : Double → Prop} {S : Bytes → Prop} {v w : Value} (h : Enumerates v w)
    (hv : Of N S v) : Of N S w := by
  induction h with
  | nil => exact hv
  | boolean b => exact hv
  | number d => exact hv
  | string s => exact hv
  | array ps _ ih =>
    cases hv with
    | array _ hv =>
      refine .array _ fun w hw => ?_
      obtain ⟨p,hp,rfl⟩ := List.mem_map.mp hw
      exact ih p hp (hv _ (List.mem_map_of_mem hp))
  | object ps ms _ hms ih =>
    cases hv with
    | object _ hwf hk hv =>
      refine .object ms ?_ (fun m hm => ?_) fun m hm => ?_
      · have hkeys : ms.keys.Perm (ps.map Prod.fst) := by
          simpa [Dict.keys,Function.comp_def] using hms.map Prod.fst
        have : (ps.map Prod.fst).Nodup := by
          simpa [Dict.WF,Dict.keys,Function.comp_def] using hwf
        exact hkeys.nodup_iff.mpr this
      · obtain ⟨p,hp,rfl⟩ := List.mem_map.mp (hms.mem_iff.mp hm)
        exact hk (p.1,p.2.1) (List.mem_map_of_mem (f:=fun p => (p.1,p.2.1)) hp)
      · obtain ⟨p,hp,rfl⟩ := List.mem_map.mp (hms.mem_iff.mp hm)
        exact ih p hp (hv (p.1,p.2.1) (List.mem_map_of_mem (f:=fun p => (p.1,p.2.1)) hp))

/-! ## Equality -/

/-- Only elements below the index `2 ^ 31` are compared. -/
theorem eqValues_toInt32 {n : ℕ} (hn : n ≤ 2^31) {vs ws : List Value} :
    eqValues (toInt32 n) vs ws = true ↔
      ∀ j v w, n + j < 2^31 → vs[j]? = some v → ws[j]? = some w → eq v w = true := by
  induction vs generalizing n ws with
  | nil =>
    rw [eqValues]
    all_goals simp
  | cons v vs ih =>
    cases ws with
    | nil =>
      rw [eqValues]
      all_goals simp
    | cons w ws =>
      rw [eqValues,increment_toInt32]
      rcases hn.lt_or_eq with hlt | rfl
      · have ih : eqValues (toInt32 (n+1)) vs ws = true ↔ _ := ih hlt
        have hpos : ¬ toInt32 n < 0 := by
          rw [toInt32_of_lt hlt]
          omega
        rw [if_neg hpos,Bool.and_eq_true,ih]
        constructor
        · rintro ⟨hvw,hrest⟩ (_ | j) v' w' hj hv hw
          · cases hv
            cases hw
            exact hvw
          · exact hrest j v' w' (by omega) hv hw
        · exact fun h => ⟨h 0 v w hlt rfl rfl,fun j v' w' hj => h (j+1) v' w' (by omega)⟩
      · rw [if_pos (show toInt32 (2^31) < 0 by decide)]
        exact iff_of_true rfl fun j v' w' hj => absurd hj (by omega)

theorem eqValues_eq_true {vs ws : List Value} : eqValues 0 vs ws = true ↔
    ∀ j < 2^31, ∀ v w, vs[j]? = some v → ws[j]? = some w → eq v w = true := by
  rw [show (0 : ℤ) = toInt32 0 from rfl,eqValues_toInt32 (by omega)]
  simp only [Nat.zero_add]
  exact forall_congr' fun j => ⟨fun h hj v w => h v w hj,fun h v w hj => h hj v w⟩

theorem eqMembers_eq_true {ms other : Dict Bytes Value} : eqMembers ms other = true ↔
    ∀ m ∈ ms, ∃ w, other.find m.1 = some w ∧ eq w m.2 = true := by
  induction ms with
  | nil => simp [eqMembers]
  | cons m ms ih =>
    rcases m with ⟨k,v⟩
    rw [eqMembers,Bool.and_eq_true,ih,List.forall_mem_cons]
    refine and_congr_left fun _ => ?_
    split
    · rename_i h
      simp [h]
    · rename_i w h
      simp [h]

theorem eqMembers_of_mem {ms other : Dict Bytes Value} (hwf : other.WF)
    (h : ∀ m ∈ ms, ∃ w, (m.1,w) ∈ other ∧ eq w m.2 = true) : eqMembers ms other = true := by
  rw [eqMembers_eq_true]
  intro m hm
  obtain ⟨w,hw,he⟩ := h m hm
  exact ⟨w,Dict.find_of_mem hwf hw,he⟩

/-- The two directions together, because `operator==` swaps its operands at each level. -/
theorem eq_of_enumerates {v w : Value} (h : Enumerates v w)
    (hv : Of (fun d => d.isNaN = false) (fun _ => True) v) :
    eq v w = true ∧ eq w v = true := by
  have hw := hv.enumerates h
  induction h with
  | nil => simp [eq]
  | boolean b => simp [eq]
  | number d =>
    cases hv with
    | number _ hd =>
      have : d.eq d = true := by cases d <;> simp [Double.eq,Double.isNaN] at hd ⊢
      simp [eq,this]
  | string s => simp [eq]
  | array ps _ ih =>
    cases hv with
    | array _ hv =>
      cases hw with
      | array _ hw =>
        have hih : ∀ (j : ℕ) p, ps[j]? = some p → eq p.1 p.2 = true ∧ eq p.2 p.1 = true := by
          intro j p hj
          have hp := List.mem_of_getElem? hj
          exact ih p hp (hv _ (List.mem_map_of_mem hp)) (hw _ (List.mem_map_of_mem hp))
        simp only [eq,List.length_map,beq_self_eq_true,Bool.true_and,eqValues_eq_true,
          List.getElem?_map,Option.map_eq_some_iff]
        constructor
        · rintro j - _ _ ⟨p,hp,rfl⟩ ⟨q,hq,rfl⟩
          cases hp.symm.trans hq
          exact (hih j p hp).2
        · rintro j - _ _ ⟨p,hp,rfl⟩ ⟨q,hq,rfl⟩
          cases hp.symm.trans hq
          exact (hih j p hp).1
  | object ps ms _ hms ih =>
    cases hv with
    | object _ hwf _ hv =>
      cases hw with
      | object _ hwf' _ hw =>
        have hlen : ms.length = ps.length := by simpa using hms.length_eq
        have hmem : ∀ p ∈ ps, (p.1,p.2.1) ∈ ps.map (fun p => (p.1,p.2.1)) ∧ (p.1,p.2.2) ∈ ms :=
          fun p hp => ⟨List.mem_map_of_mem (f:=fun p => (p.1,p.2.1)) hp,
            hms.mem_iff.mpr (List.mem_map_of_mem (f:=fun p => (p.1,p.2.2)) hp)⟩
        have hih : ∀ p ∈ ps, eq p.2.1 p.2.2 = true ∧ eq p.2.2 p.2.1 = true := fun p hp =>
          ih p hp (hv _ (hmem p hp).1) (hw _ (hmem p hp).2)
        have h₁ : eqMembers ms (ps.map fun p => (p.1,p.2.1)) = true := by
          refine eqMembers_of_mem hwf fun m hm => ?_
          obtain ⟨p,hp,rfl⟩ := List.mem_map.mp (hms.mem_iff.mp hm)
          exact ⟨p.2.1,(hmem p hp).1,(hih p hp).1⟩
        have h₂ : eqMembers (ps.map fun p => (p.1,p.2.1)) ms = true := by
          refine eqMembers_of_mem hwf' fun m hm => ?_
          obtain ⟨p,hp,rfl⟩ := List.mem_map.mp hm
          exact ⟨p.2.2,(hmem p hp).2,(hih p hp).2⟩
        simp [eq,hlen,h₁,h₂]

theorem enumerates_refl {N : Double → Prop} {S : Bytes → Prop} {v : Value} (h : Of N S v) :
    Enumerates v v := by
  induction h with
  | nil => exact .nil
  | boolean b => exact .boolean b
  | number d _ => exact .number d
  | string s _ => exact .string s
  | array vs _ ih =>
    have := Enumerates.array (vs.map fun v => (v,v)) (by simpa using ih)
    simpa [Function.comp_def] using this
  | object ms _ _ _ ih =>
    have := Enumerates.object (ms.map fun m => (m.1,m.2,m.2)) ms
      (by
        intro p hp
        obtain ⟨m,hm,rfl⟩ := List.mem_map.mp hp
        exact ih m hm) (by simp [Function.comp_def])
    simpa [Function.comp_def] using this

end Gabby.Json.Value
