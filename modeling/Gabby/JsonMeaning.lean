import Gabby.DoubleExact
import Gabby.JsonEquality

/-! What JSON values denote. Two values without NaN, and with arrays that an `int` can index, are
equal for `operator==` exactly when they denote the same, whatever the order in which their
objects are enumerated. -/
namespace Gabby

/-! ## Numbers -/

namespace Magnitude

theorem value_nonneg (m : Magnitude) : 0 ≤ m.value :=
  mul_nonneg (Nat.cast_nonneg _) (by positivity)

theorem value_eq_zero_iff_mant {m : Magnitude} : m.value = 0 ↔ m.mant = 0 := by
  constructor
  · intro h
    rw [value_eq_zero.mp h]
    rfl
  · intro h
    simp [value,h]

end Magnitude

namespace Double

def signed (neg : Bool) (m : Magnitude) : ℚ := if neg then -m.value else m.value

theorem signed_eq_iff {a b : Bool} {m n : Magnitude} :
    signed a m = signed b n ↔ m = n ∧ (a = b ∨ m.mant = 0) := by
  have hinj : m.value = n.value ↔ m = n := ⟨Magnitude.value_inj,congrArg _⟩
  have hopp : m.value + n.value = 0 ↔ m = n ∧ m.mant = 0 := by
    rw [add_eq_zero_iff_of_nonneg m.value_nonneg n.value_nonneg,← hinj,
      ← Magnitude.value_eq_zero_iff_mant]
    constructor
    · rintro ⟨hm,hn⟩
      exact ⟨hm.trans hn.symm,hm⟩
    · rintro ⟨h,hm⟩
      exact ⟨hm,h ▸ hm⟩
  cases a <;> cases b <;> simp only [signed,if_true,Bool.false_eq_true,if_false,neg_inj,hinj,
    true_or,and_true,false_or,← hopp,reduceCtorEq]
  · rw [eq_neg_iff_add_eq_zero]
  · rw [neg_eq_iff_add_eq_zero]

/-- The extended rational that a double stands for; none for a NaN. -/
def value : Double → Option (WithBot (WithTop ℚ))
  | nan _ => none
  | inf neg => some (if neg then ⊥ else ((⊤ : WithTop ℚ) : WithBot (WithTop ℚ)))
  | finite neg m => some ((signed neg m : WithTop ℚ) : WithBot (WithTop ℚ))

/-- `==` on doubles is equality of what they stand for, except for NaN. -/
theorem eq_iff_value {a b : Double} (ha : a.isNaN = false) :
    a.eq b = true ↔ a.value = b.value := by
  cases a with
  | nan neg => simp [isNaN] at ha
  | inf x =>
    cases b with
    | nan neg => simp [eq,value]
    | inf y => cases x <;> cases y <;> simp [eq,value]
    | finite y n => cases x <;> simp [eq,value]
  | finite x m =>
    cases b with
    | nan neg => simp [eq,value]
    | inf y => cases y <;> simp [eq,value]
    | finite y n => simp [eq,value,signed_eq_iff]

end Double

namespace Json

/-! ## Values -/

/-- JSON as such: an array is a sequence and an object is a map, nothing more. -/
inductive Doc (Num Str : Type)
  | null
  | boolean (b : Bool)
  | number (x : Num)
  | string (s : Str)
  | array (elements : List (Doc Num Str))
  | object (members : Str → Option (Doc Num Str))

namespace Value

mutual

def denote : Value → Doc (Option (WithBot (WithTop ℚ))) Bytes
  | nil => .null
  | boolean b => .boolean b
  | number d => .number d.value
  | string s => .string s
  | array vs => .array (denoteValues vs)
  | object ms => .object (denoteMembers ms)

def denoteValues : List Value → List (Doc (Option (WithBot (WithTop ℚ))) Bytes)
  | [] => []
  | v::vs => denote v :: denoteValues vs

def denoteMembers : List (Bytes × Value) → Bytes →
    Option (Doc (Option (WithBot (WithTop ℚ))) Bytes)
  | [], _ => none
  | (k,v)::ms, key => if k = key then some (denote v) else denoteMembers ms key

end

theorem denoteValues_eq (vs : List Value) : denoteValues vs = vs.map denote := by
  induction vs with
  | nil => rfl
  | cons v vs ih => rw [denoteValues,ih,List.map_cons]

theorem denoteMembers_eq (ms : Dict Bytes Value) (key : Bytes) :
    denoteMembers ms key = (ms.find key).map denote := by
  induction ms with
  | nil => rfl
  | cons m ms ih =>
    rcases m with ⟨k,v⟩
    rw [denoteMembers,ih,Dict.find_cons]
    split <;> rfl

theorem eqValues_iff {vs ws : List Value} (hlong : vs.length ≤ 2^31)
    (h : ∀ v ∈ vs, ∀ w ∈ ws, eq v w = true ↔ v.denote = w.denote) :
    vs.length = ws.length ∧ eqValues 0 vs ws = true ↔ vs.map denote = ws.map denote := by
  rw [eqValues_eq_true]
  constructor
  · rintro ⟨hlen,heq⟩
    refine List.ext_getElem (by simpa using hlen) fun j hj hj' => ?_
    rw [List.length_map] at hj hj'
    rw [List.getElem_map,List.getElem_map]
    exact (h _ (List.getElem_mem hj) _ (List.getElem_mem hj')).mp
      (heq j (hj.trans_le hlong) _ _ (List.getElem?_eq_getElem hj) (List.getElem?_eq_getElem hj'))
  · intro hmap
    refine ⟨by simpa using congrArg List.length hmap,fun j _ v w hv hw => ?_⟩
    refine (h v (List.mem_of_getElem? hv) w (List.mem_of_getElem? hw)).mpr ?_
    have hj := congrArg (·[j]?) hmap
    simpa [hv,hw] using hj

theorem eqMembers_iff {ms ns : Dict Bytes Value} (hms : ms.WF) (hns : ns.WF)
    (h : ∀ m ∈ ms, ∀ n ∈ ns, eq n.2 m.2 = true ↔ n.2.denote = m.2.denote) :
    ms.length = ns.length ∧ eqMembers ms ns = true ↔ denoteMembers ms = denoteMembers ns := by
  rw [funext_iff]
  simp only [denoteMembers_eq]
  rw [Dict.map_find_eq_iff hms hns,eqMembers_eq_true]
  refine and_congr_right fun _ => forall₂_congr fun m hm => exists_congr fun w => ?_
  exact and_congr_right fun hw => h m hm (m.1,w) (Dict.mem_of_find hw)

/-- The two directions together, because `operator==` swaps its operands at each level. -/
theorem eq_iff_denote {v w : Value} (hv : v.Of (fun d => d.isNaN = false) fun _ => True)
    (hw : w.Of (fun d => d.isNaN = false) fun _ => True) (hlong : ¬ v.HasLonger (2^31)) :
    (eq v w = true ↔ v.denote = w.denote) ∧ (eq w v = true ↔ w.denote = v.denote) := by
  induction hv generalizing w with
  | nil => cases hw <;> simp [eq,denote]
  | boolean a =>
    cases hw with
    | boolean b => simp [eq,denote,eq_comm (a:=a)]
    | _ => simp [eq,denote]
  | number d hd =>
    cases hw with
    | number d' hd' =>
      simp only [eq,denote,Doc.number.injEq,Double.eq_iff_value hd,Double.eq_iff_value hd']
      exact ⟨eq_comm,eq_comm⟩
    | _ => simp [eq,denote]
  | string s =>
    cases hw with
    | string t => simp [eq,denote,eq_comm (a:=s)]
    | _ => simp [eq,denote]
  | array vs _ ih =>
    cases hw with
    | array ws hw =>
      have hlen : vs.length ≤ 2^31 := not_lt.mp fun h => hlong (.here h)
      have ih := fun v hm w hw => ih v hm (w:=w) hw fun h => hlong (.array hm h)
      have h₁ : ws.length = vs.length ∧ eqValues 0 ws vs = true ↔
          ws.map denote = vs.map denote := by
        by_cases h : ws.length = vs.length
        · exact eqValues_iff (h ▸ hlen) fun w hm v hm' => (ih v hm' w (hw w hm)).2
        · exact iff_of_false (fun h' => h h'.1) fun h' => h (by simpa using congrArg List.length h')
      have h₂ := eqValues_iff hlen fun v hm w hm' => (ih v hm w (hw w hm')).1
      simp only [eq,denote,Bool.and_eq_true,beq_iff_eq,Doc.array.injEq,denoteValues_eq,h₁,h₂]
      exact ⟨eq_comm,eq_comm⟩
    | _ => simp [eq,denote]
  | object ms hwf _ _ ih =>
    cases hw with
    | object ns hwf' _ hw =>
      have ih := fun m hm w hw => ih m hm (w:=w) hw fun h => hlong (.object hm h)
      have h₁ := eqMembers_iff hwf' hwf fun n hn m hm => (ih m hm n.2 (hw n hn)).1
      have h₂ := eqMembers_iff hwf hwf' fun m hm n hn => (ih m hm n.2 (hw n hn)).2
      simp only [eq,denote,Bool.and_eq_true,beq_iff_eq,Doc.object.injEq,h₁,h₂]
      exact ⟨eq_comm,eq_comm⟩
    | _ => simp [eq,denote]

end Value

/-- A value as the program can build it without NaN: the keys of each object are distinct. -/
structure PlainValue where
  value : Value
  of : value.Of (fun d => d.isNaN = false) fun _ => True

end Json
end Gabby
