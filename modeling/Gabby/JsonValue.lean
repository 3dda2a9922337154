import Gabby.Dict
import Gabby.Double
import Gabby.Errors

/-! JSON values, their printer and their equality. The members of an object stand in the
order in which the program happens to enumerate its hash map. -/
namespace Gabby.Json

/-- The value of a `size_t` as an `int`: reduction modulo 2 ^ 32 into the signed range. -/
def toInt32 (n : ℕ) : ℤ := (n : ℤ).bmod (2^32)

theorem toInt32_of_lt {n : ℕ} (h : n < 2^31) : toInt32 n = n :=
  Int.bmod_eq_of_le (by omega) (by omega)

/-- A size that does not fit is taken modulo 2 ^ 32. -/
theorem toInt32_lt {n k : ℕ} (h : toInt32 n = k) (hn : 2^31 ≤ n) : k < 2^31 ∧ k + 2^32 ≤ n := by
  have h : Int.bmod n (2^32) = k := h
  have hlt := Int.bmod_lt (x:=n) (m:=2^32) (by norm_num)
  obtain ⟨q,hq⟩ := Int.dvd_self_sub_bmod (x:=n) (m:=2^32)
  rw [h] at hlt hq
  norm_num at hlt hq hn ⊢
  omega

/-- `++` on an `int`, which wraps around after the greatest. -/
def increment (i : ℤ) : ℤ := (i+1).bmod (2^32)

theorem increment_toInt32 (n : ℕ) : increment (toInt32 n) = toInt32 (n+1) :=
  Int.bmod_add_bmod

inductive Value
  | nil
  | boolean (value : Bool)
  | number (value : Double)
  | string (value : Bytes)
  | array (values : List Value)
  | object (values : List (Bytes × Value))

inductive Field
  | key (key : Bytes)
  | index (i : ℕ)

namespace Value

def type : Value → ValueType
  | nil => .nil
  | boolean _ => .bool
  | number _ => .num
  | string _ => .str
  | array _ => .array
  | object _ => .obj

/-! ## Downcasts and lookups -/

def asString : Value → Except Exn Bytes
  | string s => .ok s
  | v => .error (.typeError .str v.type)

def asArray : Value → Except Exn (List Value)
  | array vs => .ok vs
  | v => .error (.typeError .array v.type)

def asObject : Value → Except Exn (Dict Bytes Value)
  | object ms => .ok ms
  | v => .error (.typeError .obj v.type)

end Value

def ObjectValue.at (ms : Dict Bytes Value) (key : Bytes) : Except Exn Value :=
  match ms.find key with
  | none => .error (.keyNotFoundError key)
  | some v => .ok v

/-! ## Printing -/

namespace Value

def separator (first : Bool) : Bytes := if first then [] else ascii ", "

mutual

def print : Value → Bytes
  | nil => ascii "null"
  | boolean b => if b then ascii "true" else ascii "false"
  | number d => d.print
  | string s => chr '"' :: s ++ [chr '"']
  | array vs => chr '[' :: printValues true vs ++ [chr ']']
  | object ms => chr '{' :: printMembers true ms ++ [chr '}']

def printValues : Bool → List Value → Bytes
  | _, [] => []
  | first, v::vs => separator first ++ print v ++ printValues false vs

def printMembers : Bool → List (Bytes × Value) → Bytes
  | _, [] => []
  | first, (k,v)::ms =>
    separator first ++ (chr '"' :: k ++ ascii "\": ") ++ print v ++ printMembers false ms

end

def toString (v : Value) : Bytes := v.print

/-! ## Identity -/

mutual

/-- Whether two values are the same, the order of their members included. -/
def same : Value → Value → Bool
  | nil, nil => true
  | boolean a, boolean b => a == b
  | number a, number b => a == b
  | string a, string b => a == b
  | array vs, array ws => sameValues vs ws
  | object ms, object ns => sameMembers ms ns
  | _, _ => false

def sameValues : List Value → List Value → Bool
  | [], [] => true
  | v::vs, w::ws => same v w && sameValues vs ws
  | _, _ => false

def sameMembers : List (Bytes × Value) → List (Bytes × Value) → Bool
  | [], [] => true
  | (k,v)::ms, (l,w)::ns => k == l && same v w && sameMembers ms ns
  | _, _ => false

end

mutual

theorem eq_of_same {v w : Value} (h : same v w = true) : v = w := by
  cases v <;> cases w <;> simp only [same,beq_iff_eq,Bool.false_eq_true] at h
  · rfl
  · rw [h]
  · rw [h]
  · rw [h]
  · rw [eq_of_sameValues h]
  · rw [eq_of_sameMembers h]

theorem eq_of_sameValues {vs ws : List Value} (h : sameValues vs ws = true) : vs = ws := by
  cases vs <;> cases ws <;> simp only [sameValues,Bool.and_eq_true,Bool.false_eq_true] at h
  · rfl
  · rw [eq_of_same h.1,eq_of_sameValues h.2]

theorem eq_of_sameMembers {ms ns : List (Bytes × Value)} (h : sameMembers ms ns = true) :
    ms = ns := by
  rcases ms with _ | ⟨⟨k,v⟩,ms⟩ <;> rcases ns with _ | ⟨⟨l,w⟩,ns⟩ <;>
    simp only [sameMembers,Bool.and_eq_true,beq_iff_eq,Bool.false_eq_true] at h
  · rfl
  · rw [h.1.1,eq_of_same h.1.2,eq_of_sameMembers h.2]

end

/-! ## Equality -/

theorem sizeOf_find_lt {ms : List (Bytes × Value)} {k : Bytes} {v : Value}
    (h : Dict.find k ms = some v) : sizeOf v < sizeOf ms := by
  have hm := List.sizeOf_lt_of_mem (Dict.mem_of_find h)
  have hp : sizeOf (k,v) = 1 + sizeOf k + sizeOf v := rfl
  omega

mutual

/-- `lhs == rhs`. The double dispatch hands the comparison to the right operand, so the
operands change sides at every level of nesting. -/
def eq : Value → Value → Bool
  | nil, nil => true
  | boolean a, boolean b => b == a
  | number a, number b => b.eq a
  | string a, string b => b == a
  | array vs, array ws => ws.length == vs.length && eqValues 0 ws vs
  | object vs, object ws => ws.length == vs.length && eqMembers ws vs
  | _, _ => false
termination_by v w => sizeOf v + sizeOf w

/-- The element loop of `ArrayValue::eq` from the index `i` on; `other` is the left operand's
array. After the greatest `int` the index is negative, and as a `size_t` above every size. -/
def eqValues : ℤ → List Value → List Value → Bool
  | i, v::vs, w::other => if i < 0 then true else eq v w && eqValues (increment i) vs other
  | _, _, _ => true
termination_by _ vs other => sizeOf vs + sizeOf other

/-- The member loop of `ObjectValue::eq`; `other` is the left operand's map. -/
def eqMembers : List (Bytes × Value) → List (Bytes × Value) → Bool
  | [], _ => true
  | (k,v)::ms, other =>
    (match _h : Dict.find k other with
      | none => false
      | some w => eq w v) && eqMembers ms other
termination_by ms other => sizeOf ms + sizeOf other
decreasing_by
  · have hs := sizeOf_find_lt _h
    simp only [List.cons.sizeOf_spec,Prod.mk.sizeOf_spec]
    omega
  · simp only [List.cons.sizeOf_spec]
    omega

end

end Value

end Gabby.Json
