import Mathlib.Data.List.Basic
import Mathlib.Data.List.Infix

/-! Byte strings, the character classes of the C locale and substring search. -/
namespace Gabby

abbrev Bytes := List UInt8

def chr (c : Char) : UInt8 := c.toNat.toUInt8

def ascii (s : String) : Bytes := s.toList.map chr

def crlf : Bytes := [13,10]

/-! ## Character classes

A `char` is modelled by its byte. The C locale classes hold of no byte from 128 on, so the
sign extension of a `char` to `int` never changes their answer. -/

def isspace (b : UInt8) : Bool := b == 32 || (9 ≤ b && b ≤ 13)
def isdigit (b : UInt8) : Bool := 48 ≤ b && b ≤ 57
def isalpha (b : UInt8) : Bool := (65 ≤ b && b ≤ 90) || (97 ≤ b && b ≤ 122)
def isalnum (b : UInt8) : Bool := isalpha b || isdigit b
def tolower (b : UInt8) : UInt8 := if 65 ≤ b && b ≤ 90 then b+32 else b

/-- A property of bytes that holds of all 256 of them. -/
theorem forall_byte {p : UInt8 → Prop} (h : ∀ n : Fin 256, p (UInt8.ofNat n.val)) (b : UInt8) :
    p b := by
  have hb := h ⟨b.toNat,b.toNat_lt⟩
  simpa using hb

theorem isalnum_of_isdigit {b : UInt8} (h : isdigit b = true) : isalnum b = true := by
  simp [isalnum,h]

theorem isalnum_of_isalpha {b : UInt8} (h : isalpha b = true) : isalnum b = true := by
  simp [isalnum,h]

theorem not_isalnum_of_isspace {b : UInt8} : isspace b = true → isalnum b = false :=
  forall_byte (p := fun b => isspace b = true → isalnum b = false) (by decide +kernel) b

theorem not_isdigit_of_isalpha {b : UInt8} : isalpha b = true → isdigit b = false :=
  forall_byte (p := fun b => isalpha b = true → isdigit b = false) (by decide +kernel) b

/-! ## Substring search -/

/-- `string_view::find`: the first position at which the pattern occurs. -/
def find (pat : Bytes) : Bytes → Option ℕ
  | [] => if pat.isEmpty then some 0 else none
  | c::s => if pat.isPrefixOf (c::s) then some 0 else (find pat s).map (·+1)

def findFrom (pat s : Bytes) (pos : ℕ) : Option ℕ :=
  if pos ≤ s.length then (find pat (s.drop pos)).map (·+pos) else none

/-- A position stored in an `int`; `npos` becomes -1. -/
def toInt : Option ℕ → ℤ
  | none => -1
  | some i => i

@[simp] theorem toInt_eq_neg_one {o : Option ℕ} : toInt o = -1 ↔ o = none := by
  cases o <;> simp [toInt]

/-- The first occurrence splits the text, and no occurrence starts earlier. -/
theorem find_eq_some {pat s : Bytes} {i : ℕ} :
    find pat s = some i ↔ pat <+: s.drop i ∧ i ≤ s.length ∧ ∀ j < i, ¬ pat <+: s.drop j := by
  induction s generalizing i with
  | nil =>
    cases pat with
    | nil =>
      simp only [find,List.isEmpty_nil,if_true,Option.some.injEq]
      constructor
      · rintro rfl
        simp
      · rintro ⟨-,h,-⟩
        exact (Nat.le_zero.mp h).symm
    | cons p ps => simp [find]
  | cons c s ih =>
    simp only [find]
    split
    · rename_i h
      have hp : pat <+: c::s := List.isPrefixOf_iff_prefix.mp h
      constructor
      · rintro ⟨⟩
        exact ⟨by simpa using hp,by simp,by simp⟩
      · rintro ⟨-,-,hn⟩
        cases i with
        | zero => rfl
        | succ i => exact absurd (by simpa using hp) (hn 0 (by omega))
    · rename_i h
      have hp : ¬ pat <+: c::s := fun h' => h (List.isPrefixOf_iff_prefix.mpr h')
      cases i with
      | zero => simp [hp]
      | succ i =>
        have hi : (find pat s).map (·+1) = some (i+1) ↔ find pat s = some i := by
          cases find pat s <;> simp
        rw [hi,ih]
        constructor
        · rintro ⟨h1,h2,h3⟩
          refine ⟨by simpa using h1,by simpa using h2,?_⟩
          intro j hj
          cases j with
          | zero => simpa using hp
          | succ j => simpa using h3 j (by omega)
        · rintro ⟨h1,h2,h3⟩
          refine ⟨by simpa using h1,by simpa using h2,?_⟩
          intro j hj
          simpa using h3 (j+1) (by omega)

theorem find_eq_none {pat s : Bytes} : find pat s = none ↔ ¬ pat <:+: s := by
  induction s with
  | nil => cases pat <;> simp [find]
  | cons c s ih =>
    simp only [find]
    split
    · rename_i h
      have hp : pat <+: c::s := List.isPrefixOf_iff_prefix.mp h
      simp [hp.isInfix]
    · rename_i h
      have hp : ¬ pat <+: c::s := fun h' => h (List.isPrefixOf_iff_prefix.mpr h')
      simp [ih,List.infix_cons_iff,hp]

/-- The text before the first occurrence holds no other, and the pattern follows it. -/
theorem find_split {pat s : Bytes} (hp : pat ≠ []) {i : ℕ} (h : find pat s = some i) :
    s = s.take i ++ pat ++ s.drop (i+pat.length) ∧ i ≤ s.length ∧ ¬ pat <:+: s.take i := by
  obtain ⟨⟨w,hw⟩,hi,hn⟩ := find_eq_some.mp h
  refine ⟨?_,hi,?_⟩
  · have hd : s.drop (i+pat.length) = w := by
      rw [← List.drop_drop,← hw,List.drop_left]
    rw [hd,List.append_assoc,hw,List.take_append_drop]
  · rintro ⟨x,y,hxy⟩
    have hlen := congrArg List.length hxy
    have hpos := List.length_pos_iff.mpr hp
    simp only [List.length_append,List.length_take] at hlen
    apply hn x.length (by omega)
    have hs : s = x ++ (pat ++ (y ++ s.drop i)) := by
      conv_lhs => rw [← List.take_append_drop i s,← hxy]
      simp
    rw [hs,List.drop_left]
    exact List.prefix_append _ _

theorem find_append {pat u : Bytes} (hp : pat ≠ []) (h : ¬ pat <:+: u ++ pat.dropLast)
    (w : Bytes) : find pat (u ++ pat ++ w) = some u.length := by
  rw [find_eq_some]
  refine ⟨⟨w,by simp⟩,by simp,?_⟩
  intro j hj hpre
  apply h
  have hpos := List.length_pos_iff.mpr hp
  have hpat : u ++ pat.dropLast <+: u ++ pat ++ w := by
    rw [List.append_assoc,List.prefix_append_right_inj]
    exact (List.dropLast_prefix pat).trans (List.prefix_append pat w)
  have hd : (u ++ pat.dropLast).drop j <+: (u ++ pat ++ w).drop j := hpat.drop j
  have hle : pat.length ≤ ((u ++ pat.dropLast).drop j).length := by
    simp only [List.length_drop,List.length_append,List.length_dropLast]
    omega
  exact (List.prefix_of_prefix_length_le hpre hd hle).isInfix.trans (List.drop_suffix j _).isInfix

theorem find_singleton {c : UInt8} {u v : Bytes} (h : c ∉ u) :
    find [c] (u ++ c::v) = some u.length := by
  have := find_append (List.cons_ne_nil c [])
    (by simpa [List.singleton_infix_iff] using h : ¬ [c] <:+: u ++ [c].dropLast) v
  simpa using this

end Gabby
