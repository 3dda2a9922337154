import Mathlib.Data.List.Perm.Basic
import Mathlib.Data.List.Nodup

/-! Hash maps as association lists. The order of the list is one order in which the map
may be enumerated; nothing that a program can look up depends on it. -/
namespace Gabby

/-- The members of an `unordered_map` in some enumeration order. -/
abbrev Dict (κ ν : Type) := List (κ × ν)

namespace Dict

variable {κ ν : Type} [DecidableEq κ]

def keys (d : Dict κ ν) : List κ := d.map Prod.fst

def WF (d : Dict κ ν) : Prop := d.keys.Nodup

instance (d : Dict κ ν) : Decidable d.WF := inferInstanceAs (Decidable d.keys.Nodup)

def find (k : κ) : Dict κ ν → Option ν
  | [] => none
  | (k',v)::d => if k' = k then some v else find k d

/-- `map[k] = v`. -/
def assign (d : Dict κ ν) (k : κ) (v : ν) : Dict κ ν :=
  match d with
  | [] => [(k,v)]
  | (k',v')::d => if k' = k then (k,v)::d else (k',v')::assign d k v

/-- `map.insert({k, v})`: a key that is present keeps its value. -/
def insert (d : Dict κ ν) (k : κ) (v : ν) : Dict κ ν :=
  if (d.find k).isSome then d else d ++ [(k,v)]

/-- A run of insertions; of those to one key the first remains. -/
def insertAll (d : Dict κ ν) (ms : List (κ × ν)) : Dict κ ν :=
  ms.foldl (fun d m => d.insert m.1 m.2) d

/-- A run of assignments; of those to one key the last remains. -/
def assignAll (d : Dict κ ν) (ms : List (κ × ν)) : Dict κ ν :=
  ms.foldl (fun d m => d.assign m.1 m.2) d

@[simp] theorem assignAll_nil (d : Dict κ ν) : d.assignAll [] = d := rfl
@[simp] theorem assignAll_cons (d : Dict κ ν) (k : κ) (v : ν) (ms : List (κ × ν)) :
    d.assignAll ((k,v)::ms) = (d.assign k v).assignAll ms := rfl

@[simp] theorem find_nil (k : κ) : find k ([] : Dict κ ν) = none := rfl

theorem find_cons (k k' : κ) (v : ν) (d : Dict κ ν) :
    find k ((k',v)::d) = if k' = k then some v else find k d := rfl

theorem find_eq_none {d : Dict κ ν} {k : κ} : d.find k = none ↔ k ∉ d.keys := by
  induction d with
  | nil => simp [keys]
  | cons m d ih =>
    rcases m with ⟨k',v⟩
    simp only [find_cons,keys,List.map_cons,List.mem_cons,not_or] at ih ⊢
    by_cases h : k' = k
    · simp [h]
    · simp [h,ih,Ne.symm h]

theorem mem_of_find {d : Dict κ ν} {k : κ} {v : ν} (h : d.find k = some v) : (k,v) ∈ d := by
  induction d with
  | nil => simp at h
  | cons m d ih =>
    rcases m with ⟨k',v'⟩
    rw [find_cons] at h
    split at h
    · rename_i hk
      cases h
      simp [hk]
    · exact List.mem_cons_of_mem _ (ih h)

theorem find_of_mem {d : Dict κ ν} (hd : d.WF) {k : κ} {v : ν} (h : (k,v) ∈ d) :
    d.find k = some v := by
  induction d with
  | nil => simp at h
  | cons m d ih =>
    rcases m with ⟨k',v'⟩
    simp only [WF,keys,List.map_cons,List.nodup_cons] at hd
    rcases List.mem_cons.mp h with h | h
    · cases h
      simp [find_cons]
    · have hne : k' ≠ k := by
        rintro rfl
        exact hd.1 (List.mem_map_of_mem h)
      rw [find_cons,if_neg hne,ih hd.2 h]

theorem find_eq_some {d : Dict κ ν} (hd : d.WF) {k : κ} {v : ν} :
    d.find k = some v ↔ (k,v) ∈ d := ⟨mem_of_find,find_of_mem hd⟩

/-- Two enumerations of one map answer every lookup alike. -/
theorem find_perm {d d' : Dict κ ν} (hd : d.WF) (h : d.Perm d') (k : κ) :
    d.find k = d'.find k := by
  have hd' : d'.WF := (h.map Prod.fst).nodup_iff.mp hd
  apply Option.ext
  intro v
  rw [find_eq_some hd,find_eq_some hd',h.mem_iff]

/-- Two maps of one size are the same map up to `f` when the members of one are found in the
other: distinct keys leave no room for a key of the other alone. -/
theorem map_find_eq_iff {δ : Type} {d d' : Dict κ ν} (hd : d.WF) (hd' : d'.WF) (f : ν → δ) :
    (∀ k, (d.find k).map f = (d'.find k).map f) ↔
      d.length = d'.length ∧ ∀ m ∈ d, ∃ w, d'.find m.1 = some w ∧ f w = f m.2 := by
  constructor
  · intro h
    have hmem : ∀ k, k ∈ d.keys ↔ k ∈ d'.keys := by
      intro k
      rw [← not_iff_not,← find_eq_none,← find_eq_none,← Option.map_eq_none_iff (f:=f),h k,
        Option.map_eq_none_iff]
    have hperm : d.keys.Perm d'.keys := (List.perm_ext_iff_of_nodup hd hd').mpr hmem
    refine ⟨by simpa [keys] using hperm.length_eq,fun m hm => ?_⟩
    have hk := h m.1
    rw [find_of_mem hd hm,Option.map_some] at hk
    exact Option.map_eq_some_iff.mp hk.symm
  · rintro ⟨hlen,h⟩ k
    have hsub : d.keys ⊆ d'.keys := by
      intro k' hk'
      obtain ⟨m,hm,rfl⟩ := List.mem_map.mp hk'
      obtain ⟨w,hw,-⟩ := h m hm
      exact List.mem_map.mpr ⟨_,mem_of_find hw,rfl⟩
    have hperm : d.keys.Perm d'.keys :=
      (List.subperm_of_subset hd hsub).perm_of_length_le (by simp [keys,hlen])
    cases hf : d.find k with
    | none =>
      rw [find_eq_none,hperm.mem_iff,← find_eq_none] at hf
      simp [hf]
    | some v =>
      obtain ⟨w,hw,hwv⟩ := h (k,v) (mem_of_find hf)
      simp [hw,hwv]

theorem find_assign (d : Dict κ ν) (k k' : κ) (v : ν) :
    (d.assign k v).find k' = if k = k' then some v else d.find k' := by
  induction d with
  | nil => rfl
  | cons m d ih =>
    rcases m with ⟨k₁,v₁⟩
    simp only [assign]
    split
    · rename_i h
      subst h
      by_cases hk : k₁ = k' <;> simp [find_cons,hk]
    · rename_i h
      rw [find_cons,find_cons,ih]
      by_cases hk : k₁ = k'
      · subst hk
        simp [Ne.symm h]
      · simp [hk]

theorem mem_keys_assign {d : Dict κ ν} {k k' : κ} {v : ν} :
    k' ∈ (d.assign k v).keys ↔ k' = k ∨ k' ∈ d.keys := by
  rw [← not_iff_not,← find_eq_none,find_assign,not_or,← find_eq_none]
  by_cases h : k = k'
  · simp [h]
  · simp [h,Ne.symm h]

theorem assign_ne_nil (d : Dict κ ν) (k : κ) (v : ν) : d.assign k v ≠ [] := by
  cases d with
  | nil => simp [assign]
  | cons m d =>
    simp only [assign]
    split <;> simp

theorem wf_assign {d : Dict κ ν} (hd : d.WF) (k : κ) (v : ν) : (d.assign k v).WF := by
  induction d with
  | nil => simp [WF,keys,assign]
  | cons m d ih =>
    rcases m with ⟨k₁,v₁⟩
    simp only [WF,keys,List.map_cons,List.nodup_cons] at hd
    simp only [assign]
    split
    · rename_i h
      subst h
      simpa [WF,keys] using hd
    · rename_i h
      have hk : k₁ ∉ keys (assign d k v) := by
        rw [mem_keys_assign,not_or]
        exact ⟨h,hd.1⟩
      simpa [WF,keys] using ⟨by simpa [keys] using hk,ih hd.2⟩

theorem mem_assign {d : Dict κ ν} {k : κ} {v : ν} {m : κ × ν} (h : m ∈ d.assign k v) :
    m = (k,v) ∨ m ∈ d := by
  induction d with
  | nil => simpa [assign] using h
  | cons m' d ih =>
    rcases m' with ⟨k₁,v₁⟩
    simp only [assign] at h
    split at h
    · rcases List.mem_cons.mp h with h | h <;> simp [h]
    · rcases List.mem_cons.mp h with h | h
      · simp [h]
      · rcases ih h with h | h <;> simp [h]

theorem mem_assignAll {d : Dict κ ν} {ms : List (κ × ν)} {m : κ × ν} (h : m ∈ d.assignAll ms) :
    m ∈ d ∨ m ∈ ms := by
  induction ms generalizing d with
  | nil => exact .inl h
  | cons m' ms ih =>
    rcases ih h with h | h
    · rcases mem_assign h with h | h
      · exact .inr (by simp [h])
      · exact .inl h
    · exact .inr (by simp [h])

theorem wf_assignAll {d : Dict κ ν} (hd : d.WF) (ms : List (κ × ν)) : (d.assignAll ms).WF := by
  induction ms generalizing d with
  | nil => exact hd
  | cons m ms ih => exact ih (wf_assign hd m.1 m.2)

theorem assign_of_not_mem {d : Dict κ ν} {k : κ} (h : k ∉ d.keys) (v : ν) :
    d.assign k v = d ++ [(k,v)] := by
  induction d with
  | nil => rfl
  | cons m d ih =>
    rcases m with ⟨k₁,v₁⟩
    simp only [keys,List.map_cons,List.mem_cons,not_or] at h
    simp only [assign,List.cons_append]
    rw [if_neg (Ne.symm h.1),ih h.2]

theorem assignAll_of_wf {d : Dict κ ν} (hd : d.WF) : assignAll [] d = d := by
  have key : ∀ (ms acc : Dict κ ν), (acc ++ ms).WF → assignAll acc ms = acc ++ ms := by
    intro ms
    induction ms with
    | nil => simp
    | cons m ms ih =>
      rcases m with ⟨k,v⟩
      intro acc h
      have hk : k ∉ acc.keys := by
        have := h
        simp only [WF,keys,List.map_append,List.map_cons,List.nodup_append] at this
        intro hm
        exact this.2.2 k hm k (by simp) rfl
      rw [assignAll_cons,assign_of_not_mem hk,ih _ (by simpa using h)]
      simp
  simpa using key d [] (by simpa using hd)

theorem find_append (d d' : Dict κ ν) (k : κ) :
    find k (d ++ d') = (d.find k).or (d'.find k) := by
  induction d with
  | nil => simp
  | cons m d ih =>
    rw [List.cons_append,find_cons,find_cons,ih]
    split <;> simp

/-- Listing every member twice changes no lookup. -/
theorem find_flatMap_twice (d : Dict κ ν) (k : κ) :
    find k (d.flatMap fun m => [m,m]) = d.find k := by
  induction d with
  | nil => rfl
  | cons m d ih =>
    rw [List.flatMap_cons,find_append,ih,find_cons,find_cons,find_cons]
    split <;> simp

theorem find_insert (d : Dict κ ν) (k k' : κ) (v : ν) :
    (d.insert k v).find k' = (d.find k').or (if k = k' then some v else none) := by
  unfold insert
  split
  · rename_i h
    by_cases hk : k = k'
    · subst hk
      obtain ⟨w,hw⟩ := Option.isSome_iff_exists.mp h
      simp [hw]
    · simp [hk]
  · rw [find_append]
    rfl

theorem wf_insert {d : Dict κ ν} (hd : d.WF) (k : κ) (v : ν) : (d.insert k v).WF := by
  unfold insert
  split
  · exact hd
  · rename_i h
    have hk : k ∉ d.keys := by
      rw [← find_eq_none]
      simpa using h
    have := wf_assign hd k v
    rwa [assign_of_not_mem hk] at this

@[simp] theorem insertAll_nil (d : Dict κ ν) : d.insertAll [] = d := rfl
@[simp] theorem insertAll_cons (d : Dict κ ν) (m : κ × ν) (ms : List (κ × ν)) :
    d.insertAll (m::ms) = (d.insert m.1 m.2).insertAll ms := rfl

theorem wf_insertAll {d : Dict κ ν} (hd : d.WF) (ms : List (κ × ν)) : (d.insertAll ms).WF := by
  induction ms generalizing d with
  | nil => exact hd
  | cons m ms ih => exact ih (wf_insert hd m.1 m.2)

theorem find_insertAll (d : Dict κ ν) (ms : List (κ × ν)) (k : κ) :
    (d.insertAll ms).find k = (d.find k).or (find k ms) := by
  induction ms generalizing d with
  | nil => simp
  | cons m ms ih =>
    rw [insertAll_cons,ih,find_insert,find_cons,Option.or_assoc]
    congr 1
    split <;> simp

end Dict
end Gabby
