import Mathlib.Data.List.Basic

/-! Systems of guarded actions: runs, invariants, and what a state can still lead to. -/
namespace Gabby

/-- Guarded actions on a state. -/
structure System (σ α : Type) where
  enabled : σ → α → Prop
  next : σ → α → σ

namespace System

variable {σ α : Type} (M : System σ α)

def Valid : σ → List α → Prop
  | _, [] => True
  | s, a::as => M.enabled s a ∧ Valid (M.next s a) as

def final (s : σ) (as : List α) : σ := as.foldl M.next s

/-- Every step of the run meets the condition. -/
def Along (C : σ → α → Prop) : σ → List α → Prop
  | _, [] => True
  | s, a::as => C s a ∧ Along C (M.next s a) as

def Reachable (s t : σ) : Prop := ∃ as, M.Valid s as ∧ M.final s as = t

/-- A run whose steps all meet the condition leads from one state to the other. -/
def ReachableBy (C : σ → α → Prop) (s t : σ) : Prop :=
  ∃ as, M.Valid s as ∧ M.Along C s as ∧ M.final s as = t

def Leads (s : σ) (P : σ → Prop) : Prop := ∃ t, M.Reachable s t ∧ P t

instance validDecidable [∀ s a, Decidable (M.enabled s a)] : ∀ s as, Decidable (M.Valid s as)
  | _, [] => isTrue trivial
  | s, a::as =>
    have := validDecidable (M.next s a) as
    inferInstanceAs (Decidable (M.enabled s a ∧ M.Valid (M.next s a) as))

@[simp] theorem valid_nil (s : σ) : M.Valid s [] := trivial
@[simp] theorem valid_cons (s : σ) (a : α) (as : List α) :
    M.Valid s (a::as) ↔ M.enabled s a ∧ M.Valid (M.next s a) as := Iff.rfl
@[simp] theorem final_nil (s : σ) : M.final s [] = s := rfl
@[simp] theorem final_cons (s : σ) (a : α) (as : List α) :
    M.final s (a::as) = M.final (M.next s a) as := rfl
@[simp] theorem along_nil (C : σ → α → Prop) (s : σ) : M.Along C s [] := trivial
@[simp] theorem along_cons (C : σ → α → Prop) (s : σ) (a : α) (as : List α) :
    M.Along C s (a::as) ↔ C s a ∧ M.Along C (M.next s a) as := Iff.rfl

variable {M}
variable {s t u : σ} {a : α} {as bs : List α} {C : σ → α → Prop} {I P Q : σ → Prop}

@[simp] theorem final_append : M.final s (as ++ bs) = M.final (M.final s as) bs :=
  List.foldl_append

@[simp] theorem valid_append :
    M.Valid s (as ++ bs) ↔ M.Valid s as ∧ M.Valid (M.final s as) bs := by
  induction as generalizing s with
  | nil => simp
  | cons a as ih => simp [ih,and_assoc]

@[simp] theorem along_append :
    M.Along C s (as ++ bs) ↔ M.Along C s as ∧ M.Along C (M.final s as) bs := by
  induction as generalizing s with
  | nil => simp
  | cons a as ih => simp [ih,and_assoc]

theorem along_of_mem (h : ∀ a ∈ as, ∀ s, C s a) : M.Along C s as := by
  induction as generalizing s with
  | nil => trivial
  | cons a as ih =>
    exact ⟨h a List.mem_cons_self s,ih fun b hb => h b (List.mem_cons_of_mem a hb)⟩

@[simp] theorem along_const {p : α → Prop} :
    M.Along (fun _ a => p a) s as ↔ ∀ a ∈ as, p a := by
  induction as generalizing s with
  | nil => simp
  | cons a as ih => simp [ih]

/-! ## Invariants -/

/-- What the steps that meet a condition preserve, a run of such steps preserves. -/
theorem along_invariant (hstep : ∀ s a, I s → M.enabled s a → C s a → I (M.next s a))
    (hs : I s) (hv : M.Valid s as) (hc : M.Along C s as) : I (M.final s as) := by
  induction as generalizing s with
  | nil => exact hs
  | cons a as ih => exact ih (hstep s a hs hv.1 hc.1) hv.2 hc.2

theorem ReachableBy.invariant (hr : M.ReachableBy C s t) (hs : I s)
    (hstep : ∀ s a, I s → M.enabled s a → C s a → I (M.next s a)) : I t := by
  obtain ⟨as,hv,hc,rfl⟩ := hr
  exact along_invariant hstep hs hv hc

theorem run_invariant (hstep : ∀ s a, I s → M.enabled s a → I (M.next s a))
    (hs : I s) (hv : M.Valid s as) : I (M.final s as) :=
  along_invariant (C := fun _ _ => True) (fun s a hi ha _ => hstep s a hi ha) hs hv
    (along_of_mem fun _ _ _ => trivial)

/-- A property that a step keeps exactly when it meets a condition tells at the end of a run
whether every step met it. -/
theorem final_iff_along {J : σ → Prop} (hI : ∀ s a, I s → M.enabled s a → I (M.next s a))
    (hJ : ∀ s a, I s → M.enabled s a → (J (M.next s a) ↔ J s ∧ C s a))
    (hs : I s) (hv : M.Valid s as) : J (M.final s as) ↔ J s ∧ M.Along C s as := by
  induction as generalizing s with
  | nil => simp
  | cons a as ih =>
    rw [final_cons,ih (hI s a hs hv.1) hv.2,hJ s a hs hv.1,along_cons,and_assoc]

/-- Conditions that agree on the states of an invariant, which the steps that meet them
preserve, are met by the same runs. -/
theorem along_iff {D E : σ → α → Prop} (h : ∀ s a, I s → E s a → (C s a ↔ D s a))
    (hstep : ∀ s a, I s → E s a → D s a → I (M.next s a)) (hs : I s) (he : M.Along E s as) :
    M.Along C s as ↔ M.Along D s as := by
  induction as generalizing s with
  | nil => exact Iff.rfl
  | cons a as ih =>
    rw [along_cons,along_cons,h s a hs he.1]
    exact and_congr_right fun hd => ih (hstep s a hs he.1 hd) he.2

/-- A property of every state of a run, said of the first and of what each step leads to. -/
theorem forall_final_iff : (∀ bs bs', as = bs ++ bs' → I (M.final s bs)) ↔
    I s ∧ M.Along (fun s a => I (M.next s a)) s as := by
  induction as generalizing s with
  | nil =>
    constructor
    · exact fun h => ⟨h [] [] rfl,trivial⟩
    · rintro ⟨h,-⟩ bs bs' hb
      rw [(List.append_eq_nil_iff.mp hb.symm).1]
      exact h
  | cons a as ih =>
    have ih := ih (s:=M.next s a)
    rw [along_cons,← ih]
    constructor
    · intro h
      exact ⟨h [] _ rfl,fun bs bs' hb => h (a::bs) bs' (by rw [hb]; rfl)⟩
    · rintro ⟨hs,h⟩ bs bs' hb
      cases bs with
      | nil => exact hs
      | cons b bs =>
        rw [List.cons_append,List.cons.injEq] at hb
        obtain ⟨rfl,hb⟩ := hb
        exact h bs bs' hb

/-- What holds at first and is preserved by every step holds in every reachable state. -/
theorem Reachable.invariant (hr : M.Reachable s t) (hs : I s)
    (hstep : ∀ s a, I s → M.enabled s a → I (M.next s a)) : I t := by
  obtain ⟨as,hv,rfl⟩ := hr
  exact run_invariant hstep hs hv

namespace Reachable

theorem refl (s : σ) : M.Reachable s s := ⟨[],trivial,rfl⟩

theorem trans (h₁ : M.Reachable s t) (h₂ : M.Reachable t u) : M.Reachable s u := by
  obtain ⟨as,hv,rfl⟩ := h₁
  obtain ⟨bs,hw,rfl⟩ := h₂
  exact ⟨as ++ bs,valid_append.mpr ⟨hv,hw⟩,final_append⟩

theorem single (h : M.enabled s a) : M.Reachable s (M.next s a) := ⟨[a],⟨h,trivial⟩,rfl⟩

theorem step (hr : M.Reachable s t) (h : M.enabled t a) : M.Reachable s (M.next t a) :=
  hr.trans (single h)

end Reachable

namespace ReachableBy

theorem refl (s : σ) : M.ReachableBy C s s := ⟨[],trivial,trivial,rfl⟩

theorem trans (h₁ : M.ReachableBy C s t) (h₂ : M.ReachableBy C t u) : M.ReachableBy C s u := by
  obtain ⟨as,hv,hc,rfl⟩ := h₁
  obtain ⟨bs,hw,hd,rfl⟩ := h₂
  exact ⟨as ++ bs,valid_append.mpr ⟨hv,hw⟩,along_append.mpr ⟨hc,hd⟩,final_append⟩

theorem head (h : M.enabled s a) (hc : C s a) (hr : M.ReachableBy C (M.next s a) t) :
    M.ReachableBy C s t := by
  obtain ⟨as,hv,hd,rfl⟩ := hr
  exact ⟨a::as,⟨h,hv⟩,⟨hc,hd⟩,rfl⟩

theorem reachable (hr : M.ReachableBy C s t) : M.Reachable s t := by
  obtain ⟨as,hv,-,rfl⟩ := hr
  exact ⟨as,hv,rfl⟩

end ReachableBy

/-! ## Continuations -/

namespace Leads

theorem now (h : P s) : M.Leads s P := ⟨s,Reachable.refl s,h⟩

theorem next (h : M.enabled s a) (hl : M.Leads (M.next s a) P) : M.Leads s P := by
  obtain ⟨t,hr,ht⟩ := hl
  exact ⟨t,(Reachable.single h).trans hr,ht⟩

theorem after (hr : M.Reachable s t) (hl : M.Leads t P) : M.Leads s P := by
  obtain ⟨u,hu,hp⟩ := hl
  exact ⟨u,hr.trans hu,hp⟩

end Leads

/-! ## Termination -/

section Measure

variable {D : α → Prop} {μ : σ → ℕ} (hI : ∀ s a, I s → M.enabled s a → I (M.next s a))
  (hμ : ∀ s a, I s → M.enabled s a → D a → μ (M.next s a) < μ s)
include hI hμ

/-- A run of steps that decrease a measure is no longer than the measure. -/
theorem length_add_le_measure (hs : I s) (hv : M.Valid s as) (hd : ∀ a ∈ as, D a) :
    as.length + μ (M.final s as) ≤ μ s := by
  induction as generalizing s with
  | nil => exact Nat.le_of_eq (Nat.zero_add _)
  | cons a as ih =>
    have hrest := ih (hI s a hs hv.1) hv.2 fun b hb => hd b (List.mem_cons_of_mem a hb)
    have hlt := hμ s a hs hv.1 (hd a List.mem_cons_self)
    rw [List.length_cons,final_cons]
    omega

/-- Such steps lead to a state in which none of them can be taken. -/
theorem exists_halted (hs : I s) : ∃ as, M.Valid s as ∧ (∀ a ∈ as, D a) ∧
    ∀ a, D a → ¬M.enabled (M.final s as) a := by
  induction hm : μ s using Nat.strongRecOn generalizing s with
  | ind m ih =>
    by_cases hgo : ∃ a, D a ∧ M.enabled s a
    · obtain ⟨a,hd,ha⟩ := hgo
      obtain ⟨as,hv,has,hstop⟩ := ih _ (hm ▸ hμ s a hs ha hd) (hI s a hs ha) rfl
      exact ⟨a::as,⟨ha,hv⟩,List.forall_mem_cons.mpr ⟨hd,has⟩,hstop⟩
    · exact ⟨[],trivial,by simp,fun a hd ha => hgo ⟨a,hd,ha⟩⟩

end Measure

theorem eq_nil_of_halted {D : α → Prop} (hstop : ∀ a, D a → ¬M.enabled s a) (hv : M.Valid s as)
    (hd : ∀ a ∈ as, D a) : as = [] := by
  cases as with
  | nil => rfl
  | cons a as => exact absurd hv.1 (hstop a (hd a List.mem_cons_self))

/-! ## Deterministic systems -/

namespace Reachable

/-- With one action at most, of two states on the way one comes first. -/
theorem comparable [Subsingleton α] (ht : M.Reachable s t) (hu : M.Reachable s u) :
    M.Reachable t u ∨ M.Reachable u t := by
  obtain ⟨as,hv,rfl⟩ := ht
  obtain ⟨bs,hw,rfl⟩ := hu
  induction as generalizing s bs with
  | nil => exact .inl ⟨bs,hw,rfl⟩
  | cons a as ih =>
    cases bs with
    | nil => exact .inr ⟨a::as,hv,rfl⟩
    | cons b bs =>
      obtain rfl := Subsingleton.elim a b
      exact ih hv.2 bs hw.2

theorem eq_of_halted (ht : M.Reachable s t) (hs : ∀ a, ¬M.enabled s a) : t = s := by
  obtain ⟨as,hv,rfl⟩ := ht
  cases as with
  | nil => rfl
  | cons a as => exact absurd hv.1 (hs a)

theorem halted_unique [Subsingleton α] (ht : M.Reachable s t) (hu : M.Reachable s u)
    (hth : ∀ a, ¬M.enabled t a) (huh : ∀ a, ¬M.enabled u a) : t = u := by
  rcases ht.comparable hu with h | h
  · exact (h.eq_of_halted hth).symm
  · exact h.eq_of_halted huh

end Reachable

/-! ## What begins and ends -/

section Falls

variable (M) (P) in
def falls [DecidablePred P] : σ → List α → ℕ
  | _, [] => 0
  | s, a::as => (if P s ∧ ¬P (M.next s a) then 1 else 0) + falls (M.next s a) as

/-- A property that can only begin together with one that lasts ends at most once: it has
ended, or it has not begun, or it still holds. -/
theorem falls_add [DecidablePred P] [DecidablePred Q]
    (hI : ∀ s a, I s → M.enabled s a → I (M.next s a)) (hPQ : ∀ s, I s → P s → Q s)
    (hlasts : ∀ s a, I s → M.enabled s a → Q s → Q (M.next s a))
    (hbegins : ∀ s a, I s → M.enabled s a → Q s → P (M.next s a) → P s)
    (htogether : ∀ s a, I s → M.enabled s a → ¬Q s → Q (M.next s a) → P (M.next s a))
    (hs : I s) (hv : M.Valid s as) :
    M.falls P s as + (if P (M.final s as) then 1 else 0) + (if Q s then 1 else 0) =
      (if Q (M.final s as) then 1 else 0) + (if P s then 1 else 0) := by
  induction as generalizing s with
  | nil =>
    change 0 + (if P s then 1 else 0) + (if Q s then 1 else 0) = _ + _
    rw [Nat.zero_add,Nat.add_comm]
    rfl
  | cons a as ih =>
    have hrest := ih (hI s a hs hv.1) hv.2
    rw [falls,final_cons]
    by_cases hq : Q s
    · have hqn := hlasts s a hs hv.1 hq
      have hpn := hbegins s a hs hv.1 hq
      rw [if_pos hqn] at hrest
      rw [if_pos hq]
      by_cases hn : P (M.next s a)
      · rw [if_neg (not_and_not_right.mpr fun _ => hn),if_pos (hpn hn)]
        rw [if_pos hn] at hrest
        omega
      · rw [if_neg hn] at hrest
        by_cases hp : P s
        · rw [if_pos ⟨hp,hn⟩,if_pos hp]
          omega
        · rw [if_neg fun h => hp h.1,if_neg hp]
          omega
    · have hp : ¬P s := fun h => hq (hPQ s hs h)
      have hiff : Q (M.next s a) ↔ P (M.next s a) :=
        ⟨htogether s a hs hv.1 hq,hPQ _ (hI s a hs hv.1)⟩
      rw [if_neg fun h => hp h.1,if_neg hq,if_neg hp]
      by_cases hn : P (M.next s a)
      · rw [if_pos hn,if_pos (hiff.mpr hn)] at hrest
        omega
      · rw [if_neg hn,if_neg fun h => hn (hiff.mp h)] at hrest
        omega

end Falls

end System
end Gabby
