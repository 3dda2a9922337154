import Mathlib.Data.List.Basic

/-! Sequential programs with exceptions over an explicit state.
A run keeps the state in which an exception left it, and it records the state after
every primitive step, so that a property can be asked of each point of a run. -/
namespace Gabby

/-- Why a run ends without a value: an exception is propagating, an `assert` failed,
the behaviour is undefined, or the bound on the number of loop rounds was too small. -/
inductive Stop (ε : Type)
  | throw (e : ε) | assertion | undefined | outOfFuel
  deriving DecidableEq

structure Run (σ ε α : Type) where
  visited : List σ
  outcome : Except (Stop ε) α
  final : σ

def Run.points {σ ε α : Type} (r : Run σ ε α) (start : σ) : List σ :=
  start :: (r.visited ++ [r.final])

def Exec (σ ε α : Type) := σ → Run σ ε α

namespace Exec

variable {σ τ ε α β : Type}

instance : Monad (Exec σ ε) where
  pure a := fun s => ⟨[],.ok a,s⟩
  bind m f := fun s => match (m s).outcome with
    | .ok a => let r := f a (m s).final
      ⟨(m s).visited ++ r.visited,r.outcome,r.final⟩
    | .error e => ⟨(m s).visited,.error e,(m s).final⟩

def stop (e : Stop ε) : Exec σ ε α := fun s => ⟨[],.error e,s⟩

def throw (e : ε) : Exec σ ε α := stop (.throw e)

def read (f : σ → α) : Exec σ ε α := fun s => ⟨[],.ok (f s),s⟩

/-- A primitive step; the state it leaves is one of the points of the run. -/
def step (f : σ → Except (Stop ε) α × σ) : Exec σ ε α := fun s => ⟨[(f s).2],(f s).1,(f s).2⟩

def modify (f : σ → σ) : Exec σ ε Unit := step fun s => (.ok (),f s)

/-- Run a program of a component on the part of the state that the component owns. -/
def zoom (get : τ → σ) (set : τ → σ → τ) (m : Exec σ ε α) : Exec τ ε α := fun t =>
  ⟨(m (get t)).visited.map (set t),(m (get t)).outcome,set t (m (get t)).final⟩

/-- `try`/`catch`: only exceptions are caught, a failed assertion still ends the process. -/
def tryCatch (m : Exec σ ε α) (handler : ε → Exec σ ε α) : Exec σ ε α := fun s =>
  match (m s).outcome with
  | .error (.throw e) => let r := handler e (m s).final
    ⟨(m s).visited ++ r.visited,r.outcome,r.final⟩
  | _ => m s

/-- An exception in the scope gives something back. -/
def guarded (release : σ → σ) (body : Exec σ ε β) : Exec σ ε β :=
  tryCatch body fun e => modify release >>= fun _ => throw e

/-- What is acquired is given back when its scope is left, also by an exception. -/
def owning (acquire : Exec σ ε α) (release : α → σ → σ) (body : α → Exec σ ε β) : Exec σ ε β := do
  let a ← acquire
  let b ← guarded (release a) (body a)
  modify (release a)
  pure b

/-- At most `n` rounds of a loop; `.inl` goes round again, `.inr` leaves. -/
def iterate (body : α → Exec σ ε (α ⊕ β)) : ℕ → α → Exec σ ε β
  | 0, _ => stop .outOfFuel
  | n+1, a => body a >>= fun r => match r with
    | .inl a' => iterate body n a'
    | .inr b => pure b

/-- A loop whose number of rounds is bounded by a function of the state it starts in. -/
def loop (fuel : σ → ℕ) (body : α → Exec σ ε (α ⊕ β)) (a : α) : Exec σ ε β := fun s =>
  iterate body (fuel s) a s

/-! ## Results -/

def run (m : Exec σ ε α) (s : σ) : Except (Stop ε) α × σ := ((m s).outcome,(m s).final)

@[simp] theorem run_pure (a : α) (s : σ) : (pure a : Exec σ ε α).run s = (.ok a,s) := rfl
@[simp] theorem run_stop (e : Stop ε) (s : σ) :
    (stop e : Exec σ ε α).run s = (.error e,s) := rfl
@[simp] theorem run_throw (e : ε) (s : σ) :
    (throw e : Exec σ ε α).run s = (.error (.throw e),s) := rfl
@[simp] theorem run_read (f : σ → α) (s : σ) : (read f : Exec σ ε α).run s = (.ok (f s),s) := rfl
@[simp] theorem run_step (f : σ → Except (Stop ε) α × σ) (s : σ) : (step f).run s = f s := rfl
@[simp] theorem run_modify (f : σ → σ) (s : σ) :
    (modify f : Exec σ ε Unit).run s = (.ok (),f s) := rfl
@[simp] theorem run_zoom (get : τ → σ) (set : τ → σ → τ) (m : Exec σ ε α) (t : τ) :
    (zoom get set m).run t = ((m.run (get t)).1,set t (m.run (get t)).2) := rfl
@[simp] theorem run_loop (fuel : σ → ℕ) (body : α → Exec σ ε (α ⊕ β)) (a : α) (s : σ) :
    (loop fuel body a).run s = (iterate body (fuel s) a).run s := rfl

theorem run_bind (m : Exec σ ε α) (f : α → Exec σ ε β) (s : σ) :
    (m >>= f).run s = match m.run s with
      | (.ok a,t) => (f a).run t
      | (.error e,t) => (.error e,t) := by
  simp only [run,bind]
  cases (m s).outcome <;> rfl

theorem run_bind_ok {m : Exec σ ε α} {f : α → Exec σ ε β} {s t : σ} {a : α}
    (h : m.run s = (.ok a,t)) : (m >>= f).run s = (f a).run t := by rw [run_bind,h]

theorem run_bind_error {m : Exec σ ε α} {f : α → Exec σ ε β} {s t : σ} {e : Stop ε}
    (h : m.run s = (.error e,t)) : (m >>= f).run s = (.error e,t) := by rw [run_bind,h]

/-- A sequence returns when its first part does and the rest returns from there. -/
theorem run_bind_congr (m : Exec σ ε α) {f g : α → Exec σ ε β} {s : σ}
    (h : ∀ a t, (f a).run t = (g a).run t) : (m >>= f).run s = (m >>= g).run s := by
  simp only [run_bind,h]

theorem run_bind_assoc {γ : Type} (m : Exec σ ε α) (f : α → Exec σ ε β) (g : β → Exec σ ε γ)
    (s : σ) : (m >>= f >>= g).run s = (m >>= fun a => f a >>= g).run s := by
  simp only [run_bind]
  rcases m.run s with ⟨e | a,t⟩ <;> rfl

theorem run_bind_eq_ok {m : Exec σ ε α} {f : α → Exec σ ε β} {s u : σ} {b : β} :
    (m >>= f).run s = (.ok b,u) ↔ ∃ a t, m.run s = (.ok a,t) ∧ (f a).run t = (.ok b,u) := by
  rw [run_bind]
  rcases m.run s with ⟨e | a,t⟩ <;> simp

theorem run_tryCatch_ok {m : Exec σ ε α} {handler : ε → Exec σ ε α} {s t : σ} {a : α}
    (h : m.run s = (.ok a,t)) : (tryCatch m handler).run s = (.ok a,t) := by
  simp only [run,Prod.mk.injEq] at h
  simp [run,tryCatch,h.1,h.2]

theorem run_tryCatch_throw {m : Exec σ ε α} {handler : ε → Exec σ ε α} {s t : σ} {e : ε}
    (h : m.run s = (.error (.throw e),t)) :
    (tryCatch m handler).run s = (handler e).run t := by
  simp only [run,Prod.mk.injEq] at h
  simp [run,tryCatch,h.1,h.2]

theorem run_tryCatch_stop {m : Exec σ ε α} {handler : ε → Exec σ ε α} {s t : σ} {e : Stop ε}
    (h : m.run s = (.error e,t)) (he : ∀ x, e ≠ .throw x) :
    (tryCatch m handler).run s = (.error e,t) := by
  simp only [run,Prod.mk.injEq] at h
  cases e with
  | throw x => exact absurd rfl (he x)
  | _ => simp [run,tryCatch,h.1,h.2]

theorem run_guarded (release : σ → σ) (body : Exec σ ε β) (s : σ) :
    (guarded release body).run s = match body.run s with
      | (.error (.throw e),t) => (.error (.throw e),release t)
      | r => r := by
  rcases h : body.run s with ⟨e | b,t⟩
  · cases e with
    | throw e => rw [guarded,run_tryCatch_throw h]; rfl
    | _ => rw [guarded,run_tryCatch_stop h (by simp)]
  · rw [guarded,run_tryCatch_ok h]

/-- The scope gives back what it has acquired, unless the process ends in it. -/
theorem run_owning {acquire : Exec σ ε α} {release : α → σ → σ} {body : α → Exec σ ε β} {s t : σ}
    {a : α} (ha : acquire.run s = (.ok a,t)) :
    (owning acquire release body).run s = match (body a).run t with
      | (.ok b,u) => (.ok b,release a u)
      | (.error (.throw e),u) => (.error (.throw e),release a u)
      | r => r := by
  rw [owning,run_bind_ok ha,run_bind,run_guarded]
  rcases (body a).run t with ⟨e | b,u⟩
  · cases e <;> rfl
  · rfl

theorem run_iterate_succ (body : α → Exec σ ε (α ⊕ β)) (n : ℕ) (a : α) (s : σ) :
    (iterate body (n+1) a).run s = match (body a).run s with
      | (.ok (.inl a'),t) => (iterate body n a').run t
      | (.ok (.inr b),t) => (.ok b,t)
      | (.error e,t) => (.error e,t) := by
  rw [iterate,run_bind]
  rcases (body a).run s with ⟨e | a' | b,t⟩ <;> rfl

theorem run_iterate_inl {body : α → Exec σ ε (α ⊕ β)} {n : ℕ} {a a' : α} {s t : σ}
    (h : (body a).run s = (.ok (.inl a'),t)) :
    (iterate body (n+1) a).run s = (iterate body n a').run t := by rw [run_iterate_succ,h]

theorem run_iterate_inr {body : α → Exec σ ε (α ⊕ β)} {n : ℕ} {a : α} {b : β} {s t : σ}
    (h : (body a).run s = (.ok (.inr b),t)) :
    (iterate body (n+1) a).run s = (.ok b,t) := by rw [run_iterate_succ,h]

theorem run_iterate_error {body : α → Exec σ ε (α ⊕ β)} {n : ℕ} {a : α} {e : Stop ε} {s t : σ}
    (h : (body a).run s = (.error e,t)) :
    (iterate body (n+1) a).run s = (.error e,t) := by rw [run_iterate_succ,h]

/-! ## Specifications -/

/-- From a state in `P` every point of the run is in `I`, and the run ends with a value and
a state in `Q` or early in a way that `E` allows. -/
def Spec (P I : σ → Prop) (m : Exec σ ε α) (Q : α → σ → Prop) (E : Stop ε → σ → Prop) : Prop :=
  ∀ s, P s → (∀ t ∈ (m s).visited, I t) ∧
    (∀ a, (m s).outcome = .ok a → Q a (m s).final) ∧
    (∀ e, (m s).outcome = .error e → E e (m s).final)

section Specs

variable {P P' I : σ → Prop} {Q Q' : α → σ → Prop} {E E' : Stop ε → σ → Prop}

theorem Spec.weaken {m : Exec σ ε α} (h : Spec P I m Q E) (hp : ∀ s, P' s → P s)
    (hq : ∀ a s, Q a s → Q' a s) (he : ∀ e s, E e s → E' e s) : Spec P' I m Q' E' := by
  intro s hs
  obtain ⟨hv,ha,hx⟩ := h s (hp s hs)
  exact ⟨hv,fun a h => hq a _ (ha a h),fun e h => he e _ (hx e h)⟩

theorem spec_pure {a : α} (h : ∀ s, P s → Q a s) : Spec P I (pure a : Exec σ ε α) Q E := by
  intro s hs
  refine ⟨by simp [pure],?_,by simp [pure]⟩
  simpa [pure] using h s hs

theorem spec_stop {e : Stop ε} (h : ∀ s, P s → E e s) :
    Spec P I (stop e : Exec σ ε α) Q E := by
  intro s hs
  refine ⟨by simp [stop],by simp [stop],?_⟩
  simpa [stop] using h s hs

theorem spec_read {f : σ → α} (h : ∀ s, P s → Q (f s) s) :
    Spec P I (read f : Exec σ ε α) Q E := by
  intro s hs
  refine ⟨by simp [read],?_,by simp [read]⟩
  simpa [read] using h s hs

theorem spec_step {f : σ → Except (Stop ε) α × σ} (hi : ∀ s, P s → I (f s).2)
    (hq : ∀ s a, P s → (f s).1 = .ok a → Q a (f s).2)
    (he : ∀ s e, P s → (f s).1 = .error e → E e (f s).2) : Spec P I (step f) Q E := by
  intro s hs
  exact ⟨by simpa [step] using hi s hs,fun a h => hq s a hs h,fun e h => he s e hs h⟩

theorem spec_modify {f : σ → σ} {Q : Unit → σ → Prop} (hi : ∀ s, P s → I (f s))
    (hq : ∀ s, P s → Q () (f s)) : Spec P I (modify f : Exec σ ε Unit) Q E :=
  spec_step hi (fun s _ hs _ => hq s hs) (by simp)

theorem Spec.bind {m : Exec σ ε α} {f : α → Exec σ ε β} {R : β → σ → Prop}
    (hm : Spec P I m Q E) (hf : ∀ a, Spec (Q a) I (f a) R E) : Spec P I (m >>= f) R E := by
  intro s hs
  obtain ⟨hv,hq,he⟩ := hm s hs
  simp only [Bind.bind]
  cases h : (m s).outcome with
  | error e => exact ⟨hv,by simp,fun e' h' => by cases h'; exact he _ h⟩
  | ok a =>
    obtain ⟨hv',hq',he'⟩ := hf a _ (hq a h)
    exact ⟨fun t ht => (List.mem_append.mp ht).elim (hv t) (hv' t),hq',he'⟩

/-! ### Invariants -/

/-- Every point of a run that starts in `I` is in `I`, and it ends early only as `A` allows. -/
def Keeps (I : σ → Prop) (A : Stop ε → Prop) (m : Exec σ ε α) : Prop :=
  Spec I I m (fun _ => I) (fun e s => I s ∧ A e)

variable {A : Stop ε → Prop}

theorem keeps_pure (a : α) : Keeps I A (pure a : Exec σ ε α) := spec_pure fun _ h => h

theorem keeps_stop {e : Stop ε} (h : A e) : Keeps I A (stop e : Exec σ ε α) :=
  spec_stop fun _ hs => ⟨hs,h⟩

theorem keeps_throw {e : ε} (h : A (.throw e)) : Keeps I A (throw e : Exec σ ε α) := keeps_stop h

theorem keeps_read (f : σ → α) : Keeps I A (read f : Exec σ ε α) := spec_read fun _ h => h

theorem keeps_modify {f : σ → σ} (h : ∀ s, I s → I (f s)) :
    Keeps I A (modify f : Exec σ ε Unit) := spec_modify h h

theorem Keeps.bind {m : Exec σ ε α} {f : α → Exec σ ε β} (hm : Keeps I A m)
    (hf : ∀ a, Keeps I A (f a)) : Keeps I A (m >>= f) := Spec.bind hm hf

theorem keeps_iterate {body : α → Exec σ ε (α ⊕ β)} (hA : A .outOfFuel)
    (hb : ∀ a, Keeps I A (body a)) (n : ℕ) (a : α) : Keeps I A (iterate body n a) := by
  induction n generalizing a with
  | zero => exact keeps_stop hA
  | succ n ih =>
    apply (hb a).bind
    rintro (a' | b)
    · exact ih a'
    · exact keeps_pure b

theorem keeps_loop {fuel : σ → ℕ} {body : α → Exec σ ε (α ⊕ β)} (hA : A .outOfFuel)
    (hb : ∀ a, Keeps I A (body a)) (a : α) : Keeps I A (loop fuel body a) :=
  fun s hs => keeps_iterate hA hb (fuel s) a s hs

theorem keeps_zoom {J : τ → Prop} {get : τ → σ} {set : τ → σ → τ} {m : Exec σ ε α}
    (hm : Keeps I A m) (hget : ∀ t, J t → I (get t)) (hset : ∀ t s, J t → I s → J (set t s)) :
    Keeps J A (zoom get set m) := by
  intro t ht
  obtain ⟨hv,hq,he⟩ := hm (get t) (hget t ht)
  refine ⟨?_,fun a ha => hset t _ ht (hq a ha),fun e h => ⟨hset t _ ht (he e h).1,(he e h).2⟩⟩
  intro u hu
  obtain ⟨s,hs,rfl⟩ := List.mem_map.mp hu
  exact hset t s ht (hv s hs)

theorem keeps_tryCatch {m : Exec σ ε α} {handler : ε → Exec σ ε α} (hm : Keeps I A m)
    (hh : ∀ e, Keeps I A (handler e)) : Keeps I A (tryCatch m handler) := by
  intro s hs
  have h := hm s hs
  unfold tryCatch
  split
  · rename_i e he
    obtain ⟨hv,hq,hx⟩ := hh e _ (h.2.2 _ he).1
    exact ⟨fun t ht => (List.mem_append.mp ht).elim (h.1 t) (hv t),hq,hx⟩
  · exact h

/-- An invariant holds at the start, at every step and at the end, however the run ends. -/
theorem Keeps.points {m : Exec σ ε α} (hm : Keeps I A m) {s : σ} (hs : I s) :
    ∀ t ∈ (m s).points s, I t := by
  obtain ⟨hv,hq,he⟩ := hm s hs
  intro t ht
  simp only [Run.points,List.mem_cons,List.mem_append,List.not_mem_nil,or_false] at ht
  rcases ht with rfl | ht | rfl
  · exact hs
  · exact hv t ht
  · cases h : (m s).outcome with
    | ok a => exact hq a h
    | error e => exact (he e h).1

theorem Keeps.final {m : Exec σ ε α} (hm : Keeps I A m) {s : σ} (hs : I s) : I (m.run s).2 :=
  hm.points hs _ (by simp [Run.points,run])

theorem Keeps.allowed {m : Exec σ ε α} (hm : Keeps I A m) {s : σ} (hs : I s) {e : Stop ε}
    (h : (m s).outcome = .error e) : A e :=
  ((hm s hs).2.2 e h).2

end Specs

/-! ## Weakest preconditions -/

/-- From `s` a program returns in `Q`, or it ends early in a way that `E` allows. -/
def Wp (m : Exec σ ε α) (Q : α → σ → Prop) (E : Stop ε → Prop) (s : σ) : Prop :=
  match m.run s with
  | (.ok a,t) => Q a t
  | (.error e,_) => E e

section Wps

variable {Q Q' : α → σ → Prop} {R : β → σ → Prop} {E E' : Stop ε → Prop} {s t : σ}

theorem Wp.ok {m : Exec σ ε α} {a : α} (h : Wp m Q E s) (hr : m.run s = (.ok a,t)) : Q a t := by
  simpa [Wp,hr] using h

theorem Wp.error {m : Exec σ ε α} {e : Stop ε} (h : Wp m Q E s) (hr : m.run s = (.error e,t)) :
    E e := by
  simpa [Wp,hr] using h

theorem Wp.mono {m : Exec σ ε α} (h : Wp m Q E s) (hq : ∀ a t, Q a t → Q' a t)
    (he : ∀ e, E e → E' e) : Wp m Q' E' s := by
  revert h
  unfold Wp
  rcases m.run s with ⟨e | a,t⟩
  · exact he e
  · exact hq a t

/-- What only concerns the outcome carries over to a run with the same outcome. -/
theorem Wp.of_outcome {m : Exec σ ε α} {m' : Exec τ ε α} {Q : α → Prop}
    {E : Stop ε → Prop} {s : σ} {t : τ} (h : Wp m' (fun a _ => Q a) E t)
    (ho : (m.run s).1 = (m'.run t).1) : Wp m (fun a _ => Q a) E s := by
  revert h ho
  unfold Wp
  rcases m.run s with ⟨e | a,s'⟩ <;> rcases m'.run t with ⟨e' | a',t'⟩ <;> rintro h ⟨⟩ <;>
    exact h

theorem wp_of_ok {m : Exec σ ε α} {a : α} (hr : m.run s = (.ok a,t)) (h : Q a t) : Wp m Q E s := by
  simpa [Wp,hr] using h

@[simp] theorem wp_pure {a : α} : Wp (pure a : Exec σ ε α) Q E s ↔ Q a s := Iff.rfl
@[simp] theorem wp_stop {e : Stop ε} : Wp (stop e : Exec σ ε α) Q E s ↔ E e := Iff.rfl
@[simp] theorem wp_throw {e : ε} : Wp (throw e : Exec σ ε α) Q E s ↔ E (.throw e) := Iff.rfl
@[simp] theorem wp_read {f : σ → α} : Wp (read f : Exec σ ε α) Q E s ↔ Q (f s) s := Iff.rfl
@[simp] theorem wp_modify {f : σ → σ} {Q : Unit → σ → Prop} :
    Wp (modify f : Exec σ ε Unit) Q E s ↔ Q () (f s) := Iff.rfl
@[simp] theorem wp_zoom {get : τ → σ} {set : τ → σ → τ} {m : Exec σ ε α} {Q : α → τ → Prop}
    {t : τ} : Wp (zoom get set m) Q E t ↔ Wp m (fun a s => Q a (set t s)) E (get t) := by
  simp only [Wp,run_zoom]
  rcases m.run (get t) with ⟨e | a,s⟩ <;> rfl

@[simp] theorem wp_bind {m : Exec σ ε α} {f : α → Exec σ ε β} :
    Wp (m >>= f) R E s ↔ Wp m (fun a t => Wp (f a) R E t) E s := by
  simp only [Wp,run_bind]
  rcases m.run s with ⟨e | a,t⟩ <;> rfl

/-- A loop whose measure every further round decreases never runs out of fuel. -/
theorem wp_iterate {body : α → Exec σ ε (α ⊕ β)} {J : α → σ → Prop} (μ : σ → ℕ)
    (hb : ∀ a s, J a s →
      Wp (body a) (fun r t => Sum.elim (fun a' => J a' t ∧ μ t < μ s) (fun b => R b t) r) E s)
    (n : ℕ) (a : α) (s : σ) (hs : J a s) (hn : μ s < n) : Wp (iterate body n a) R E s := by
  induction n generalizing a s with
  | zero => exact absurd hn (Nat.not_lt_zero _)
  | succ n ih =>
    rw [iterate,wp_bind]
    refine (hb a s hs).mono ?_ fun _ h => h
    rintro (a' | b) t ht
    · exact ih a' t ht.1 (by have := ht.2; omega)
    · exact ht

theorem wp_loop {fuel : σ → ℕ} {body : α → Exec σ ε (α ⊕ β)} {J : α → σ → Prop} (μ : σ → ℕ)
    (hfuel : ∀ s, μ s < fuel s)
    (hb : ∀ a s, J a s →
      Wp (body a) (fun r t => Sum.elim (fun a' => J a' t ∧ μ t < μ s) (fun b => R b t) r) E s)
    (a : α) (hs : J a s) : Wp (loop fuel body a) R E s :=
  wp_iterate μ hb (fuel s) a s hs (hfuel s)

end Wps

/-! ## Growth -/

/-- A run only goes up in `R`: the state it ends in is above every point of it. -/
def Grows (R : σ → σ → Prop) (m : Exec σ ε α) : Prop :=
  ∀ s, ∀ t ∈ (m s).points s, R t (m s).final

section Growths

variable {R : σ → σ → Prop} (refl : ∀ s, R s s) (trans : ∀ s t u, R s t → R t u → R s u)

include refl

theorem grows_pure (a : α) : Grows R (pure a : Exec σ ε α) := by
  intro s t ht
  obtain rfl : t = s := by simpa [Run.points,pure] using ht
  exact refl t

theorem grows_stop (e : Stop ε) : Grows R (stop e : Exec σ ε α) := by
  intro s t ht
  obtain rfl : t = s := by simpa [Run.points,stop] using ht
  exact refl t

theorem grows_throw (e : ε) : Grows R (throw e : Exec σ ε α) := grows_stop refl _

theorem grows_read (f : σ → α) : Grows R (read f : Exec σ ε α) := by
  intro s t ht
  obtain rfl : t = s := by simpa [Run.points,read] using ht
  exact refl t

theorem grows_step {f : σ → Except (Stop ε) α × σ} (h : ∀ s, R s (f s).2) :
    Grows R (step f) := by
  intro s t ht
  rcases (by simpa [Run.points,step] using ht : t = s ∨ t = (f s).2) with rfl | rfl
  · exact h t
  · exact refl _

theorem grows_modify {f : σ → σ} (h : ∀ s, R s (f s)) : Grows R (modify f : Exec σ ε Unit) :=
  grows_step refl h

omit refl

include trans

theorem Grows.bind {m : Exec σ ε α} {f : α → Exec σ ε β} (hm : Grows R m)
    (hf : ∀ a, Grows R (f a)) : Grows R (m >>= f) := by
  intro s t ht
  cases h : (m s).outcome with
  | error e =>
    have hrun : (m >>= f) s = ⟨(m s).visited,.error e,(m s).final⟩ := by
      simp only [Bind.bind,h]
    rw [hrun] at ht ⊢
    exact hm s t ht
  | ok a =>
    have hrun : (m >>= f) s = ⟨(m s).visited ++ (f a (m s).final).visited,
        (f a (m s).final).outcome,(f a (m s).final).final⟩ := by
      simp only [Bind.bind,h]
    rw [hrun] at ht ⊢
    have hf := hf a (m s).final
    -- the points of the first part are below the state in which the second part starts
    have hmid := hf (m s).final (by simp [Run.points])
    simp only [Run.points,List.mem_cons,List.mem_append,List.append_assoc] at ht
    rcases ht with rfl | ht | ht
    · exact trans _ _ _ (hm t t (by simp [Run.points])) hmid
    · exact trans _ _ _ (hm s t (by simp [Run.points,ht])) hmid
    · exact hf t (by simpa [Run.points] using Or.inr (by simpa using ht))

omit trans

theorem grows_zoom {S : τ → τ → Prop} {get : τ → σ} {set : τ → σ → τ} {m : Exec σ ε α}
    (hm : Grows R m) (hset : ∀ t s s', R s s' → S (set t s) (set t s'))
    (hget : ∀ t, set t (get t) = t) : Grows S (zoom get set m) := by
  intro t u hu
  simp only [Run.points,zoom,List.mem_cons,List.mem_append,List.mem_map,List.not_mem_nil,
    or_false] at hu
  rcases hu with rfl | ⟨s,hs,rfl⟩ | rfl
  · have := hset u _ _ (hm (get u) (get u) (by simp [Run.points]))
    rwa [hget] at this
  · exact hset t _ _ (hm (get t) s (by simp [Run.points,hs]))
  · exact hset t _ _ (hm (get t) _ (by simp [Run.points]))

end Growths

/-! ## Simulations -/

/-- From related states two programs have the same outcome and end in related states. -/
def Sim (R : σ → τ → Prop) (m : Exec σ ε α) (m' : Exec τ ε α) : Prop :=
  ∀ s t, R s t → (m.run s).1 = (m'.run t).1 ∧ R (m.run s).2 (m'.run t).2

section Simulations

variable {R : σ → τ → Prop}

theorem sim_pure (a : α) : Sim R (pure a : Exec σ ε α) (pure a) := fun _ _ h => ⟨rfl,h⟩

theorem sim_stop (e : Stop ε) : Sim R (stop e : Exec σ ε α) (stop e) := fun _ _ h => ⟨rfl,h⟩

theorem sim_throw (e : ε) : Sim R (throw e : Exec σ ε α) (throw e) := sim_stop _

theorem sim_read {f : σ → α} {g : τ → α} (h : ∀ s t, R s t → f s = g t) :
    Sim R (read f : Exec σ ε α) (read g) := fun s t hr => ⟨by simp [h s t hr],hr⟩

theorem Sim.bind {m : Exec σ ε α} {m' : Exec τ ε α} {f : α → Exec σ ε β} {f' : α → Exec τ ε β}
    (hm : Sim R m m') (hf : ∀ a, Sim R (f a) (f' a)) : Sim R (m >>= f) (m' >>= f') := by
  intro s t hr
  obtain ⟨ho,hr'⟩ := hm s t hr
  rw [run_bind,run_bind]
  rcases h : m.run s with ⟨o,s'⟩
  rcases h' : m'.run t with ⟨o',t'⟩
  simp only [h,h'] at ho hr'
  subst ho
  cases o with
  | error e => exact ⟨rfl,hr'⟩
  | ok a => exact hf a s' t' hr'

theorem sim_iterate {body : α → Exec σ ε (α ⊕ β)} {body' : α → Exec τ ε (α ⊕ β)}
    (hb : ∀ a, Sim R (body a) (body' a)) (n : ℕ) (a : α) :
    Sim R (iterate body n a) (iterate body' n a) := by
  induction n generalizing a with
  | zero => exact sim_stop _
  | succ n ih =>
    apply (hb a).bind
    rintro (a' | b)
    · exact ih a'
    · exact sim_pure b

/-- Loops over related states run in step when their bounds agree. -/
theorem sim_loop {fuel : σ → ℕ} {fuel' : τ → ℕ} {body : α → Exec σ ε (α ⊕ β)}
    {body' : α → Exec τ ε (α ⊕ β)} (hfuel : ∀ s t, R s t → fuel s = fuel' t)
    (hb : ∀ a, Sim R (body a) (body' a)) (a : α) :
    Sim R (loop fuel body a) (loop fuel' body' a) := by
  intro s t hr
  simp only [run_loop,hfuel s t hr]
  exact sim_iterate hb _ a s t hr

end Simulations

end Exec
end Gabby
