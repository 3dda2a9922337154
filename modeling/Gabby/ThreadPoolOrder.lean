import Gabby.ThreadPool
import Mathlib.Data.List.Nodup

/-! What holds of the pool in every reachable state: mutual exclusion, the order of the
tasks, and that no wake-up is lost. -/
namespace Gabby

/-! ## Mutual exclusion -/

namespace WorkerPc

/-- The code between taking the mutex and leaving the scope of the guard. -/
def holds : WorkerPc → Bool
  | .test | .pick | .running _ | .crashed => true
  | .lock | .asleep | .woken | .ended => false

end WorkerPc

namespace OfferPc

def holds : OfferPc → Bool
  | .push _ => true
  | .idle | .lock _ | .notify _ => false

def pending : OfferPc → Option Task
  | .lock k | .push k => some k
  | .idle | .notify _ => none

end OfferPc

namespace DtorPc

def holds : DtorPc → Bool
  | .set => true
  | _ => false

def closed : DtorPc → Bool
  | .notify | .join _ | .returned => true
  | _ => false

def notified : DtorPc → Bool
  | .join _ | .returned => true
  | _ => false

theorem closed_of_notified {d : DtorPc} (h : d.notified = true) : d.closed = true := by
  cases d <;> first | rfl | cases h

end DtorPc

namespace ThreadPool

variable {n : ℕ} {π : Type} {s : ThreadPool n π} {a : Action n π}

def holds (s : ThreadPool n π) : Thread n π → Bool
  | .worker i => (s.worker i).holds
  | .producer p => (s.producer p).holds
  | .destructor => s.destructor.holds

/-- A thread is in a critical section exactly when it owns the mutex. -/
def Exclusive (s : ThreadPool n π) : Prop := ∀ t, s.holds t = true ↔ s.mux = some t

theorem Exclusive.worker (h : s.Exclusive) (i : Fin n) :
    (s.worker i).holds = true ↔ s.mux = some (.worker i) := h (.worker i)
theorem Exclusive.producer (h : s.Exclusive) (p : π) :
    (s.producer p).holds = true ↔ s.mux = some (.producer p) := h (.producer p)
theorem Exclusive.destructor (h : s.Exclusive) :
    s.destructor.holds = true ↔ s.mux = some .destructor := h .destructor

theorem Exclusive.same_worker (h : s.Exclusive) {i j : Fin n} (hi : (s.worker i).holds = true)
    (hj : (s.worker j).holds = true) : i = j := by
  have he := ((h.worker i).mp hi).symm.trans ((h.worker j).mp hj)
  cases he
  rfl

theorem exclusive_init : (init n π).Exclusive := by
  intro t
  cases t <;> simp [holds,init,WorkerPc.holds,OfferPc.holds,DtorPc.holds]

variable [DecidableEq π]

theorem Exclusive.next (h : s.Exclusive) (ha : s.Enabled a) : (s.next a).Exclusive := by
  have hw := h.worker
  have hp := h.producer
  have hd := h.destructor
  -- only the thread that acts, or that is notified, moves
  intro t
  cases t <;> cases a <;>
    simp only [holds,ThreadPool.next,Enabled,setWorker,setProducer,release,notifyOne,
      wakeAll] at * <;>
    grind [WorkerPc.holds,OfferPc.holds,DtorPc.holds,Function.update_apply,CanNotify]

/-! ## The queue -/

/-- The invariant of the queue: tasks leave it in the order in which they were pushed, each
call brings a new one, and a worker that is past the wait finds something to do. -/
structure Ordered (s : ThreadPool n π) : Prop where
  exclusive : s.Exclusive
  order : s.started ++ s.tasks = s.offered
  nodup : s.offered.Nodup
  below : ∀ k ∈ s.offered, k < s.calls
  pending : ∀ p k, (s.producer p).pending = some k → k < s.calls ∧ k ∉ s.offered
  apart : ∀ p q k, (s.producer p).pending = some k → (s.producer q).pending = some k → p = q
  ready : ∀ i, s.worker i = .pick → s.done = true ∨ s.tasks ≠ []
  safe : ∀ i, s.worker i ≠ .crashed

omit [DecidableEq π] in
theorem ordered_init : (init n π).Ordered where
  exclusive := exclusive_init
  order := rfl
  nodup := List.nodup_nil
  below _ h := absurd h List.not_mem_nil
  pending _ _ h := nomatch h
  apart _ _ _ h := nomatch h
  ready _ h := nomatch h
  safe _ := nofun

theorem Ordered.order_next (h : s.Ordered) (ha : s.Enabled a) :
    (s.next a).started ++ (s.next a).tasks = (s.next a).offered := by
  cases a with
  | start i k =>
    obtain ⟨ks,hk⟩ := List.head?_eq_some_iff.mp ha.2.2
    simpa [ThreadPool.next,hk] using h.order
  | push p k => simp [ThreadPool.next,← h.order]
  | _ => exact h.order

theorem Ordered.fresh_next (h : s.Ordered) (ha : s.Enabled a) :
    (s.next a).offered.Nodup ∧ ∀ k ∈ (s.next a).offered, k < (s.next a).calls := by
  cases a with
  | offer p => exact ⟨h.nodup,fun k hk => Nat.lt_succ_of_lt (h.below k hk)⟩
  | push p k =>
    have hk := h.pending p k (by rw [show s.producer p = .push k from ha]; rfl)
    refine ⟨List.nodup_append_comm.mp (List.nodup_cons.mpr ⟨hk.2,h.nodup⟩),fun l hl => ?_⟩
    cases List.mem_append.mp hl with
    | inl hl => exact h.below l hl
    | inr hl => exact List.mem_singleton.mp hl ▸ hk.1
  | _ => exact ⟨h.nodup,h.below⟩

/-- A call keeps its number to itself until it has pushed its task. -/
theorem Ordered.pending_next (h : s.Ordered) (ha : s.Enabled a) :
    (∀ p k, ((s.next a).producer p).pending = some k →
      k < (s.next a).calls ∧ k ∉ (s.next a).offered) ∧
    ∀ p q k, ((s.next a).producer p).pending = some k →
      ((s.next a).producer q).pending = some k → p = q := by
  have hp := h.pending
  have hq := h.apart
  have hb := h.below
  cases a with
  | offer p | enter p k | push p k | notify p k w =>
    simp only [ThreadPool.next,Enabled,setProducer,release,notifyOne] at *
    grind [OfferPc.pending,Function.update_apply]
  | _ => exact ⟨hp,hq⟩

theorem Ordered.worker_next (h : s.Ordered) (ha : s.Enabled a) :
    (∀ i, (s.next a).worker i = .pick → (s.next a).done = true ∨ (s.next a).tasks ≠ []) ∧
    ∀ i, (s.next a).worker i ≠ .crashed := by
  have hw := h.exclusive.worker
  have hr := h.ready
  have hc := h.safe
  cases a with
  | push p k => exact ⟨fun _ _ => Or.inr (List.append_ne_nil_of_right_ne_nil _ (by simp)),hc⟩
  | set => exact ⟨fun _ _ => Or.inl rfl,hc⟩
  | offer p | enter p k | destroy | close | join i | leave => exact ⟨hr,hc⟩
  | _ =>
    -- whoever takes a task owns the mutex, so nobody else is past the wait
    simp only [ThreadPool.next,Enabled,setWorker,setProducer,release,notifyOne,wakeAll] at *
    grind [WorkerPc.holds,Function.update_apply,CanNotify]

theorem Ordered.next (h : s.Ordered) (ha : s.Enabled a) : (s.next a).Ordered where
  exclusive := h.exclusive.next ha
  order := h.order_next ha
  nodup := (h.fresh_next ha).1
  below := (h.fresh_next ha).2
  pending := (h.pending_next ha).1
  apart := (h.pending_next ha).2
  ready := (h.worker_next ha).1
  safe := (h.worker_next ha).2

theorem Reachable.ordered (hr : Reachable s) : s.Ordered :=
  hr.invariant ordered_init fun _ _ h ha => h.next ha

def Action.pushed : Action n π → Option Task
  | .push _ k => some k
  | _ => none

/-- The history of the queue is the list of the pushes of the run. -/
theorem offered_eq (s : ThreadPool n π) (as : List (Action n π)) :
    ((system n π).final s as).offered = s.offered ++ as.filterMap Action.pushed := by
  induction as generalizing s with
  | nil => simp [System.final]
  | cons a as ih =>
    have hstep : (s.next a).offered = s.offered ++ a.pushed.toList := by
      cases a <;> simp [ThreadPool.next,Action.pushed]
    have hrun := ih ((system n π).next s a)
    rw [show ((system n π).next s a).offered = _ from hstep] at hrun
    cases hp : a.pushed <;> simpa [hp] using hrun

/-- Tasks are started in the order in which they were pushed, each at most once. -/
theorem started_then_queued (hr : Reachable s) :
    s.started ++ s.tasks = s.offered ∧ s.started.Nodup ∧ (∀ k ∈ s.started, k ∈ s.offered) ∧
    s.started <+: s.offered ∧ ∀ i, s.worker i ≠ .crashed := by
  have h := hr.ordered
  have hp : s.started <+: s.offered := ⟨s.tasks,h.order⟩
  exact ⟨h.order,h.nodup.sublist hp.sublist,fun k hk => hp.subset hk,hp,h.safe⟩

/-- In a run from the beginning they are the first of those that the run pushed. -/
theorem started_prefix_pushed {as : List (Action n π)} (hv : (system n π).Valid (init n π) as) :
    ((system n π).final (init n π) as).started <+: as.filterMap Action.pushed := by
  have h := (Reachable.ordered ⟨as,hv,rfl⟩).order
  rw [offered_eq] at h
  exact ⟨_,h⟩

theorem started_then_queued_run :
    let s := (system 2 Unit).final (init 2 Unit) (twoOffers 0 ())
    s.started ++ s.tasks = s.offered ∧ s.started.Nodup ∧ (∀ k ∈ s.started, k ∈ s.offered) ∧
      s.started <+: s.offered ∧ ∀ i, s.worker i ≠ .crashed :=
  started_then_queued ⟨twoOffers 0 (),twoOffers_valid 0 (),rfl⟩

/-! ## Wake-ups -/

/-- A task in the queue finds a worker that is up, or one that is about to be notified, and
once the destructor has notified all, everyone is up. -/
structure Alert (s : ThreadPool n π) : Prop where
  closing : s.done = s.destructor.closed
  served : s.tasks ≠ [] → s.done = false →
    (∃ i, s.worker i ≠ .asleep) ∨ ∃ p k, s.producer p = .notify k
  up : s.destructor.notified = true → ∀ i, s.worker i ≠ .asleep

omit [DecidableEq π] in
theorem alert_init : (init n π).Alert where
  closing := rfl
  served h := absurd rfl h
  up h := nomatch h

/-- The flag is set exactly past the destructor's critical section. -/
theorem closing_next (hc : s.done = s.destructor.closed) (ha : s.Enabled a) :
    (s.next a).done = (s.next a).destructor.closed := by
  cases a with
  | destroy | close | set | notifyAll | join i | leave =>
    simp only [next,Enabled,release,wakeAll] at *
    grind [DtorPc.closed]
  | _ => exact hc

theorem Alert.served_next (hn : 1 ≤ n) (h : s.Alert) (ha : s.Enabled a)
    (ht : (s.next a).tasks ≠ []) (hd : (s.next a).done = false) :
    (∃ i, (s.next a).worker i ≠ .asleep) ∨ ∃ p k, (s.next a).producer p = .notify k := by
  have hs := h.served
  cases a with
  | sleep i => exact absurd (Or.inr ht) ha.2
  | lock i | pass i | wake i | stop i | start i k | crash i | finish i k =>
    exact Or.inl ⟨i,by simp [ThreadPool.next]⟩
  | push p k => exact Or.inr ⟨p,k,by simp [ThreadPool.next]⟩
  | notify p k w =>
    -- either a sleeper is released, or nobody was asleep
    cases w with
    | none => exact Or.inl ⟨⟨0,hn⟩,by simpa [ThreadPool.next] using ha.2 ⟨0,hn⟩⟩
    | some i => exact Or.inl ⟨i,by simp [ThreadPool.next]⟩
  | offer p | enter p k =>
    -- the producer that acts is not the one about to notify
    rcases hs ht hd with hi | ⟨q,l,hq⟩
    · exact Or.inl hi
    refine Or.inr ⟨q,l,?_⟩
    simp only [ThreadPool.next,Enabled,setProducer] at *
    grind [Function.update_apply]
  | set => cases hd
  | notifyAll => exact Or.inl ⟨⟨0,hn⟩,by simp [ThreadPool.next]; grind⟩
  | destroy | close | join i | leave => exact hs ht hd

theorem Alert.up_next (h : s.Alert) (ha : s.Enabled a)
    (hd : (s.next a).destructor.notified = true) (i : Fin n) : (s.next a).worker i ≠ .asleep := by
  have hu := h.up
  have hc := h.closing
  cases a with
  | sleep j =>
    -- the predicate holds once the destructor has set the flag
    have hdone : s.done = true := hc.trans (DtorPc.closed_of_notified hd)
    exact absurd (Or.inl hdone) ha.2
  | lock j | pass j | wake j | stop j | start j k | crash j | finish j k | notify p k w
  | notifyAll =>
    simp only [ThreadPool.next,setWorker,setProducer,release,notifyOne,wakeAll] at *
    grind [Function.update_apply]
  | offer p | enter p k | push p k => exact hu hd i
  | destroy | close | set | join j | leave =>
    simp only [ThreadPool.next,Enabled,release] at *
    grind [DtorPc.notified]

theorem Alert.next (hn : 1 ≤ n) (h : s.Alert) (ha : s.Enabled a) : (s.next a).Alert where
  closing := closing_next h.closing ha
  served := h.served_next hn ha
  up := h.up_next ha

theorem Reachable.alert (hn : 1 ≤ n) (hr : Reachable s) : s.Alert :=
  hr.invariant alert_init fun _ _ h ha => h.next hn ha

/-- No task is stranded, and no worker sleeps on when the pool shuts down. -/
theorem no_lost_wakeup (hn : 1 ≤ n) (hr : Reachable s) :
    ¬(s.tasks ≠ [] ∧ s.done = false ∧ (∀ i, s.worker i = .asleep) ∧
      ∀ p k, s.producer p ≠ .notify k) ∧
    ¬(s.done = true ∧ s.destructor.notified = true ∧ ∃ i, s.worker i = .asleep) := by
  have h := hr.alert hn
  constructor
  · rintro ⟨ht,hd,hw,hp⟩
    cases h.served ht hd with
    | inl hi => exact hi.elim fun i hi => hi (hw i)
    | inr hk => exact hk.elim fun p hk => hk.elim fun k hk => hp p k hk
  · rintro ⟨_,hd,i,hi⟩
    exact h.up hd i hi

theorem no_lost_wakeup_run :
    let s := (system 2 Unit).final (init 2 Unit) (twoOffers 0 ())
    ¬(s.tasks ≠ [] ∧ s.done = false ∧ (∀ i, s.worker i = .asleep) ∧
      ∀ p k, s.producer p ≠ .notify k) ∧
    ¬(s.done = true ∧ s.destructor.notified = true ∧ ∃ i, s.worker i = .asleep) :=
  no_lost_wakeup (by decide) ⟨twoOffers 0 (),twoOffers_valid 0 (),rfl⟩

end ThreadPool
end Gabby
