import Gabby.ThreadPoolProgress

/-! What the mutex that a worker keeps while it runs a task costs: tasks are run one at a
time, and the destructor can overtake the tasks that wait in the queue. -/
namespace Gabby
namespace ThreadPool

variable {n : ℕ} {π : Type} [DecidableEq π] {s : ThreadPool n π} {a : Action n π}

/-! ## While a task runs -/

/-- Worker `j` can start task `l` before the task of worker `i` ends. -/
def MayStart (s : ThreadPool n π) (i j : Fin n) (l : Task) : Prop :=
  ∃ as, (system n π).Valid s (as ++ [.start j l]) ∧ ∀ m, .finish i m ∉ as

/-- A call of `Offer` made now can return before the task of worker `i` ends. -/
def MayOffer (s : ThreadPool n π) (i : Fin n) (p : π) : Prop :=
  ∃ as, (system n π).Valid s (.offer p::as) ∧ (∀ m, .finish i m ∉ as) ∧
    s.calls ∈ ((system n π).final s (.offer p::as)).returned

/-- A free worker can start the front task while another worker runs a task. -/
def StartsMeanwhile (n : ℕ) (π : Type) [DecidableEq π] : Prop :=
  ∀ s : ThreadPool n π, Reachable s → ∀ i j k l, s.worker i = .running k → s.done = false →
    (∀ m, s.worker j ≠ .running m) → s.tasks.head? = some l → s.MayStart i j l

def OffersMeanwhile (n : ℕ) (π : Type) [DecidableEq π] : Prop :=
  ∀ s : ThreadPool n π, Reachable s → ∀ i k p, s.worker i = .running k → s.producer p = .idle →
    s.MayOffer i p

structure Busy (i : Fin n) (k : Task) (s : ThreadPool n π) : Prop where
  exclusive : s.Exclusive
  running : s.worker i = .running k

namespace Busy

variable {i j : Fin n} {k : Task}

omit [DecidableEq π] in
theorem owns (h : Busy i k s) : s.mux = some (.worker i) :=
  (h.exclusive.worker i).mp (by rw [h.running]; rfl)

omit [DecidableEq π] in
theorem idle_of_holds (h : Busy i k s) {t : Thread n π} (ht : s.holds t = true) :
    t = .worker i :=
  Option.some.inj (((h.exclusive t).mp ht).symm.trans h.owns)

theorem next (h : Busy i k s) (ha : s.Enabled a) (hf : ∀ m, a ≠ .finish i m) :
    Busy i k (s.next a) where
  exclusive := h.exclusive.next ha
  running := by
    have hr := h.running
    cases a <;> simp only [ThreadPool.next,Enabled,setWorker,setProducer,release,notifyOne,
      wakeAll] at * <;> grind [Function.update_apply,CanNotify]

omit [DecidableEq π] in
/-- Nobody else is past the wait. -/
theorem not_start (h : Busy i k s) {l : Task} : ¬s.Enabled (.start j l) := by
  intro ha
  have hj := h.idle_of_holds (t := .worker j) (by rw [holds,ha.1]; rfl)
  cases hj
  cases h.running.symm.trans ha.1

theorem run (h : Busy i k s) {as : List (Action n π)} (hv : (system n π).Valid s as)
    (hf : ∀ m, .finish i m ∉ as) : Busy i k ((system n π).final s as) :=
  System.along_invariant (C := fun _ a => ∀ m, a ≠ .finish i m)
    (fun _ _ h ha hf => h.next ha hf) h hv
    (System.along_of_mem fun _ ha _ m hm => hf m (hm ▸ ha))

theorem lock_run (h : Busy i k s) {p : π} {l : Task} (hp : s.producer p = .lock l)
    {as : List (Action n π)} (hv : (system n π).Valid s as) (hf : ∀ m, .finish i m ∉ as) :
    ((system n π).final s as).producer p = .lock l :=
  (System.along_invariant (C := fun _ a => ∀ m, a ≠ .finish i m)
    (I := fun s => Busy i k s ∧ s.producer p = .lock l)
    (fun _ _ h ha hf =>
      ⟨h.1.next ha hf,lock_next (by simp [h.1.owns]) h.2 ha⟩) ⟨h,hp⟩ hv
    (System.along_of_mem fun _ ha _ m hm => hf m (hm ▸ ha))).2

end Busy

/-! ## The account of the tasks -/

def joined (s : ThreadPool n π) : ℕ :=
  match s.destructor with
  | .join i => i
  | .returned => n
  | _ => 0

/-- Where the tasks are: a started task is finished or runs, and a call that has returned has
pushed its task. -/
structure Accounted (s : ThreadPool n π) : Prop where
  ordered : s.Ordered
  closing : s.done = s.destructor.closed
  busy : ∀ i k, s.worker i = .running k → s.started = s.finished ++ [k]
  free : (∀ i k, s.worker i ≠ .running k) → s.started = s.finished
  notifying : ∀ p k, s.producer p = .notify k → k ∈ s.offered
  returned : ∀ k ∈ s.returned, k ∈ s.offered
  early : ∀ k ∈ s.early, k ∈ s.offered
  ended : ∀ i : Fin n, i < s.joined → s.worker i = .ended

omit [DecidableEq π] in
theorem accounted_init : (init n π).Accounted where
  ordered := ordered_init
  closing := rfl
  busy _ _ h := nomatch h
  free _ := rfl
  notifying _ _ h := nomatch h
  returned _ h := absurd h List.not_mem_nil
  early _ h := absurd h List.not_mem_nil
  ended _ h := absurd h (Nat.not_lt_zero _)

theorem running_next (ha : s.Enabled a) (hs : ∀ i k, a ≠ .start i k) (hf : ∀ i k, a ≠ .finish i k)
    (j : Fin n) (l : Task) : (s.next a).worker j = .running l ↔ s.worker j = .running l := by
  cases a with
  | start i k => exact absurd rfl (hs i k)
  | finish i k => exact absurd rfl (hf i k)
  | offer p | enter p k | push p k | destroy | close | set | join i | leave => exact Iff.rfl
  | _ =>
    simp only [next,Enabled,setWorker,setProducer,release,notifyOne,wakeAll] at *
    grind [Function.update_apply,CanNotify]

namespace Accounted

/-- At most one worker runs a task, and it owns the mutex. -/
theorem work_next (h : s.Accounted) (ha : s.Enabled a) :
    (∀ i k, (s.next a).worker i = .running k → (s.next a).started = (s.next a).finished ++ [k]) ∧
    ((∀ i k, (s.next a).worker i ≠ .running k) → (s.next a).started = (s.next a).finished) := by
  have hx := h.ordered.exclusive
  cases a with
  | start i k =>
    -- nobody else is running, so everything started so far is finished
    have hnone : ∀ j l, s.worker j ≠ .running l := by
      intro j l hj
      have hij := hx.same_worker (i := i) (j := j) (by rw [ha.1]; rfl) (by rw [hj]; rfl)
      cases (hij ▸ ha.1).symm.trans hj
    refine ⟨fun j l hj => ?_,fun hall => absurd (by simp [next]) (hall i k)⟩
    have hs := h.free hnone
    simp only [next,setWorker] at *
    grind [Function.update_apply]
  | finish i k =>
    have hs := h.busy i k ha
    refine ⟨fun j l hj => ?_,fun _ => hs⟩
    have hij := hx.same_worker (i := i) (j := j)
    simp only [next,Enabled,setWorker,release] at *
    grind [Function.update_apply,WorkerPc.holds]
  | _ =>
    have hr := running_next ha (by simp) (by simp)
    exact ⟨fun i k hi => h.busy i k ((hr i k).mp hi),
      fun hall => h.free fun i k hi => hall i k ((hr i k).mpr hi)⟩

theorem calls_next (h : s.Accounted) (ha : s.Enabled a) :
    (∀ p k, (s.next a).producer p = .notify k → k ∈ (s.next a).offered) ∧
    (∀ k ∈ (s.next a).returned, k ∈ (s.next a).offered) ∧
    ∀ k ∈ (s.next a).early, k ∈ (s.next a).offered := by
  have hn := h.notifying
  have hr := h.returned
  have he := h.early
  cases a with
  | offer p | enter p k | push p k | notify p k w =>
    simp only [next,Enabled,setProducer,release,notifyOne] at *
    grind [Function.update_apply]
  | destroy => exact ⟨hn,hr,hr⟩
  | _ => exact ⟨hn,hr,he⟩

theorem ended_next (h : s.Accounted) (ha : s.Enabled a) (i : Fin n) (hi : i < (s.next a).joined) :
    (s.next a).worker i = .ended := by
  have he := h.ended i
  cases a with
  | destroy | close | set | notifyAll | join j | leave =>
    simp only [next,Enabled,joined,release,wakeAll] at *
    grind
  | offer p | enter p k | push p k => exact he hi
  | _ =>
    have hi' := he hi
    simp only [next,Enabled,setWorker,setProducer,release,notifyOne] at *
    grind [Function.update_apply,CanNotify]

theorem next (h : s.Accounted) (ha : s.Enabled a) : (s.next a).Accounted where
  ordered := h.ordered.next ha
  closing := closing_next h.closing ha
  busy := (h.work_next ha).1
  free := (h.work_next ha).2
  notifying := (h.calls_next ha).1
  returned := (h.calls_next ha).2.1
  early := (h.calls_next ha).2.2
  ended := h.ended_next ha

end Accounted

theorem Reachable.accounted (hr : Reachable s) : s.Accounted :=
  hr.invariant accounted_init fun _ _ h ha => h.next ha

/-! ## Tasks are run one at a time -/

section Serial

variable {i : Fin n} {k : Task}

theorem Reachable.busy (hr : Reachable s) (hi : s.worker i = .running k) : Busy i k s :=
  ⟨hr.ordered.exclusive,hi⟩

theorem not_mayStart (hr : Reachable s) (hi : s.worker i = .running k) (j : Fin n) (l : Task) :
    ¬s.MayStart i j l := by
  rintro ⟨as,hv,hf⟩
  obtain ⟨hv,hs,_⟩ := System.valid_append.mp hv
  exact ((hr.busy hi).run hv hf).not_start hs

/-- The call waits for the mutex, so it has not pushed its task when it should have returned. -/
theorem not_mayOffer (hr : Reachable s) (hi : s.worker i = .running k) (p : π) :
    ¬s.MayOffer i p := by
  rintro ⟨as,hv,hf,hc⟩
  have hb : Busy i k (s.next (.offer p)) := (hr.busy hi).next hv.1 fun _ => nofun
  have hl := hb.lock_run (p := p) (l := s.calls) (by simp [next]) hv.2 hf
  have ht : Reachable ((system n π).final s (.offer p::as)) := hr.trans ⟨_,hv,rfl⟩
  exact (ht.ordered.pending p s.calls (congrArg OfferPc.pending hl)).2 (ht.accounted.returned _ hc)

theorem not_startsMeanwhile (hn : 2 ≤ n) (p : π) : ¬StartsMeanwhile n π := by
  intro h
  let i : Fin n := ⟨0,Nat.lt_of_lt_of_le Nat.two_pos hn⟩
  let j : Fin n := ⟨1,hn⟩
  have hr := reachable_oneQueued i p
  have hi : (oneQueued i : ThreadPool n π).worker i = .running 0 := by simp [oneQueued]
  have hj : ∀ m, (oneQueued i : ThreadPool n π).worker j ≠ .running m := by
    simp [oneQueued,i,j]
  exact not_mayStart hr hi j 1 (h _ hr i j 0 1 hi rfl hj rfl)

theorem not_offersMeanwhile (hn : 1 ≤ n) (p : π) : ¬OffersMeanwhile n π := by
  intro h
  let i : Fin n := ⟨0,hn⟩
  have hr := reachable_oneQueued i p
  have hi : (oneQueued i : ThreadPool n π).worker i = .running 0 := by simp [oneQueued]
  exact not_mayOffer hr hi p (h _ hr i 0 p hi rfl)

/-- A worker keeps the mutex while it runs a task: in no state can another task be started, or
a call of `Offer` be served, before that task ends. -/
theorem tasks_serial (hn : 2 ≤ n) (p : π) :
    (¬StartsMeanwhile n π ∧ ¬OffersMeanwhile n π) ∧
    ∀ s : ThreadPool n π, Reachable s → ∀ i k, s.worker i = .running k →
      (∀ j l, ¬s.MayStart i j l) ∧ ∀ q, ¬s.MayOffer i q :=
  ⟨⟨not_startsMeanwhile hn p,not_offersMeanwhile (by omega) p⟩,
    fun _ hr _ _ hi => ⟨not_mayStart hr hi,not_mayOffer hr hi⟩⟩

theorem tasks_serial_two :
    (¬StartsMeanwhile 2 Unit ∧ ¬OffersMeanwhile 2 Unit) ∧
    ∀ s : ThreadPool 2 Unit, Reachable s → ∀ i k, s.worker i = .running k →
      (∀ j l, ¬s.MayStart i j l) ∧ ∀ q, ¬s.MayOffer i q :=
  tasks_serial le_rfl ()

/-- Worker 1 cannot start task 1, nor the listener offer a third, while worker 0 runs task 0. -/
theorem not_concurrent :
    ¬∀ n, 2 ≤ n → StartsMeanwhile n Unit ∧ OffersMeanwhile n Unit :=
  fun h => not_startsMeanwhile le_rfl () (h 2 le_rfl).1

end Serial

/-! ## Shutting down -/

/-- No task whose `Offer` had returned when the destructor began is in the queue. -/
def Drained (s : ThreadPool n π) : Prop := ∀ k ∈ s.early, k ∉ s.tasks

def ClosesDrained (s : ThreadPool n π) (a : Action n π) : Prop := a = .set → s.Drained

/-- Every task whose `Offer` had returned when the destructor began has been executed once. -/
def AllHandled (s : ThreadPool n π) : Prop := ∀ k ∈ s.early, s.finished.count k = 1

/-- No worker takes a task once the flag is set. -/
theorem drained_next (h : s.Accounted) (ha : s.Enabled a) :
    ((s.next a).done = true → (s.next a).Drained) ↔
      (s.done = true → s.Drained) ∧ s.ClosesDrained a := by
  have hc := h.closing
  cases a with
  | start i k => simp [next,ClosesDrained,ha.2.1]
  | push p k =>
    have hk := (h.ordered.pending p k (by rw [show s.producer p = .push k from ha]; rfl)).2
    have he := h.early
    simp only [next,setProducer,release,ClosesDrained,Drained]
    grind
  | set =>
    constructor
    · exact fun hs => ⟨fun _ => hs rfl,fun _ => hs rfl⟩
    · exact fun hs _ => hs.2 rfl
  | destroy =>
    have hd : s.done = false := by rw [hc,show s.destructor = .idle from ha]; rfl
    simp [next,ClosesDrained,hd]
  | _ => simp [next,ClosesDrained,Drained,setWorker,setProducer,release,notifyOne,wakeAll]

omit [DecidableEq π] in
/-- When the destructor has returned, every worker has ended, so what was started is finished. -/
theorem allHandled_iff (h : s.Accounted) (hd : s.destructor = .returned) :
    s.AllHandled ↔ s.Drained := by
  have hend : ∀ i, s.worker i = .ended := fun i => h.ended i (by rw [joined,hd]; exact i.isLt)
  have hs : s.started = s.finished := h.free fun i k hk => nomatch (hend i).symm.trans hk
  have ho : s.finished ++ s.tasks = s.offered := hs ▸ h.ordered.order
  have hn : (s.finished ++ s.tasks).Nodup := ho ▸ h.ordered.nodup
  refine forall₂_congr fun k hk => ?_
  have hmem : k ∈ s.finished ++ s.tasks := ho ▸ h.early k hk
  rw [List.nodup_append] at hn
  constructor
  · intro hcount ht
    exact hn.2.2 k (List.count_pos_iff.mp (by omega)) k ht rfl
  · intro ht
    exact List.count_eq_one_of_mem hn.1 ((List.mem_append.mp hmem).resolve_right ht)

theorem run_drained {as : List (Action n π)} (hv : (system n π).Valid (init n π) as) :
    (((system n π).final (init n π) as).done = true →
        ((system n π).final (init n π) as).Drained) ↔
      (system n π).Along ClosesDrained (init n π) as := by
  have h := System.final_iff_along (M := system n π) (C := ClosesDrained)
    (J := fun s => s.done = true → s.Drained) (fun _ _ h ha => Accounted.next h ha)
    (fun _ _ h ha => drained_next h ha) accounted_init hv
  rw [h]
  exact and_iff_right fun hd => nomatch hd

/-- The pool shuts down gracefully exactly when the destructor finds its queue drained. -/
theorem graceful_iff {as : List (Action n π)} (hv : (system n π).Valid (init n π) as)
    (hd : ((system n π).final (init n π) as).destructor = .returned) :
    ((system n π).final (init n π) as).AllHandled ↔
      (system n π).Along ClosesDrained (init n π) as := by
  have hr : Reachable ((system n π).final (init n π) as) := ⟨as,hv,rfl⟩
  have hdone : ((system n π).final (init n π) as).done = true := by
    rw [hr.accounted.closing,hd]
    rfl
  rw [allHandled_iff hr.accounted hd,← run_drained hv]
  exact ⟨fun h _ => h,fun h => h hdone⟩

/-- The only worker runs task 0; the destructor begins, and takes the mutex before the worker
does when that task ends. -/
def droppingRun : List (Action 1 Unit) :=
  twoOffers 0 () ++ [.destroy,.finish 0 0,.close,.set,.notifyAll,.lock 0,.pass 0,.stop 0,
    .join 0,.leave]

theorem graceful_iff_dropping :
    ((system 1 Unit).final (init 1 Unit) droppingRun).AllHandled ↔
      (system 1 Unit).Along ClosesDrained (init 1 Unit) droppingRun :=
  graceful_iff (by decide) (by decide)

/-- Task 1 was offered before the shutdown and is never run. -/
theorem not_graceful :
    ¬∀ (n : ℕ) (as : List (Action n Unit)), (system n Unit).Valid (init n Unit) as →
      ((system n Unit).final (init n Unit) as).destructor = .returned →
      ((system n Unit).final (init n Unit) as).AllHandled := by
  intro h
  have hcount := h 1 droppingRun (by decide) (by decide) 1 (by decide)
  exact absurd hcount (by decide)

end ThreadPool
end Gabby
