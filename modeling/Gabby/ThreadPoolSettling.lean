import Gabby.ThreadPoolProgress
import Gabby.ThreadPoolShutdown
import Mathlib.Algebra.BigOperators.Fin
import Mathlib.Algebra.Order.BigOperators.Group.Finset

/-! The pool comes to rest: without new calls every schedule ends, and it ends with an empty
queue, or with the destructor returned. -/
namespace Gabby

/-! ## The measure -/

namespace WorkerPc

/-- The steps that a worker can still take on its own without a task. -/
def work : WorkerPc → ℕ
  | .asleep | .ended | .crashed => 0
  | .pick => 1
  | .test => 2
  | .lock | .woken => 3
  | .running _ => 4

end WorkerPc

namespace OfferPc

/-- A call leaves a task and a worker that is up. -/
def work : OfferPc → ℕ
  | .idle => 0
  | .notify _ => 4
  | .push _ => 9
  | .lock _ => 10

end OfferPc

/-- `notify_all` leaves `n` workers up. -/
def DtorPc.work (n : ℕ) : DtorPc → ℕ
  | .idle | .returned => 0
  | .join i => n - i + 1
  | .notify => 4 * n + 2
  | .set => 4 * n + 3
  | .lock => 4 * n + 4

namespace ThreadPool

variable {n : ℕ} {π : Type} [DecidableEq π] [Fintype π] {s : ThreadPool n π} {a : Action n π}

omit [DecidableEq π] in
def work (s : ThreadPool n π) : ℕ :=
  ∑ i, (s.worker i).work + ∑ p, (s.producer p).work + 4 * s.tasks.length + s.destructor.work n

/-- A step that is neither the beginning of a call nor a spurious wake-up. -/
def Action.Settles : Action n π → Prop
  | .offer _ | .destroy | .wake _ => False
  | _ => True

omit [DecidableEq π] [Fintype π] in
theorem Action.OfOwner.settles {i : Fin n} (h : a.OfOwner i) : a.Settles := by
  cases a <;> trivial

omit [DecidableEq π] [Fintype π] in
theorem Action.OfCall.settles {p : π} (h : a.OfCall p) : a.Settles := by
  cases a <;> trivial

theorem sum_update_add {ι κ : Type} [Fintype ι] [DecidableEq ι] (f : ι → κ) (w : κ → ℕ) (i : ι)
    (x : κ) : ∑ j, w (Function.update f i x j) + w (f i) = ∑ j, w (f j) + w x := by
  rw [← Finset.add_sum_erase _ _ (Finset.mem_univ i),
    ← Finset.add_sum_erase _ (fun j => w (f j)) (Finset.mem_univ i),Function.update_self]
  have hrest : ∑ j ∈ Finset.univ.erase i, w (Function.update f i x j) =
      ∑ j ∈ Finset.univ.erase i, w (f j) :=
    Finset.sum_congr rfl fun j hj => by rw [Function.update_of_ne (Finset.ne_of_mem_erase hj)]
  rw [hrest]
  omega

omit [DecidableEq π] [Fintype π] in
theorem sum_notifyOne {w : Option (Fin n)} (hw : s.CanNotify w) :
    ∑ i, ((s.notifyOne w).worker i).work ≤ ∑ i, (s.worker i).work + 3 := by
  cases w with
  | none => simp [notifyOne]
  | some i =>
    have hupdate : (s.notifyOne (some i)).worker = Function.update s.worker i .woken := by
      funext j
      simp only [notifyOne,Option.some.injEq,Function.update_apply,eq_comm]
    have hsum := sum_update_add s.worker WorkerPc.work i .woken
    rw [hupdate]
    simp only [WorkerPc.work] at hsum ⊢
    omega

omit [DecidableEq π] [Fintype π] in
theorem sum_wakeAll : ∑ i, (s.wakeAll.worker i).work ≤ ∑ i, (s.worker i).work + 3 * n := by
  have hle : ∀ i : Fin n, (s.wakeAll.worker i).work ≤ (s.worker i).work + 3 := fun i => by
    simp only [wakeAll]
    split
    · exact Nat.le_add_left _ _
    · exact Nat.le_add_right _ _
  calc ∑ i, (s.wakeAll.worker i).work ≤ ∑ i, ((s.worker i).work + 3) :=
        Finset.sum_le_sum fun i _ => hle i
    _ = ∑ i, (s.worker i).work + 3 * n := by
      rw [Finset.sum_add_distrib,Finset.sum_const,Finset.card_univ,Fintype.card_fin,smul_eq_mul,
        Nat.mul_comm]

omit [DecidableEq π] [Fintype π] in
theorem sum_setWorker {i : Fin n} {pc : WorkerPc} (hi : s.worker i = pc) (pc' : WorkerPc) :
    ∑ j, (Function.update s.worker i pc' j).work + pc.work = ∑ j, (s.worker j).work + pc'.work :=
  hi ▸ sum_update_add s.worker WorkerPc.work i pc'

theorem sum_setProducer {p : π} {pc : OfferPc} (hp : s.producer p = pc) (pc' : OfferPc) :
    ∑ q, (Function.update s.producer p pc' q).work + pc.work =
      ∑ q, (s.producer q).work + pc'.work :=
  hp ▸ sum_update_add s.producer OfferPc.work p pc'

theorem work_next_lt (ha : s.Enabled a) (hs : a.Settles) : (s.next a).work < s.work := by
  cases a with
  | offer p | destroy | wake i => exact hs.elim
  | lock i =>
    rcases ha.1 with hi | hi <;> have hsum := sum_setWorker hi .test <;>
      simp only [work,next,setWorker,WorkerPc.work] at hsum ⊢ <;> omega
  | sleep i =>
    have hsum := sum_setWorker ha.1 .asleep
    simp only [work,next,setWorker,release,WorkerPc.work] at hsum ⊢
    omega
  | pass i =>
    have hsum := sum_setWorker ha.1 .pick
    simp only [work,next,setWorker,WorkerPc.work] at hsum ⊢
    omega
  | stop i =>
    have hsum := sum_setWorker ha.1 .ended
    simp only [work,next,setWorker,release,WorkerPc.work] at hsum ⊢
    omega
  | start i k =>
    -- the task that leaves the queue pays for the way back to the mutex
    have hsum := sum_setWorker ha.1 (.running k)
    obtain ⟨ks,hk⟩ := List.head?_eq_some_iff.mp ha.2.2
    simp only [work,next,setWorker,WorkerPc.work,hk,List.tail_cons,List.length_cons] at hsum ⊢
    omega
  | crash i =>
    have hsum := sum_setWorker ha.1 .crashed
    simp only [work,next,setWorker,WorkerPc.work] at hsum ⊢
    omega
  | finish i k =>
    have hsum := sum_setWorker (show s.worker i = .running k from ha) .lock
    simp only [work,next,setWorker,release,WorkerPc.work] at hsum ⊢
    omega
  | enter p k =>
    have hsum := sum_setProducer ha.1 (.push k)
    simp only [work,next,setProducer,OfferPc.work] at hsum ⊢
    omega
  | push p k =>
    have hsum := sum_setProducer (show s.producer p = .push k from ha) (.notify k)
    simp only [work,next,setProducer,release,OfferPc.work,List.length_append,
      List.length_singleton] at hsum ⊢
    omega
  | notify p k w =>
    have hsum := sum_setProducer ha.1 .idle
    have hworkers := sum_notifyOne ha.2
    simp only [work,next,setProducer,OfferPc.work] at hsum ⊢
    simp only [notifyOne] at hworkers ⊢
    omega
  | close =>
    have hd : s.destructor = .lock := ha.1
    simp only [work,next,hd,DtorPc.work]
    omega
  | set =>
    have hd : s.destructor = .set := ha
    simp only [work,next,release,hd,DtorPc.work]
    omega
  | notifyAll =>
    have hd : s.destructor = .notify := ha
    have hworkers := sum_wakeAll (s:=s)
    simp only [work,next,wakeAll,hd,DtorPc.work] at hworkers ⊢
    omega
  | join i =>
    have hd : s.destructor = .join i := ha.1
    have hi := i.isLt
    simp only [work,next,hd,DtorPc.work]
    omega
  | leave =>
    have hd : s.destructor = .join n := ha
    simp only [work,next,hd,DtorPc.work]
    omega

/-! ## Where the pool comes to rest -/

/-- The destructor joins no more than the threads, and threads end only once it has begun. -/
structure Closing (s : ThreadPool n π) : Prop where
  joins : ∀ i, s.destructor = .join i → i ≤ n
  ended : ∀ i, s.worker i = .ended → s.done = true

omit [DecidableEq π] [Fintype π] in
theorem closing_init : (init n π).Closing := ⟨nofun,nofun⟩

omit [Fintype π] in
theorem Closing.joins_next (h : s.Closing) (ha : s.Enabled a) (i : ℕ)
    (hd : (s.next a).destructor = .join i) : i ≤ n := by
  cases a with
  | notifyAll =>
    obtain rfl : 0 = i := DtorPc.join.inj hd
    exact Nat.zero_le n
  | join j =>
    obtain rfl : (j : ℕ) + 1 = i := DtorPc.join.inj hd
    exact j.isLt
  | destroy | close | set | leave => cases hd
  | _ => exact h.joins i hd

omit [Fintype π] in
theorem Closing.ended_next (h : s.Closing) (ha : s.Enabled a) (i : Fin n)
    (hi : (s.next a).worker i = .ended) : (s.next a).done = true := by
  have he := h.ended i
  cases a with
  | stop j =>
    exact ha.2
  | set => rfl
  | offer p | enter p k | push p k | destroy | close | join j | leave => exact he hi
  | _ =>
    refine he ?_
    simp only [next,Enabled,setWorker,setProducer,release,notifyOne,wakeAll] at *
    grind [Function.update_apply]

omit [Fintype π] in
theorem Reachable.closing (hr : Reachable s) : s.Closing :=
  hr.invariant closing_init fun _ _ h ha => ⟨h.joins_next ha,h.ended_next ha⟩

/-- Nothing is left to do: all tasks have been run and everyone waits for more, or the
destructor has returned. -/
inductive Settled (s : ThreadPool n π) : Prop
  | idle (hd : s.destructor = .idle) (htasks : s.tasks = []) (hrun : s.finished = s.offered)
      (hworkers : ∀ i, s.worker i = .asleep) (hcalls : ∀ p, s.producer p = .idle)
  | returned (hd : s.destructor = .returned) (hworkers : ∀ i, s.worker i = .ended)
      (hcalls : ∀ p, s.producer p = .idle)

section Halted

variable (hr : Reachable s) (hstop : ∀ a : Action n π, a.Settles → ¬s.Enabled a)
include hr hstop

omit [Fintype π]

/-- Whoever owns the mutex can go on. -/
theorem unlocked_of_halted : s.mux = none := by
  have hx := hr.ordered.exclusive
  cases hm : s.mux with
  | none => rfl
  | some t =>
    have hh := (hx t).mpr hm
    exfalso
    cases t with
    | worker i =>
      obtain ⟨as,hv,ho,hfree,-⟩ := hr.ordered.mayRelease hm
      obtain rfl := System.eq_nil_of_halted hstop hv fun a ha => (ho a ha).settles
      cases hm.symm.trans hfree
    | producer p =>
      cases hp : s.producer p with
      | push k => exact hstop (.push p k) trivial hp
      | idle | lock k | notify k => simp [holds,hp,OfferPc.holds] at hh
    | destructor =>
      cases hd : s.destructor with
      | set => exact hstop .set trivial hd
      | idle | lock | notify | join i | returned => simp [holds,hd,DtorPc.holds] at hh

theorem idle_of_halted (p : π) : s.producer p = .idle := by
  obtain ⟨as,hv,ho,hidle⟩ := mayReturn (p:=p) (.inl (unlocked_of_halted hr hstop))
  obtain rfl := System.eq_nil_of_halted hstop hv fun a ha => (ho a ha).settles
  exact hidle

theorem ended_of_halted {i : Fin n} (hi : s.worker i ≠ .asleep) : s.worker i = .ended := by
  have hm := unlocked_of_halted hr hstop
  have hfree : (s.worker i).holds = false := by
    have := (hr.ordered.exclusive.worker i).not.mpr (by simp [hm])
    simpa using this
  cases hw : s.worker i with
  | ended => rfl
  | asleep => exact absurd hw hi
  | lock => exact absurd ⟨.inl hw,hm⟩ (hstop (.lock i) trivial)
  | woken => exact absurd ⟨.inr hw,hm⟩ (hstop (.lock i) trivial)
  | test | pick | running k | crashed => simp [hw,WorkerPc.holds] at hfree

theorem returned_of_halted (hn : 1 ≤ n) (hd : s.destructor ≠ .idle) :
    s.destructor = .returned := by
  have hm := unlocked_of_halted hr hstop
  cases hdt : s.destructor with
  | idle => exact absurd hdt hd
  | lock => exact absurd ⟨hdt,hm⟩ (hstop .close trivial)
  | set => exact absurd hdt (hstop .set trivial)
  | notify => exact absurd hdt (hstop .notifyAll trivial)
  | returned => rfl
  | join i =>
    rcases Nat.lt_or_eq_of_le (hr.closing.joins i hdt) with hi | rfl
    · have hup := (hr.alert hn).up (by rw [hdt]; rfl) ⟨i,hi⟩
      exact absurd ⟨hdt,ended_of_halted hr hstop hup⟩ (hstop (.join ⟨i,hi⟩) trivial)
    · exact absurd hdt (hstop .leave trivial)

theorem settled_of_halted (hn : 1 ≤ n) : s.Settled := by
  have hcalls := idle_of_halted hr hstop
  have hclosing := (hr.alert hn).closing
  by_cases hd : s.destructor = .idle
  · have hdone : s.done = false := by rw [hclosing,hd]; rfl
    have hasleep : ∀ i, s.worker i = .asleep := fun i => by
      by_contra hi
      have hended := hr.closing.ended i (ended_of_halted hr hstop hi)
      rw [hdone] at hended
      cases hended
    have htasks : s.tasks = [] := by
      by_contra ht
      rcases (hr.alert hn).served ht hdone with ⟨i,hi⟩ | ⟨p,k,hp⟩
      · exact hi (hasleep i)
      · cases (hcalls p).symm.trans hp
    have hstarted := hr.accounted.free fun i k hi => nomatch (hasleep i).symm.trans hi
    have horder := hr.ordered.order
    rw [htasks,List.append_nil] at horder
    exact .idle hd htasks (hstarted.symm.trans horder) hasleep hcalls
  · have hret := returned_of_halted hr hstop hn hd
    refine .returned hret (fun i => hr.accounted.ended i ?_) hcalls
    rw [joined,hret]
    exact i.isLt

end Halted

omit [DecidableEq π] [Fintype π] in
/-- A pool that waits for calls is at rest. -/
theorem halted_of_idle (hd : s.destructor = .idle) (hworkers : ∀ i, s.worker i = .asleep)
    (hcalls : ∀ p, s.producer p = .idle) (a : Action n π) (ha : a.Settles) : ¬s.Enabled a := by
  cases a <;> simp [Action.Settles,Enabled,hd,hworkers,hcalls] at ha ⊢

/-- Without new calls and spurious wake-ups every schedule comes to an end, and where it cannot
go on the pool has settled; so it can settle from everywhere. -/
theorem pool_settles (hn : 1 ≤ n) (hr : Reachable s) :
    (∀ as, (system n π).Valid s as → (∀ a ∈ as, a.Settles) → as.length ≤ s.work ∧
      ((∀ a : Action n π, a.Settles → ¬((system n π).final s as).Enabled a) →
        ((system n π).final s as).Settled)) ∧
    ∃ as, (system n π).Valid s as ∧ (∀ a ∈ as, a.Settles) ∧ ((system n π).final s as).Settled := by
  have hreach : ∀ (s : ThreadPool n π) a, Reachable s → (system n π).enabled s a →
      Reachable ((system n π).next s a) := fun _ _ h ha => h.step ha
  have hwork : ∀ (s : ThreadPool n π) a, Reachable s → (system n π).enabled s a → a.Settles →
      ((system n π).next s a).work < s.work := fun _ _ _ ha hs => work_next_lt ha hs
  constructor
  · intro as hv hs
    refine ⟨?_,fun hstop => settled_of_halted (hr.trans ⟨as,hv,rfl⟩) hstop hn⟩
    exact Nat.le_of_add_right_le (System.length_add_le_measure hreach hwork hr hv hs)
  · obtain ⟨as,hv,hs,hstop⟩ := System.exists_halted hreach hwork hr
    exact ⟨as,hv,hs,settled_of_halted (hr.trans ⟨as,hv,rfl⟩) hstop hn⟩

/-- One task runs and one is in the queue. -/
theorem pool_settles_oneQueued : ∃ as, (system 2 Unit).Valid (oneQueued 0) as ∧
    (∀ a ∈ as, a.Settles) ∧ ((system 2 Unit).final (oneQueued 0) as).Settled :=
  (pool_settles (by decide) (reachable_oneQueued 0 ())).2

end ThreadPool
end Gabby
