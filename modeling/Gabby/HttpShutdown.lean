import Gabby.HttpStartup
import Gabby.ThreadPoolShutdown

/-! Shutting the server down: `Stop` waits for the listener to end its loop, and the listener
may have to wait for the pool. -/
namespace Gabby.Http
namespace HttpServer

variable {num : ℤ} {s : HttpServer num} {a : Action num} {calls : List Call}

/-! ## The pool -/

/-- The pool is created before `pool_` points to it and destroyed after, the listener is its
only producer, and it is in a state that its own threads can reach. -/
structure Pooled (s : HttpServer num) : Prop where
  coherent : s.Coherent
  early : s.main.early = true → s.assigned = false
  unbuilt : s.main = .start ∨ s.main = .spawn ∨ s.main = .construct → s.pool = none
  pointed : s.assigned = true ∨ s.main = .assign → s.pool ≠ none
  attached : s.assigned = true ∨ s.main = .construct ∨ s.main = .assign →
    s.joinable = true ∨ s.main = .reset
  linked : s.pool ≠ none → s.assigned = true ∨ s.main = .assign ∨ s.main = .reap
  calling : s.listener = .offering → s.assigned = true
  producing : ∀ p, s.pool = some p → s.listener ≠ .offering → p.producer () = .idle
  living : ∀ p, s.pool = some p → s.main ≠ .reap → p.destructor = .idle
  reached : ∀ p, s.pool = some p → ThreadPool.Reachable p

theorem pooled_init : (init num calls).Pooled where
  coherent := coherent_init
  early _ := rfl
  unbuilt _ := rfl
  pointed h := by simp [init] at h
  attached h := by simp [init] at h
  linked h := absurd rfl h
  calling h := nomatch h
  producing _ h := nomatch h
  living _ h := nomatch h
  reached _ h := nomatch h

namespace Pooled

theorem pointer_next (h : s.Pooled) (ha : s.Enabled a) :
    ((s.next a).main.early = true → (s.next a).assigned = false) ∧
    ((s.next a).main = .start ∨ (s.next a).main = .spawn ∨ (s.next a).main = .construct →
      (s.next a).pool = none) ∧
    ((s.next a).assigned = true ∨ (s.next a).main = .assign → (s.next a).pool ≠ none) ∧
    ((s.next a).assigned = true ∨ (s.next a).main = .construct ∨ (s.next a).main = .assign →
      (s.next a).joinable = true ∨ (s.next a).main = .reset) := by
  obtain ⟨hc,he,hu,hp,ht,-,-,-,-,-⟩ := h
  have hun := hc.unborn
  have hre := hc.reaping
  cases a with
  | stop | destroy | bind | ready | test | poll | accept | offered | leave | fail | signal g
  | stopStore g | stopWrite g | stopWait g | connect => exact ⟨he,hu,hp,ht⟩
  | _ =>
    simp only [HttpServer.next,Enabled,Ready,notifyOne,onPool,makePool,offerClient,dropMembers] at *
    grind [MainPc.early,CanNotify,Option.map_eq_none_iff]

theorem linked_next (h : s.Pooled) (ha : s.Enabled a) (hp : (s.next a).pool ≠ none) :
    (s.next a).assigned = true ∨ (s.next a).main = .assign ∨ (s.next a).main = .reap := by
  have hk := h.linked
  cases a with
  | construct =>
    have hmake : (ThreadPool.make num Unit).isSome := Option.isSome_iff_ne_none.mpr hp
    exact Or.inr (Or.inl (if_pos hmake))
  | assign => exact Or.inl rfl
  | reset => exact Or.inr (Or.inr rfl)
  | reaped => exact absurd rfl hp
  | storeRun | spawn | await | wait | join | members | readyNotify c | leaveNotify c | offer
  | pool b =>
    simp only [HttpServer.next,Enabled,Ready,notifyOne,onPool,offerClient,dropMembers] at *
    grind [CanNotify,Option.map_eq_none_iff]
  | _ => exact hk hp

theorem calling_next (h : s.Pooled) (ha : s.Enabled a) (hl : (s.next a).listener = .offering) :
    (s.next a).assigned = true := by
  have hk := h.calling
  cases a with
  | reset =>
    rw [show (s.next .reset).listener = s.listener from rfl,
      h.coherent.exited_of_reset ha.2.1] at hl
    cases hl
  | assign => rfl
  | spawn | bind | ready | readyNotify c | test | poll | accept | offer | offered | leave
  | leaveNotify c =>
    simp only [HttpServer.next,Enabled,Ready,notifyOne,offerClient] at *
    grind
  | _ => exact hk hl

/-- The steps of the other threads of the pool leave the listener's call alone. -/
theorem producer_next {p : ThreadPool num.toNat Unit} {b : ThreadPool.Action num.toNat Unit}
    (hb : s.Permits b) (hl : s.listener ≠ .offering) : (p.next b).producer = p.producer := by
  cases b with
  | enter q k | push q k | notify q k v => exact absurd hb.1 hl
  | offer q => exact hb.elim
  | _ => rfl

theorem destructor_next {p : ThreadPool num.toNat Unit} {b : ThreadPool.Action num.toNat Unit}
    (hb : s.Permits b) (hm : s.main ≠ .reap) : (p.next b).destructor = p.destructor := by
  cases b with
  | close | set | notifyAll | join i | leave => exact absurd hb.1 hm
  | destroy => exact hb.elim
  | _ => rfl

theorem producing_next (h : s.Pooled) (ha : s.Enabled a) {p : ThreadPool num.toNat Unit}
    (hp : (s.next a).pool = some p) (hl : (s.next a).listener ≠ .offering) :
    p.producer () = .idle := by
  have hpr := h.producing
  have hun := h.coherent.unborn
  cases a with
  | construct => exact ThreadPool.make_producer hp ()
  | reset =>
    obtain ⟨q,hq,rfl⟩ := Option.map_eq_some_iff.mp hp
    exact hpr q hq hl
  | pool b =>
    obtain ⟨q,hq,rfl⟩ := Option.map_eq_some_iff.mp hp
    rw [producer_next ha.2.2 hl]
    exact hpr q hq hl
  | offered =>
    have hr := ha.2.2.2
    simp only [OfferReturned,show s.pool = some p from hp] at hr
    exact hr
  | reaped => exact nomatch hp
  | spawn | bind | ready | readyNotify c | test | poll | accept | offer | leave
  | leaveNotify c =>
    simp only [HttpServer.next,Enabled,Ready,notifyOne,offerClient] at *
    grind
  | _ => exact hpr p hp hl

theorem living_next (h : s.Pooled) (ha : s.Enabled a) {p : ThreadPool num.toNat Unit}
    (hp : (s.next a).pool = some p) (hm : (s.next a).main ≠ .reap) : p.destructor = .idle := by
  have hli := h.living
  cases a with
  | construct => exact ThreadPool.make_destructor hp
  | reset => exact absurd rfl hm
  | pool b =>
    obtain ⟨q,hq,rfl⟩ := Option.map_eq_some_iff.mp hp
    rw [destructor_next ha.2.2 hm]
    exact hli q hq hm
  | reaped => exact nomatch hp
  | offer =>
    simp only [HttpServer.next,offerClient] at hp hm
    split at hp
    · obtain ⟨q,hq,rfl⟩ := Option.map_eq_some_iff.mp hp
      exact hli q hq hm
    · exact hli p hp hm
  | stop | destroy | bind | ready | test | poll | accept | offered | leave | fail | signal g
  | stopStore g | stopWrite g | stopWait g | connect => exact hli p hp hm
  | _ =>
    simp only [HttpServer.next,Enabled,Ready,notifyOne,dropMembers] at *
    grind [CanNotify]

theorem reached_next (h : s.Pooled) (ha : s.Enabled a) {p : ThreadPool num.toNat Unit}
    (hp : (s.next a).pool = some p) : ThreadPool.Reachable p := by
  have hr := h.reached
  cases a with
  | construct => exact ThreadPool.make_reachable hp
  | reset =>
    obtain ⟨q,hq,rfl⟩ := Option.map_eq_some_iff.mp hp
    exact (hr q hq).next (h.living q hq (by rw [ha.2.1]; decide))
  | pool b =>
    obtain ⟨q,hq,rfl⟩ := Option.map_eq_some_iff.mp hp
    have hb := ha.2.1
    simp only [PoolEnabled,hq] at hb
    exact (hr q hq).next hb
  | offer =>
    simp only [HttpServer.next,offerClient] at hp
    split at hp
    · obtain ⟨q,hq,rfl⟩ := Option.map_eq_some_iff.mp hp
      exact (hr q hq).next (h.producing q hq (by rw [ha.2.1]; decide))
    · exact hr p hp
  | reaped => cases hp
  | _ => exact hr p hp

theorem next (h : s.Pooled) (ha : s.Enabled a) : (s.next a).Pooled where
  coherent := h.coherent.next ha
  early := (h.pointer_next ha).1
  unbuilt := (h.pointer_next ha).2.1
  pointed := (h.pointer_next ha).2.2.1
  attached := (h.pointer_next ha).2.2.2
  linked := h.linked_next ha
  calling := h.calling_next ha
  producing _ hp := h.producing_next ha hp
  living _ hp := h.living_next ha hp
  reached _ hp := h.reached_next ha hp

end Pooled

theorem Reachable.pooled (hr : Reachable calls s) : s.Pooled :=
  hr.invariant pooled_init fun _ _ h ha => h.next ha

end HttpServer
end Gabby.Http
