import Gabby.Transition
import Mathlib.Data.Fintype.Basic
import Mathlib.Logic.Function.Basic
import Mathlib.Tactic.Simps.Basic

/-! The producer-consumer thread pool: one mutex, one condition variable, one queue.
Each action is one step of one thread; the mutex is held from the action that takes it to
the action that the source leaves its scope with. -/
namespace Gabby

/-- A task is named by the number of the `Offer` call that brings it. -/
abbrev Task := ℕ

/-- Where a worker is in `ThreadRun`. It is asleep in `cnd_.wait` until it is notified, and
must then take the mutex again. `crashed` is `front()` of an empty queue. -/
inductive WorkerPc
  | lock | test | asleep | woken | pick | running (k : Task) | ended | crashed
  deriving DecidableEq

inductive OfferPc
  | idle | lock (k : Task) | push (k : Task) | notify (k : Task)
  deriving DecidableEq

/-- Where the destructor is; `join i` waits for the thread with that index. -/
inductive DtorPc
  | idle | lock | set | notify | join (i : ℕ) | returned
  deriving DecidableEq

inductive Thread (n : ℕ) (π : Type)
  | worker (i : Fin n) | producer (p : π) | destructor
  deriving DecidableEq

/-- A pool of `n` workers with the producers `π`. The fields from `calls` on are history:
the number of calls of `Offer`, the tasks pushed, started and finished so far in that order,
those whose `Offer` has returned, and those of them that had when the destructor began. -/
structure ThreadPool (n : ℕ) (π : Type) where
  mux : Option (Thread n π)
  done : Bool
  tasks : List Task
  worker : Fin n → WorkerPc
  producer : π → OfferPc
  destructor : DtorPc
  calls : ℕ
  offered : List Task
  started : List Task
  finished : List Task
  returned : List Task
  early : List Task

namespace ThreadPool

inductive Action (n : ℕ) (π : Type)
  | lock (i : Fin n) | sleep (i : Fin n) | pass (i : Fin n) | wake (i : Fin n)
  | stop (i : Fin n) | start (i : Fin n) (k : Task) | crash (i : Fin n)
  | finish (i : Fin n) (k : Task)
  | offer (p : π) | enter (p : π) (k : Task) | push (p : π) (k : Task)
  | notify (p : π) (k : Task) (w : Option (Fin n))
  | destroy | close | set | notifyAll | join (i : Fin n) | leave

variable {n : ℕ} {π : Type}

/-- The state that the constructor leaves: every thread is about to take the mutex. -/
def init (n : ℕ) (π : Type) : ThreadPool n π :=
  ⟨none,false,[],fun _ => .lock,fun _ => .idle,.idle,0,[],[],[],[],[]⟩

/-- The constructor, which refuses a size below one. -/
def make (num : ℤ) (π : Type) : Option (ThreadPool num.toNat π) :=
  if num < 1 then none else some (init num.toNat π)

/-- `notify_one` releases a waiter when there is one. -/
def CanNotify (s : ThreadPool n π) : Option (Fin n) → Prop
  | none => ∀ i, s.worker i ≠ .asleep
  | some i => s.worker i = .asleep

theorem exists_canNotify (s : ThreadPool n π) : ∃ w, s.CanNotify w := by
  by_cases h : ∃ i, s.worker i = .asleep
  · exact h.elim fun i hi => ⟨some i,hi⟩
  · exact ⟨none,fun i hi => h ⟨i,hi⟩⟩

def Enabled (s : ThreadPool n π) : Action n π → Prop
  | .lock i => (s.worker i = .lock ∨ s.worker i = .woken) ∧ s.mux = none
  | .sleep i => s.worker i = .test ∧ ¬(s.done ∨ s.tasks ≠ [])
  | .pass i => s.worker i = .test ∧ (s.done ∨ s.tasks ≠ [])
  | .wake i => s.worker i = .asleep
  | .stop i => s.worker i = .pick ∧ s.done
  | .start i k => s.worker i = .pick ∧ ¬s.done ∧ s.tasks.head? = some k
  | .crash i => s.worker i = .pick ∧ ¬s.done ∧ s.tasks = []
  | .finish i k => s.worker i = .running k
  | .offer p => s.producer p = .idle
  | .enter p k => s.producer p = .lock k ∧ s.mux = none
  | .push p k => s.producer p = .push k
  | .notify p k w => s.producer p = .notify k ∧ s.CanNotify w
  | .destroy => s.destructor = .idle
  | .close => s.destructor = .lock ∧ s.mux = none
  | .set => s.destructor = .set
  | .notifyAll => s.destructor = .notify
  | .join i => s.destructor = .join i ∧ s.worker i = .ended
  | .leave => s.destructor = .join n

section Effect

variable (s : ThreadPool n π)

@[simps] def setWorker (i : Fin n) (pc : WorkerPc) : ThreadPool n π :=
  { s with worker := Function.update s.worker i pc }

@[simps] def setProducer [DecidableEq π] (p : π) (pc : OfferPc) : ThreadPool n π :=
  { s with producer := Function.update s.producer p pc }

@[simps] def release : ThreadPool n π := { s with mux := none }

@[simps] def notifyOne (w : Option (Fin n)) : ThreadPool n π :=
  { s with worker := fun i => if w = some i then .woken else s.worker i }

@[simps] def wakeAll : ThreadPool n π :=
  { s with worker := fun i => if s.worker i = .asleep then .woken else s.worker i }

def next [DecidableEq π] : Action n π → ThreadPool n π
  | .lock i => { s.setWorker i .test with mux := some (.worker i) }
  | .sleep i => (s.setWorker i .asleep).release
  | .pass i => s.setWorker i .pick
  | .wake i => s.setWorker i .woken
  | .stop i => (s.setWorker i .ended).release
  | .start i k =>
    { s.setWorker i (.running k) with tasks := s.tasks.tail, started := s.started ++ [k] }
  | .crash i => s.setWorker i .crashed
  | .finish i k => { (s.setWorker i .lock).release with finished := s.finished ++ [k] }
  | .offer p => { s.setProducer p (.lock s.calls) with calls := s.calls + 1 }
  | .enter p k => { s.setProducer p (.push k) with mux := some (.producer p) }
  | .push p k =>
    { (s.setProducer p (.notify k)).release with
      tasks := s.tasks ++ [k], offered := s.offered ++ [k] }
  | .notify p k w => { (s.notifyOne w).setProducer p .idle with returned := s.returned ++ [k] }
  | .destroy => { s with destructor := .lock, early := s.returned }
  | .close => { s with destructor := .set, mux := some .destructor }
  | .set => { s.release with destructor := .notify, done := true }
  | .notifyAll => { s.wakeAll with destructor := .join 0 }
  | .join i => { s with destructor := .join (i+1) }
  | .leave => { s with destructor := .returned }

end Effect

instance (s : ThreadPool n π) : ∀ w, Decidable (s.CanNotify w)
  | none => inferInstanceAs (Decidable (∀ i, s.worker i ≠ .asleep))
  | some i => inferInstanceAs (Decidable (s.worker i = .asleep))

instance (s : ThreadPool n π) [DecidableEq π] : ∀ a, Decidable (s.Enabled a)
  | .lock _ | .sleep _ | .pass _ | .stop _ | .start _ _ | .crash _ | .join _ | .enter _ _
  | .notify _ _ _ | .close => inferInstanceAs (Decidable (_ ∧ _))
  | .wake _ | .finish _ _ | .offer _ | .push _ _ | .destroy | .set | .notifyAll
  | .leave => inferInstanceAs (Decidable (_ = _))

def system (n : ℕ) (π : Type) [DecidableEq π] : System (ThreadPool n π) (Action n π) :=
  ⟨Enabled,fun s a => s.next a⟩

instance [DecidableEq π] (s : ThreadPool n π) (a : Action n π) :
    Decidable ((system n π).enabled s a) := inferInstanceAs (Decidable (s.Enabled a))

abbrev Reachable [DecidableEq π] (s : ThreadPool n π) : Prop :=
  (system n π).Reachable (init n π) s

theorem Reachable.next [DecidableEq π] {s : ThreadPool n π} {a : Action n π} (hr : Reachable s)
    (ha : s.Enabled a) : Reachable (s.next a) := System.Reachable.step hr ha

section Make

variable {num : ℤ} {s : ThreadPool num.toNat π}

theorem make_eq_some (h : make num π = some s) : s = init num.toNat π := by
  rw [make] at h
  split at h
  · exact nomatch h
  · exact (Option.some.inj h).symm

theorem make_producer (h : make num π = some s) (p : π) : s.producer p = .idle := by
  rw [make_eq_some h]
  rfl

theorem make_destructor (h : make num π = some s) : s.destructor = .idle := by
  rw [make_eq_some h]
  rfl

theorem make_reachable [DecidableEq π] (h : make num π = some s) : Reachable s := by
  rw [make_eq_some h]
  exact System.Reachable.refl _

end Make

def offerRun (p : π) (k : Task) : List (Action n π) :=
  [.offer p,.enter p k,.push p k,.notify p k none]

def twoOffers (i : Fin n) (p : π) : List (Action n π) :=
  offerRun p 0 ++ offerRun p 1 ++ [.lock i,.pass i,.start i 0]

def oneQueued (i : Fin n) : ThreadPool n π :=
  { init n π with
    mux := some (.worker i), tasks := [1], worker := Function.update (fun _ => .lock) i (.running 0)
    calls := 2, offered := [0,1], started := [0], returned := [0,1] }

section Runs

variable [DecidableEq π]

theorem twoOffers_valid (i : Fin n) (p : π) :
    (system n π).Valid (init n π) (twoOffers i p) := by
  simp [twoOffers,offerRun,system,Enabled,next,init,CanNotify]

theorem twoOffers_final (i : Fin n) (p : π) :
    (system n π).final (init n π) (twoOffers i p) = oneQueued i := by
  simp [twoOffers,offerRun,oneQueued,system,next,init,release,setWorker,setProducer,notifyOne,
    System.final]

theorem reachable_oneQueued (i : Fin n) (p : π) : Reachable (oneQueued i : ThreadPool n π) :=
  ⟨twoOffers i p,twoOffers_valid i p,twoOffers_final i p⟩

end Runs

end ThreadPool
end Gabby
