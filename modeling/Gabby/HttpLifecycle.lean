import Gabby.ThreadPool
import Mathlib.Data.Fintype.Sum
import Mathlib.Tactic.DeriveFintype
import Mathlib.Tactic.Simps.Basic

/-! The threads of an HTTP server from the call of `Start` on: the main thread, the listener,
the workers of the pool, the clients that connect, and `Stop` called from a signal handler on
any of these threads. Each action is one step of one thread. -/
namespace Gabby.Http

inductive ListenPc
  | absent | bind | ready | readyNotify | test | poll | accept | offer | offering
  | leave | leaveNotify | exited
  deriving DecidableEq

/-- Where the main thread is in `Start`, in `Wait` or between two calls. It is asleep in
`running_.wait(false)` until it is notified; `gone` is past the destructor. -/
inductive MainPc
  | start | spawn | construct | assign | await | asleep | idle | join | reset | reap | gone
  deriving DecidableEq

inductive Call
  | stop | wait
  deriving DecidableEq

/-- Where a call of `Stop` is that found `running_` set. It is asleep in `running_.wait(true)`
until it is notified. -/
inductive StopPc
  | store | write | wait | asleep
  deriving DecidableEq

inductive Host (n : ℕ)
  | main | listener | worker (i : Fin n)
  deriving DecidableEq, Fintype

/-- A thread that sleeps on `running_`: the main thread in `Start`, or the call of `Stop` with
an index in the stack of a thread. -/
inductive Sleeper (n : ℕ)
  | start | stop (h : Host n) (j : ℕ)
  deriving DecidableEq

/-- A server whose `worker_threads` is `num` as the `int` of the pool's constructor. A signal
handler runs on top of what its thread was doing, so each thread has a stack of calls of `Stop`.
`pool` is the object, `assigned` tells whether `pool_` points to it. The process is `aborted` by
an exception that leaves a thread, by the destruction of a joinable thread, or by undefined
behaviour. The last two fields are history: the connections accepted, and whether a call of
`Stop` has returned. -/
structure HttpServer (num : ℤ) where
  run : Bool
  running : Bool
  pipe : ℕ
  backlog : ℕ
  listener : ListenPc
  joinable : Bool
  pool : Option (ThreadPool num.toNat Unit)
  assigned : Bool
  main : MainPc
  calls : List Call
  dying : Bool
  frames : Host num.toNat → List StopPc
  aborted : Bool
  accepted : ℕ
  stopped : Bool

namespace HttpServer

inductive Action (num : ℤ)
  | storeRun | spawn | construct | assign | await
  | stop | wait | join | reset | reaped | destroy | members
  | bind | ready | readyNotify (c : Option (Sleeper num.toNat)) | test | poll | accept
  | offer | offered | leave | leaveNotify (c : Option (Sleeper num.toNat)) | fail
  | pool (a : ThreadPool.Action num.toNat Unit)
  | signal (h : Host num.toNat) | stopStore (h : Host num.toNat)
  | stopWrite (h : Host num.toNat) | stopWait (h : Host num.toNat)
  | connect

variable {num : ℤ}

/-- `Start` has been called on a new server; `calls` are to follow. -/
def init (num : ℤ) (calls : List Call) : HttpServer num :=
  ⟨false,false,0,0,.absent,false,none,false,.start,calls,false,fun _ => [],false,0,false⟩

/-! ## When a thread can take its next step -/

abbrev Free (s : HttpServer num) (h : Host num.toNat) : Prop := s.frames h = []

/-- The thread exists, so a signal can be delivered on it. -/
def Alive (s : HttpServer num) : Host num.toNat → Prop
  | .main => s.main ≠ .gone
  | .listener => s.listener ≠ .absent ∧ s.listener ≠ .exited
  | .worker i =>
    match s.pool with
    | none => False
    | some p => p.worker i ≠ .ended

/-- `notify_one` on `running_` releases a sleeper when there is one. -/
def CanNotify (s : HttpServer num) : Option (Sleeper num.toNat) → Prop
  | none => s.main ≠ .asleep ∧ ∀ h, .asleep ∉ s.frames h
  | some .start => s.main = .asleep
  | some (.stop h j) => (s.frames h)[j]? = some .asleep

theorem exists_canNotify (s : HttpServer num) : ∃ c, s.CanNotify c := by
  by_cases hm : s.main = .asleep
  · exact ⟨some .start,hm⟩
  by_cases hf : ∃ h, .asleep ∈ s.frames h
  · obtain ⟨h,hh⟩ := hf
    obtain ⟨j,hj⟩ := List.mem_iff_getElem?.mp hh
    exact ⟨some (.stop h j),hj⟩
  · exact ⟨none,hm,fun h hh => hf ⟨h,hh⟩⟩

/-- The pool's own steps: a worker acts unless it runs a signal handler, the listener is the
producer, and the destructor runs on the main thread. -/
def Permits (s : HttpServer num) : ThreadPool.Action num.toNat Unit → Prop
  | .lock i | .sleep i | .pass i | .stop i | .start i _ | .crash i | .finish i _ =>
    s.Free (.worker i)
  | .wake _ => True
  | .enter _ _ | .push _ _ | .notify _ _ _ => s.listener = .offering ∧ s.Free .listener
  | .close | .set | .notifyAll | .join _ | .leave => s.main = .reap ∧ s.Free .main
  | .offer _ | .destroy => False

def PoolEnabled (s : HttpServer num) (a : ThreadPool.Action num.toNat Unit) : Prop :=
  match s.pool with
  | none => False
  | some p => p.Enabled a

/-- The listener is inside its call of `Offer`. -/
def OfferReturned (s : HttpServer num) : Prop :=
  match s.pool with
  | none => False
  | some p => p.producer () = .idle

def PoolReturned (s : HttpServer num) : Prop :=
  match s.pool with
  | none => False
  | some p => p.destructor = .returned

def Ready (s : HttpServer num) : Action num → Prop
  | .storeRun => s.main = .start ∧ s.Free .main
  | .spawn => s.main = .spawn ∧ s.Free .main
  | .construct => s.main = .construct ∧ s.Free .main
  | .assign => s.main = .assign ∧ s.Free .main
  | .await => s.main = .await ∧ s.Free .main
  | .stop => s.main = .idle ∧ s.Free .main ∧ s.calls.head? = some .stop
  | .wait => s.main = .idle ∧ s.Free .main ∧ s.calls.head? = some .wait
  | .join => s.main = .join ∧ s.Free .main ∧ s.joinable ∧ s.listener = .exited
  | .reset => s.main = .reset ∧ s.Free .main
  | .reaped => s.main = .reap ∧ s.Free .main ∧ s.PoolReturned
  | .destroy => s.main = .idle ∧ s.Free .main ∧ s.calls = [] ∧ ¬s.dying
  | .members => s.main = .idle ∧ s.Free .main ∧ s.calls = [] ∧ s.dying
  | .bind => s.listener = .bind ∧ s.Free .listener
  | .ready => s.listener = .ready ∧ s.Free .listener
  | .readyNotify c => s.listener = .readyNotify ∧ s.Free .listener ∧ s.CanNotify c
  | .test => s.listener = .test ∧ s.Free .listener
  | .poll => s.listener = .poll ∧ s.Free .listener ∧ (0 < s.backlog ∨ 0 < s.pipe)
  | .accept => s.listener = .accept ∧ s.Free .listener
  | .offer => s.listener = .offer ∧ s.Free .listener
  | .offered => s.listener = .offering ∧ s.Free .listener ∧ s.OfferReturned
  | .leave => s.listener = .leave ∧ s.Free .listener
  | .leaveNotify c => s.listener = .leaveNotify ∧ s.Free .listener ∧ s.CanNotify c
  | .fail => (s.listener = .bind ∨ s.listener = .poll ∨ s.listener = .accept) ∧ s.Free .listener
  | .pool a => s.PoolEnabled a ∧ s.Permits a
  | .signal h => s.Alive h
  | .stopStore h => (s.frames h).head? = some .store
  | .stopWrite h => (s.frames h).head? = some .write
  | .stopWait h => (s.frames h).head? = some .wait
  | .connect => s.listener ≠ .absent ∧ s.listener ≠ .bind

def Enabled (s : HttpServer num) (a : Action num) : Prop := s.aborted = false ∧ s.Ready a

/-! ## The state after the step -/

section Effect

variable (s : HttpServer num)

/-- The call of `Stop` on top of the stack of a thread goes on to `pc`. -/
@[simps] def goOn (h : Host num.toNat) (pc : StopPc) : HttpServer num :=
  { s with frames := Function.update s.frames h (pc::(s.frames h).tail) }

@[simps] def beginStop (h : Host num.toNat) : HttpServer num :=
  { s with
    frames := if s.running then Function.update s.frames h (.store::s.frames h) else s.frames
    stopped := s.stopped || !s.running }

@[simps] def waitStop (h : Host num.toNat) : HttpServer num :=
  { s with
    frames := Function.update s.frames h
      (if s.running then .asleep::(s.frames h).tail else (s.frames h).tail)
    stopped := s.stopped || !s.running }

/-- A sleeper that is released reads `running_` again. -/
@[simps] def notifyOne (c : Option (Sleeper num.toNat)) : HttpServer num :=
  { s with
    main := if c = some .start then .await else s.main
    frames := fun h =>
      match c with
      | some (.stop g j) => if g = h then (s.frames h).set j .wait else s.frames h
      | _ => s.frames h }

@[simps] def onPool (f : ThreadPool num.toNat Unit → ThreadPool num.toNat Unit) :
    HttpServer num :=
  { s with pool := s.pool.map f }

/-- `std::make_unique<ThreadPool>`, whose constructor may throw: then `Start` ends. -/
@[simps] def makePool : HttpServer num :=
  { s with
    pool := ThreadPool.make num Unit
    main := if (ThreadPool.make num Unit).isSome then .assign else .idle }

/-- `pool_->Offer`, which is undefined for a null pointer. -/
@[simps] def offerClient : HttpServer num :=
  { s with
    pool := if s.assigned then s.pool.map (·.next (.offer ())) else s.pool
    listener := if s.assigned then .offering else s.listener
    aborted := !s.assigned }

/-- The members are destroyed: first `listener_`, which must not be joinable, then `pool_`. -/
@[simps] def dropMembers : HttpServer num :=
  { s with
    aborted := s.joinable
    main := if s.joinable then s.main else if s.assigned then .reset else .gone }

def next : Action num → HttpServer num
  | .storeRun => { s with run := true, main := .spawn }
  | .spawn => { s with listener := .bind, joinable := true, main := .construct }
  | .construct => s.makePool
  | .assign => { s with assigned := true, main := .await }
  | .await => { s with main := if s.running then .idle else .asleep }
  | .stop => { s.beginStop .main with calls := s.calls.tail }
  | .wait => { s with calls := s.calls.tail, main := if s.assigned then .join else .idle }
  | .join => { s with joinable := false, main := .reset }
  | .reset => { s.onPool (·.next .destroy) with assigned := false, main := .reap }
  | .reaped => { s with pool := none, main := .idle }
  | .destroy => { s with dying := true, calls := if s.running then [.stop,.wait] else [] }
  | .members => s.dropMembers
  | .bind => { s with listener := .ready }
  | .ready => { s with running := true, listener := .readyNotify }
  | .readyNotify c => { s.notifyOne c with listener := .test }
  | .test => { s with listener := if s.run then .poll else .leave }
  | .poll => { s with listener := if 0 < s.backlog then .accept else .test }
  | .accept =>
    { s with backlog := s.backlog - 1, accepted := s.accepted + 1, listener := .offer }
  | .offer => s.offerClient
  | .offered => { s with listener := .test }
  | .leave => { s with running := false, listener := .leaveNotify }
  | .leaveNotify c => { s.notifyOne c with listener := .exited }
  | .fail => { s with aborted := true }
  | .pool a => s.onPool (·.next a)
  | .signal h => s.beginStop h
  | .stopStore h => { s.goOn h .write with run := false }
  | .stopWrite h => { s.goOn h .wait with pipe := s.pipe + 1 }
  | .stopWait h => s.waitStop h
  | .connect => { s with backlog := s.backlog + 1 }

end Effect

/-! ## Runs -/

def system (num : ℤ) : System (HttpServer num) (Action num) := ⟨Enabled,next⟩

abbrev Reachable (calls : List Call) (s : HttpServer num) : Prop :=
  (system num).Reachable (init num calls) s

theorem reachable_step {s : HttpServer num} {a : Action num} (ha : s.Enabled a) :
    (system num).Reachable s (s.next a) := System.Reachable.single ha

abbrev Leads (s : HttpServer num) (P : HttpServer num → Prop) : Prop := (system num).Leads s P

theorem leads_step {s : HttpServer num} {P : HttpServer num → Prop} (a : Action num)
    (ha : s.Enabled a) (hl : (s.next a).Leads P) : s.Leads P := System.Leads.next ha hl

section Decide

variable (s : HttpServer num)

instance : ∀ h, Decidable (s.Alive h)
  | .main => inferInstanceAs (Decidable (s.main ≠ .gone))
  | .listener => inferInstanceAs (Decidable (_ ∧ _))
  | .worker i =>
    match hp : s.pool with
    | none => isFalse (by simp [Alive,hp])
    | some p => decidable_of_iff (p.worker i ≠ .ended) (by simp [Alive,hp])

instance : ∀ c, Decidable (s.CanNotify c)
  | none => inferInstanceAs (Decidable (_ ∧ _))
  | some .start => inferInstanceAs (Decidable (s.main = .asleep))
  | some (.stop h j) => inferInstanceAs (Decidable ((s.frames h)[j]? = some .asleep))

instance : ∀ a, Decidable (s.Permits a)
  | .lock i | .sleep i | .pass i | .stop i | .start i _ | .crash i | .finish i _ =>
    inferInstanceAs (Decidable (s.frames (.worker i) = []))
  | .wake _ => isTrue trivial
  | .enter _ _ | .push _ _ | .notify _ _ _ | .close | .set | .notifyAll | .join _ | .leave =>
    inferInstanceAs (Decidable (_ ∧ _))
  | .offer _ | .destroy => isFalse id

instance (a : ThreadPool.Action num.toNat Unit) : Decidable (s.PoolEnabled a) :=
  match hp : s.pool with
  | none => isFalse (by simp [PoolEnabled,hp])
  | some p => decidable_of_iff (p.Enabled a) (by simp [PoolEnabled,hp])

instance : Decidable s.OfferReturned :=
  match hp : s.pool with
  | none => isFalse (by simp [OfferReturned,hp])
  | some p => decidable_of_iff (p.producer () = .idle) (by simp [OfferReturned,hp])

instance : Decidable s.PoolReturned :=
  match hp : s.pool with
  | none => isFalse (by simp [PoolReturned,hp])
  | some p => decidable_of_iff (p.destructor = .returned) (by simp [PoolReturned,hp])

instance : ∀ a, Decidable (s.Ready a)
  | .storeRun | .spawn | .construct | .assign | .await | .stop | .wait | .join | .reset | .reaped
  | .destroy | .members | .bind | .ready | .readyNotify _ | .test | .poll | .accept | .offer
  | .offered | .leave | .leaveNotify _ | .fail | .pool _ | .connect =>
    inferInstanceAs (Decidable (_ ∧ _))
  | .signal h => inferInstanceAs (Decidable (s.Alive h))
  | .stopStore _ | .stopWrite _ | .stopWait _ => inferInstanceAs (Decidable (_ = _))

instance (a : Action num) : Decidable ((system num).enabled s a) :=
  inferInstanceAs (Decidable (s.aborted = false ∧ s.Ready a))

end Decide

end HttpServer
end Gabby.Http
