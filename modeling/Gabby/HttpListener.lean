import Gabby.Errors
import Gabby.HttpStartup

/-! The loop of `Listen` against whatever the operating system answers to `poll` and `accept`,
and the listener of the whole server as one that gets such answers. -/
namespace Gabby.Http

def EINTR : ℕ := 4
def ENFILE : ℕ := 23
def EMFILE : ℕ := 24
def ECONNABORTED : ℕ := 103

def POLLIN : BitVec 16 := 1

/-- The `revents` of the socket and of the pipe after `poll`. -/
structure Revents where
  sock : BitVec 16
  pipe : BitVec 16
  deriving DecidableEq

def Revents.count (r : Revents) : ℕ :=
  (if r.sock = 0 then 0 else 1) + if r.pipe = 0 then 0 else 1

/-- What the loop sees and leaves behind: `clients` are the descriptors accepted so far, and
`uncaught` is the exception that left the thread, which terminates the process. -/
structure Listener where
  run : Bool
  running : Bool
  pipe : ℕ
  pc : ListenPc
  clients : List ℕ
  uncaught : Option Exn
  deriving DecidableEq

namespace Listener

/-- A step of the loop, with what the system call returns or else the `errno` it sets, or a
step of `Stop`, which can come at any moment. -/
inductive Action
  | notify | test | poll (r : Except ℕ Revents) | accept (r : Except ℕ ℕ)
  | offer | offered | leave | leaveNotify | stopStore | stopWrite

def start : Listener := ⟨true,true,0,.readyNotify,[],none⟩

/-- `poll` has no timeout, and the pipe is never read. -/
def Ready (l : Listener) : Action → Prop
  | .notify => l.pc = .readyNotify
  | .test => l.pc = .test
  | .poll (.ok r) => l.pc = .poll ∧ r.count ≠ 0 ∧ (r.pipe &&& POLLIN ≠ 0 ↔ 0 < l.pipe)
  | .poll (.error _) => l.pc = .poll
  | .accept _ => l.pc = .accept
  | .offer => l.pc = .offer
  | .offered => l.pc = .offering
  | .leave => l.pc = .leave
  | .leaveNotify => l.pc = .leaveNotify
  | .stopStore | .stopWrite => True

def Enabled (l : Listener) (a : Action) : Prop := l.uncaught = none ∧ l.Ready a

def next (l : Listener) : Action → Listener
  | .notify => { l with pc := .test }
  | .test => { l with pc := if l.run then .poll else .leave }
  | .poll (.ok r) => { l with pc := if r.sock &&& POLLIN ≠ 0 then .accept else .test }
  | .poll (.error errno) => { l with uncaught := some (.systemError errno) }
  | .accept (.ok fd) => { l with clients := l.clients ++ [fd], pc := .offer }
  | .accept (.error errno) => { l with uncaught := some (.systemError errno) }
  | .offer => { l with pc := .offering }
  | .offered => { l with pc := .test }
  | .leave => { l with running := false, pc := .leaveNotify }
  | .leaveNotify => { l with pc := .exited }
  | .stopStore => { l with run := false }
  | .stopWrite => { l with pipe := l.pipe + 1 }

def system : System Listener Action := ⟨Enabled,next⟩

instance (l : Listener) : ∀ a, Decidable (l.Ready a)
  | .poll (.ok _) => inferInstanceAs (Decidable (_ ∧ _))
  | .notify | .test | .poll (.error _) | .accept _ | .offer | .offered | .leave | .leaveNotify =>
    inferInstanceAs (Decidable (_ = _))
  | .stopStore | .stopWrite => isTrue trivial

instance (l : Listener) (a : Action) : Decidable (system.enabled l a) :=
  inferInstanceAs (Decidable (l.uncaught = none ∧ l.Ready a))

namespace Action

def Fails : Action → Prop
  | .poll (.error _) | .accept (.error _) => True
  | _ => False

/-- A failure is one that a signal, a peer or the load brings about. -/
def Transient : Action → Prop
  | .poll (.error errno) => errno = EINTR
  | .accept (.error errno) => errno ∈ [ECONNABORTED,EINTR,EMFILE,ENFILE]
  | _ => True

end Action

def Left (l : Listener) : Prop := l.pc.left = true ∨ l.uncaught ≠ none

/-- The loop is left only after `run_` has become false, and no exception leaves the thread. -/
structure Persists (l : Listener) : Prop where
  left : l.Left → l.run = false
  caught : l.uncaught = none

variable {l : Listener} {a : Action} {as : List Action}

theorem persists_start : start.Persists := ⟨by simp [Left,start,ListenPc.left],rfl⟩

/-- Out of the loop `run_` is false, however the calls went. -/
def Stopping (l : Listener) : Prop := l.pc.left = true → l.run = false

theorem stopping_start : start.Stopping := fun hl => absurd hl Bool.false_ne_true

theorem stopping_next (h : l.Stopping) (ha : l.Enabled a) : (l.next a).Stopping := by
  obtain ⟨-,ha⟩ := ha
  cases a with
  | stopStore => exact fun _ => rfl
  | stopWrite => exact h
  | test =>
    intro hl
    by_cases hr : l.run = true
    · simp [next,hr,ListenPc.left] at hl
    · exact Bool.eq_false_of_not_eq_true hr
  | leave => exact fun _ => h (by rw [show l.pc = .leave from ha]; rfl)
  | leaveNotify => exact fun _ => h (by rw [show l.pc = .leaveNotify from ha]; rfl)
  | poll r =>
    cases r with
    | error errno => exact h
    | ok r =>
      intro hl
      simp only [next] at hl
      split at hl <;> cases hl
  | accept r =>
    cases r with
    | error errno => exact h
    | ok fd => exact fun hl => absurd hl Bool.false_ne_true
  | notify | offer | offered => exact fun hl => absurd hl Bool.false_ne_true

theorem uncaught_next_eq_none (ha : l.Enabled a) : (l.next a).uncaught = none ↔ ¬a.Fails := by
  have hl := ha.1
  cases a with
  | poll r | accept r => cases r <;> simp [next,Action.Fails,hl]
  | _ => simp [next,Action.Fails,hl]

theorem Stopping.persists_iff (h : l.Stopping) : l.Persists ↔ l.uncaught = none := by
  constructor
  · exact Persists.caught
  · exact fun hu => ⟨fun hl => h (hl.resolve_right fun hn => hn hu),hu⟩

theorem persists_final_iff (hv : system.Valid start as) :
    (system.final start as).Persists ↔ ∀ a ∈ as, ¬a.Fails := by
  have hstep : ∀ l a, Stopping l → system.enabled l a →
      ((system.next l a).Persists ↔ l.Persists ∧ ¬a.Fails) := by
    intro l a hl ha
    change (l.next a).Persists ↔ _
    rw [(stopping_next hl ha).persists_iff,hl.persists_iff,uncaught_next_eq_none ha,
      and_iff_right ha.1]
  rw [System.final_iff_along (fun _ _ => stopping_next) hstep stopping_start hv,
    System.along_const,and_iff_right persists_start]

/-- In a run of the loop no exception leaves the thread, and the loop is left only after
`run_` has become false, exactly when neither `poll` nor `accept` ever returns -1. -/
theorem persists_throughout_iff (hv : system.Valid start as) :
    (∀ bs bs', as = bs ++ bs' → (system.final start bs).Persists) ↔ ∀ a ∈ as, ¬a.Fails := by
  constructor
  · exact fun h => (persists_final_iff hv).mp (h as [] (List.append_nil as).symm)
  · rintro h bs bs' rfl
    exact (persists_final_iff (System.valid_append.mp hv).1).mpr fun a ha =>
      h a (List.mem_append_left bs' ha)

theorem persists_throughout_iff_served :
    (∀ bs bs', [.notify,.test,.poll (.ok ⟨1,0⟩),.accept (.ok 5),.offer,.offered,.stopStore,
      .stopWrite,.test,.leave,.leaveNotify] = bs ++ bs' → (system.final start bs).Persists) ↔
    ∀ a ∈ [.notify,.test,.poll (.ok ⟨1,0⟩),.accept (.ok 5),.offer,.offered,.stopStore,
      .stopWrite,.test,.leave,.leaveNotify], ¬Action.Fails a :=
  persists_throughout_iff (by decide)

/-- A client that hangs up before `accept` takes its connection ends the process. -/
theorem not_persists : ¬∀ as, system.Valid start as → (∀ a ∈ as, a.Transient) →
    ∀ bs bs', as = bs ++ bs' → (system.final start bs).Persists := by
  intro h
  have hp := h [.notify,.test,.poll (.ok ⟨1,0⟩),.accept (.error ECONNABORTED)] (by decide)
    (by simp [Action.Transient]) _ [] (List.append_nil _).symm
  exact Option.some_ne_none _ hp.caught

end Listener

/-! ## The listener of the server -/

namespace HttpServer

variable {num : ℤ} {s : HttpServer num} {a : Action num} {calls : List Call}

structure Views (s : HttpServer num) (l : Listener) : Prop where
  pc : l.pc = s.listener
  run : l.run = s.run
  running : l.running = s.running
  pipe : l.pipe = s.pipe
  clients : l.clients.length = s.accepted
  caught : s.aborted = false → l.uncaught = none

def revents (s : HttpServer num) : Revents :=
  ⟨if 0 < s.backlog then POLLIN else 0,if 0 < s.pipe then POLLIN else 0⟩

def observed (s : HttpServer num) : Action num → List Listener.Action
  | .readyNotify _ => [.notify]
  | .test => [.test]
  | .poll => [.poll (.ok s.revents)]
  | .accept => [.accept (.ok s.accepted)]
  | .offer => if s.assigned then [.offer] else []
  | .offered => [.offered]
  | .leave => [.leave]
  | .leaveNotify _ => [.leaveNotify]
  | .stopStore _ => [.stopStore]
  | .stopWrite _ => [.stopWrite]
  | .fail => if s.listener = .poll then [.poll (.error EINTR)] else [.accept (.error ECONNABORTED)]
  | _ => []

theorem revents_ready : s.revents.pipe &&& POLLIN ≠ 0 ↔ 0 < s.pipe := by
  by_cases hp : 0 < s.pipe <;> simp [revents,hp,POLLIN]

theorem revents_sock : s.revents.sock &&& POLLIN ≠ 0 ↔ 0 < s.backlog := by
  by_cases hb : 0 < s.backlog <;> simp [revents,hb,POLLIN]

theorem revents_count (h : 0 < s.backlog ∨ 0 < s.pipe) : s.revents.count ≠ 0 := by
  by_cases hb : 0 < s.backlog <;> by_cases hp : 0 < s.pipe <;>
    simp_all [revents,Revents.count,POLLIN]

theorem Views.next {l : Listener} (h : s.Views l) (hs : s.Coherent)
    (hl : s.listener.announced = true) (ha : s.Enabled a) :
    Listener.system.Valid l (s.observed a) ∧
      (s.next a).Views (Listener.system.final l (s.observed a)) := by
  obtain ⟨hpc,hrun,hrunning,hpipe,hclients,hcaught⟩ := h
  have hlive := hcaught ha.1
  have hunborn := hs.unborn
  cases a with
  | readyNotify c | leaveNotify c | offered =>
    exact ⟨⟨⟨hlive,hpc.trans ha.2.1⟩,trivial⟩,⟨rfl,hrun,hrunning,hpipe,hclients,fun _ => hlive⟩⟩
  | leave =>
    exact ⟨⟨⟨hlive,hpc.trans ha.2.1⟩,trivial⟩,⟨rfl,hrun,rfl,hpipe,hclients,fun _ => hlive⟩⟩
  | test =>
    refine ⟨⟨⟨hlive,hpc.trans ha.2.1⟩,trivial⟩,⟨?_,hrun,hrunning,hpipe,hclients,fun _ => hlive⟩⟩
    change (if l.run = true then _ else _) = if s.run = true then _ else _
    rw [hrun]
  | poll =>
    refine ⟨⟨⟨hlive,hpc.trans ha.2.1,revents_count ha.2.2.2,hpipe ▸ revents_ready⟩,trivial⟩,
      ⟨?_,hrun,hrunning,hpipe,hclients,fun _ => hlive⟩⟩
    exact if_congr revents_sock rfl rfl
  | accept =>
    refine ⟨⟨⟨hlive,hpc.trans ha.2.1⟩,trivial⟩,⟨rfl,hrun,hrunning,hpipe,?_,fun _ => hlive⟩⟩
    change (l.clients ++ [s.accepted]).length = s.accepted + 1
    rw [List.length_append,hclients,List.length_singleton]
  | offer =>
    by_cases hp : s.assigned = true
    · rw [observed,if_pos hp]
      refine ⟨⟨⟨hlive,hpc.trans ha.2.1⟩,trivial⟩,⟨?_,hrun,hrunning,hpipe,hclients,fun _ => hlive⟩⟩
      exact (if_pos hp).symm
    · rw [observed,if_neg hp]
      refine ⟨trivial,⟨?_,hrun,hrunning,hpipe,hclients,fun _ => hlive⟩⟩
      exact hpc.trans (if_neg hp).symm
  | stopStore g =>
    exact ⟨⟨⟨hlive,trivial⟩,trivial⟩,⟨hpc,rfl,hrunning,hpipe,hclients,fun _ => hlive⟩⟩
  | stopWrite g =>
    exact ⟨⟨⟨hlive,trivial⟩,trivial⟩,⟨hpc,hrun,hrunning,congrArg (· + 1) hpipe,hclients,
      fun _ => hlive⟩⟩
  | fail =>
    obtain hb | hb | hb := ha.2.1
    · simp [hb,ListenPc.announced] at hl
    · rw [observed,if_pos hb]
      exact ⟨⟨⟨hlive,hpc.trans hb⟩,trivial⟩,⟨hpc,hrun,hrunning,hpipe,hclients,
        fun h => absurd h.symm Bool.false_ne_true⟩⟩
    · rw [observed,if_neg (by simp [hb])]
      exact ⟨⟨⟨hlive,hpc.trans hb⟩,trivial⟩,⟨hpc,hrun,hrunning,hpipe,hclients,
        fun h => absurd h.symm Bool.false_ne_true⟩⟩
  | storeRun | spawn =>
    have hm : s.main = .start ∨ s.main = .spawn := by simp [ha.2.1]
    simp [hunborn.mpr hm,ListenPc.announced] at hl
  | bind | ready => simp [show s.listener = _ from ha.2.1,ListenPc.announced] at hl
  | _ => exact ⟨trivial,⟨hpc,hrun,hrunning,hpipe,hclients,fun _ => hlive⟩⟩

def Untouched (s : HttpServer num) : Prop :=
  s.listener.announced = false → s.pipe = 0 ∧ s.accepted = 0

theorem untouched_init : (init num calls).Untouched := fun _ => ⟨rfl,rfl⟩

theorem Untouched.next (h : s.Untouched) (hs : s.Coherent) (ha : s.Enabled a) :
    (s.next a).Untouched := by
  cases a with
  | spawn => exact fun _ => h (by simp [hs.unborn.mpr (Or.inr ha.2.1),ListenPc.announced])
  | bind => exact fun _ => h (by simp [show s.listener = _ from ha.2.1,ListenPc.announced])
  | stopWrite g =>
    intro hl
    have hg := hs.framed g fun he => by simp [Enabled,Ready,he] at ha
    exact absurd (hl.symm.trans hg) Bool.false_ne_true
  | test | poll =>
    intro hl
    simp only [HttpServer.next] at hl
    split at hl <;> cases hl
  | offer =>
    intro hl
    have ho : s.listener = .offer := ha.2.1
    simp only [HttpServer.next,offerClient,ho] at hl
    split at hl <;> cases hl
  | ready | readyNotify c | accept | offered | leave | leaveNotify c =>
    exact fun hl => absurd hl.symm Bool.false_ne_true
  | _ => exact h

theorem eq_ready_of_announced_next (ha : s.Enabled a) (hl : s.listener.announced = false)
    (hn : (s.next a).listener.announced = true) : a = .ready := by
  cases a with
  | ready => rfl
  | spawn | bind => exact absurd hn Bool.false_ne_true
  | readyNotify c | test | poll | accept | offer | offered | leave | leaveNotify c =>
    simp [show s.listener = _ from ha.2.1,ListenPc.announced] at hl
  | _ => exact absurd (hl.symm.trans hn) Bool.false_ne_true

/-- The loop is where the listener is after some answers of the operating system. -/
def Viewed (s : HttpServer num) : Prop :=
  ∃ as, Listener.system.Valid .start as ∧ s.Views (Listener.system.final .start as)

theorem Viewed.next (h : s.listener.announced = true → s.Viewed) (hs : s.Coherent)
    (hu : s.Untouched) (ha : s.Enabled a) (hn : (s.next a).listener.announced = true) :
    (s.next a).Viewed := by
  cases hl : s.listener.announced with
  | true =>
    obtain ⟨as,hv,hview⟩ := h hl
    obtain ⟨hw,hview⟩ := hview.next hs hl ha
    exact ⟨as ++ s.observed a,System.valid_append.mpr ⟨hv,hw⟩,System.final_append ▸ hview⟩
  | false =>
    obtain rfl := eq_ready_of_announced_next ha hl hn
    obtain ⟨hpipe,haccepted⟩ := hu hl
    have hmain : s.main ≠ .start := fun hm => by
      simp [hs.unborn.mpr (Or.inl hm),Enabled,Ready] at ha
    have hrun := hs.armed hl hmain
    exact ⟨[],trivial,⟨rfl,hrun.symm,rfl,hpipe.symm,haccepted.symm,fun _ => rfl⟩⟩

/-- Once the listener has set `running_`, it is the loop after some answers of the operating
system, and as long as the process lives none of them was a failure. -/
theorem Reachable.exists_views (hr : Reachable calls s) (hl : s.listener.announced = true) :
    ∃ as, Listener.system.Valid .start as ∧ s.Views (Listener.system.final .start as) ∧
      (s.aborted = false → ∀ b ∈ as, ¬b.Fails) := by
  have hinv : s.Coherent ∧ s.Untouched ∧ (s.listener.announced = true → s.Viewed) :=
    hr.invariant (I:=fun s => s.Coherent ∧ s.Untouched ∧ (s.listener.announced = true → s.Viewed))
      ⟨coherent_init,untouched_init,fun h => absurd h Bool.false_ne_true⟩
      fun s a ⟨hs,hu,hv⟩ ha => ⟨hs.next ha,hu.next hs ha,Viewed.next hv hs hu ha⟩
  obtain ⟨as,hv,hview⟩ := hinv.2.2 hl
  refine ⟨as,hv,hview,fun hlive => (Listener.persists_final_iff hv).mp ?_⟩
  have hstop := System.run_invariant (fun _ _ => Listener.stopping_next) Listener.stopping_start hv
  exact hstop.persists_iff.mpr (hview.caught hlive)

end HttpServer
end Gabby.Http
