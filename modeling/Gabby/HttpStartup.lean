import Gabby.HttpLifecycle
import Gabby.ThreadPoolOrder

/-! What holds of the server in every reachable state, and what `Start` leaves open: a client
that connects before the pool exists, and a `Stop` that comes before `running_` is set. -/
namespace Gabby.Http

namespace ListenPc

/-- Between the stores of `true` and of `false` to `running_`. -/
def serving : ListenPc → Bool
  | .readyNotify | .test | .poll | .accept | .offer | .offering | .leave => true
  | .absent | .bind | .ready | .leaveNotify | .exited => false

def left : ListenPc → Bool
  | .leave | .leaveNotify | .exited => true
  | _ => false

def announced : ListenPc → Bool
  | .absent | .bind | .ready => false
  | _ => true

theorem announced_of_serving {l : ListenPc} (h : l.serving = true) : l.announced = true := by
  cases l <;> first | rfl | cases h

/-- Past the store of `false` to `running_`. -/
def past : ListenPc → Bool
  | .leaveNotify | .exited => true
  | _ => false

theorem past_of_announced {l : ListenPc} (h : l.announced = true) (hs : l.serving = false) :
    l.past = true := by
  cases l <;> simp_all [announced,serving,past]

theorem left_of_past {l : ListenPc} (h : l.past = true) : l.left = true := by
  cases l <;> first | rfl | cases h

def accepting : ListenPc → Bool
  | .accept | .offer | .offering => true
  | _ => false

/-- Between the call of `::listen` and the next call of `Offer`. -/
def inviting : ListenPc → Bool
  | .ready | .readyNotify | .test | .poll | .accept | .offer => true
  | _ => false

theorem born_of_inviting {l : ListenPc} (h : l.inviting = true) : l ≠ .absent ∧ l ≠ .bind := by
  cases l <;> simp_all [inviting]

end ListenPc

namespace MainPc

def early : MainPc → Bool
  | .start | .spawn | .construct | .assign => true
  | _ => false

end MainPc

namespace HttpServer

variable {num : ℤ} {s : HttpServer num} {a : Action num} {calls : List Call}

/-! ## The threads -/

/-- The listener lives from its creation in `Start` to the end of its loop, `running_` is set
while it serves and `run_` before, and its thread is joined after its end. -/
structure Coherent (s : HttpServer num) : Prop where
  unborn : s.listener = .absent ↔ s.main = .start ∨ s.main = .spawn
  unjoined : s.joinable = false → s.listener = .absent ∨ s.listener = .exited
  reaping : s.main = .reset ∨ s.main = .reap ∨ s.main = .gone → s.joinable = false
  running : s.running = s.listener.serving
  armed : s.listener.announced = false → s.main ≠ .start → s.run = true
  stopping : s.listener.left = true → s.run = false
  framed : ∀ h, s.frames h ≠ [] → s.listener.announced = true
  engaged : s.frames .listener ≠ [] → s.running = true

theorem coherent_init : (init num calls).Coherent where
  unborn := iff_of_true rfl (Or.inl rfl)
  unjoined _ := Or.inl rfl
  reaping h := by simp [init] at h
  running := rfl
  armed _ h := absurd rfl h
  stopping h := nomatch h
  framed _ h := absurd rfl h
  engaged h := absurd rfl h

namespace Coherent

theorem threads_next (h : s.Coherent) (ha : s.Enabled a) :
    ((s.next a).listener = .absent ↔ (s.next a).main = .start ∨ (s.next a).main = .spawn) ∧
    ((s.next a).joinable = false → (s.next a).listener = .absent ∨ (s.next a).listener = .exited) ∧
    ((s.next a).main = .reset ∨ (s.next a).main = .reap ∨ (s.next a).main = .gone →
      (s.next a).joinable = false) := by
  have hu := h.unborn
  have hj := h.unjoined
  have hr := h.reaping
  cases a with
  | stop | destroy | fail | pool b | signal g | stopStore g | stopWrite g | stopWait g
  | connect => exact ⟨hu,hj,hr⟩
  | _ =>
    simp only [HttpServer.next,Enabled,Ready,notifyOne,onPool,makePool,offerClient,dropMembers] at *
    grind

theorem running_next (h : s.Coherent) (ha : s.Enabled a) :
    (s.next a).running = (s.next a).listener.serving := by
  have hu := h.unborn
  have hr := h.running
  cases a with
  | spawn | bind | ready | readyNotify c | test | poll | accept | offer | offered | leave
  | leaveNotify c =>
    simp only [HttpServer.next,Enabled,Ready,notifyOne,offerClient] at *
    grind [ListenPc.serving]
  | _ => exact hr

theorem stopping_next (h : s.Coherent) (ha : s.Enabled a) (hl : (s.next a).listener.left = true) :
    (s.next a).run = false := by
  have hu := h.unborn
  have hs := h.stopping
  cases a with
  | stopStore g => rfl
  | storeRun | spawn | bind | ready | readyNotify c | test | poll | accept | offer | offered
  | leave | leaveNotify c =>
    simp only [HttpServer.next,Enabled,Ready,notifyOne,offerClient] at *
    grind [ListenPc.left]
  | _ => exact hs hl

/-- Only a call that finds `running_` set gets past its guard. -/
theorem framed_next (h : s.Coherent) (ha : s.Enabled a) (g : Host num.toNat)
    (hg : (s.next a).frames g ≠ []) : (s.next a).listener.announced = true := by
  have hu := h.unborn
  have hr := h.running
  have hf := h.framed
  cases a with
  | stop | signal k =>
    by_cases hrun : s.running = true
    · exact ListenPc.announced_of_serving (hr ▸ hrun)
    · simp only [HttpServer.next,beginStop,if_neg hrun] at hg
      exact hf g hg
  | stopStore k | stopWrite k | stopWait k =>
    simp only [HttpServer.next,Enabled,Ready,goOn,waitStop] at *
    grind [Function.update_apply]
  | spawn | bind | ready | readyNotify c | test | poll | accept | offer | offered | leave
  | leaveNotify c =>
    simp only [HttpServer.next,Enabled,Ready,notifyOne,offerClient] at *
    grind [ListenPc.announced]
  | _ => exact hf g hg

theorem armed_next (h : s.Coherent) (ha : s.Enabled a) (hl : (s.next a).listener.announced = false)
    (hm : (s.next a).main ≠ .start) : (s.next a).run = true := by
  have hu := h.unborn
  have hr := h.armed
  cases a with
  | storeRun => rfl
  | stopStore k =>
    have hf := h.framed k (by rintro he; simp [Enabled,Ready,he] at ha)
    exact nomatch hl.symm.trans hf
  | stop | destroy | fail | pool b | signal g | stopWrite g | stopWait g | connect => exact hr hl hm
  | _ =>
    simp only [HttpServer.next,Enabled,Ready,notifyOne,onPool,makePool,offerClient,dropMembers] at *
    grind [ListenPc.announced]

/-- A call on the listener's own thread keeps it from clearing `running_`. -/
theorem engaged_next (h : s.Coherent) (ha : s.Enabled a)
    (hg : (s.next a).frames .listener ≠ []) : (s.next a).running = true := by
  have he := h.engaged
  cases a with
  | ready => rfl
  | leave => exact absurd ha.2.2 hg
  | stop | signal k | stopStore k | stopWrite k | stopWait k | readyNotify c | leaveNotify c =>
    simp only [HttpServer.next,Enabled,Ready,beginStop,goOn,waitStop,notifyOne] at *
    grind [Function.update_apply]
  | _ => exact he hg

theorem next (h : s.Coherent) (ha : s.Enabled a) : (s.next a).Coherent where
  unborn := (h.threads_next ha).1
  unjoined := (h.threads_next ha).2.1
  reaping := (h.threads_next ha).2.2
  running := h.running_next ha
  armed := h.armed_next ha
  stopping := h.stopping_next ha
  framed := h.framed_next ha
  engaged := h.engaged_next ha

end Coherent

theorem Coherent.not_reaping (h : s.Coherent) (hr : s.running = true) :
    ¬(s.main = .reset ∨ s.main = .reap ∨ s.main = .gone) := by
  intro hm
  have hserving := h.running
  rw [hr] at hserving
  cases h.unjoined (h.reaping hm) with
  | inl hl => simp [hl,ListenPc.serving] at hserving
  | inr hl => simp [hl,ListenPc.serving] at hserving

theorem Reachable.coherent (hr : Reachable calls s) : s.Coherent :=
  hr.invariant coherent_init fun _ _ h ha => h.next ha

/-! ## The way to the next call of `Offer` -/

/-- The listener goes on, and at most releases a sleeper on its way. -/
structure Onward (s t : HttpServer num) : Prop where
  reach : (system num).Reachable s t
  alive : t.aborted = s.aborted
  run : t.run = s.run
  assigned : t.assigned = s.assigned
  pool : t.pool = s.pool
  frames : ∀ h, t.frames h = [] ↔ s.frames h = []

theorem Onward.refl (s : HttpServer num) : Onward s s :=
  ⟨System.Reachable.refl s,rfl,rfl,rfl,rfl,fun _ => Iff.rfl⟩

theorem Onward.trans {t u : HttpServer num} (h₁ : Onward s t) (h₂ : Onward t u) : Onward s u where
  reach := h₁.reach.trans h₂.reach
  alive := h₂.alive.trans h₁.alive
  run := h₂.run.trans h₁.run
  assigned := h₂.assigned.trans h₁.assigned
  pool := h₂.pool.trans h₁.pool
  frames h := (h₂.frames h).trans (h₁.frames h)

theorem frames_notifyOne_eq_nil {c : Option (Sleeper num.toNat)} {h : Host num.toNat} :
    (s.notifyOne c).frames h = [] ↔ s.frames h = [] := by
  simp only [notifyOne]
  split
  · split <;> simp
  · exact Iff.rfl

/-- A client waits for a listener that runs no signal handler. -/
structure Queued (s : HttpServer num) : Prop where
  alive : s.aborted = false
  free : s.Free .listener
  queued : 0 < s.backlog

namespace Queued

theorem of_accept (h : s.Queued) (hl : s.listener = .accept) :
    ∃ t, Onward s t ∧ t.listener = .offer := by
  have ha : s.Enabled .accept := ⟨h.alive,hl,h.free⟩
  exact ⟨s.next .accept,⟨reachable_step ha,rfl,rfl,rfl,rfl,fun _ => Iff.rfl⟩,rfl⟩

theorem of_poll (h : s.Queued) (hl : s.listener = .poll) :
    ∃ t, Onward s t ∧ t.listener = .offer := by
  have ha : s.Enabled .poll := ⟨h.alive,hl,h.free,Or.inl h.queued⟩
  have hs : Onward s (s.next .poll) := ⟨reachable_step ha,rfl,rfl,rfl,rfl,fun _ => Iff.rfl⟩
  obtain ⟨t,ht,hoff⟩ := of_accept (s := s.next .poll) ⟨h.alive,h.free,h.queued⟩
    (by simp [next,h.queued])
  exact ⟨t,hs.trans ht,hoff⟩

theorem of_test (h : s.Queued) (hl : s.listener = .test) (hr : s.run = true) :
    ∃ t, Onward s t ∧ t.listener = .offer := by
  have ha : s.Enabled .test := ⟨h.alive,hl,h.free⟩
  have hs : Onward s (s.next .test) := ⟨reachable_step ha,rfl,rfl,rfl,rfl,fun _ => Iff.rfl⟩
  obtain ⟨t,ht,hoff⟩ := of_poll (s := s.next .test) ⟨h.alive,h.free,h.queued⟩ (by simp [next,hr])
  exact ⟨t,hs.trans ht,hoff⟩

theorem of_readyNotify (h : s.Queued) (hl : s.listener = .readyNotify) (hr : s.run = true) :
    ∃ t, Onward s t ∧ t.listener = .offer := by
  obtain ⟨c,hc⟩ := s.exists_canNotify
  have ha : s.Enabled (.readyNotify c) := ⟨h.alive,hl,h.free,hc⟩
  have hs : Onward s (s.next (.readyNotify c)) :=
    ⟨reachable_step ha,rfl,rfl,rfl,rfl,fun _ => frames_notifyOne_eq_nil⟩
  obtain ⟨t,ht,hoff⟩ := of_test (s := s.next (.readyNotify c))
    ⟨h.alive,(hs.frames .listener).mpr h.free,h.queued⟩ rfl hr
  exact ⟨t,hs.trans ht,hoff⟩

theorem of_ready (h : s.Queued) (hl : s.listener = .ready) (hr : s.run = true) :
    ∃ t, Onward s t ∧ t.listener = .offer := by
  have ha : s.Enabled .ready := ⟨h.alive,hl,h.free⟩
  have hs : Onward s (s.next .ready) := ⟨reachable_step ha,rfl,rfl,rfl,rfl,fun _ => Iff.rfl⟩
  obtain ⟨t,ht,hoff⟩ := of_readyNotify (s := s.next .ready) ⟨h.alive,h.free,h.queued⟩ rfl hr
  exact ⟨t,hs.trans ht,hoff⟩

/-- The client gets to `Offer`, unless the listener is at a test of `run_` that fails. -/
theorem exists_offer (h : s.Queued) (hl : s.listener.inviting = true)
    (hr : s.run = true ∨ s.listener.accepting = true ∨ s.listener = .poll) :
    ∃ t, Onward s t ∧ t.listener = .offer := by
  match hpc : s.listener with
  | .offer => exact ⟨s,.refl s,hpc⟩
  | .accept => exact h.of_accept hpc
  | .poll => exact h.of_poll hpc
  | .test => exact h.of_test hpc (by simpa [hpc,ListenPc.accepting] using hr)
  | .readyNotify => exact h.of_readyNotify hpc (by simpa [hpc,ListenPc.accepting] using hr)
  | .ready => exact h.of_ready hpc (by simpa [hpc,ListenPc.accepting] using hr)
  | .absent | .bind | .offering | .leave | .leaveNotify | .exited =>
    simp [hpc,ListenPc.inviting] at hl

end Queued

/-! ## A client before the pool -/

/-- `pool_` is not null when `Accept` is about to call `pool_->Offer`. -/
def PoolPresent (s : HttpServer num) : Prop := s.listener = .offer → s.assigned = true

/-- The listener accepts no client any more: a call of `Stop` on its own thread waits for it,
or it is out of its loop, or the next test of `run_` ends the loop. -/
def Deaf (s : HttpServer num) : Prop :=
  s.frames .listener ≠ [] ∨ s.listener.left = true ∨
    (s.listener = .readyNotify ∨ s.listener = .test) ∧ s.run = false

/-- A client connects when the pool is there, or when nobody accepts it any more. -/
def ConnectsLate (s : HttpServer num) (a : Action num) : Prop :=
  a = .connect → s.assigned = true ∨ s.Deaf

structure Attended (s : HttpServer num) : Prop where
  coherent : s.Coherent
  queued : 0 < s.backlog → s.assigned = true ∨ s.Deaf
  accepting : s.listener.accepting = true → s.assigned = true

theorem attended_init : (init num calls).Attended where
  coherent := coherent_init
  queued h := absurd h (Nat.lt_irrefl 0)
  accepting h := nomatch h

theorem Coherent.exited_of_reset (h : s.Coherent) (hm : s.main = .reset) :
    s.listener = .exited := by
  refine (h.unjoined (h.reaping (Or.inl hm))).resolve_left fun hl => ?_
  cases h.unborn.mp hl with
  | inl he => exact nomatch hm.symm.trans he
  | inr he => exact nomatch hm.symm.trans he

theorem Coherent.deaf_next (h : s.Coherent) (ha : s.Enabled a) (hd : s.Deaf) :
    (s.next a).Deaf := by
  have hu := h.unborn
  have he := h.engaged
  cases a with
  | destroy | fail | pool b | connect | construct | assign | await | wait | join | reset | reaped
  | members => exact hd
  | _ =>
    simp only [Deaf,HttpServer.next,Enabled,Ready,beginStop,goOn,waitStop,notifyOne,
      offerClient] at *
    grind [ListenPc.left,Function.update_apply]

theorem Attended.clients_next (h : s.Attended) (ha : s.Enabled a) (hc : s.ConnectsLate a) :
    (0 < (s.next a).backlog → (s.next a).assigned = true ∨ (s.next a).Deaf) ∧
    ((s.next a).listener.accepting = true → (s.next a).assigned = true) := by
  have hq := h.queued
  have hp := h.accepting
  have hd := h.coherent.deaf_next ha
  cases a with
  | connect => exact ⟨fun _ => (hc rfl).imp_right hd,hp⟩
  | assign => exact ⟨fun _ => Or.inl rfl,fun _ => rfl⟩
  | reset =>
    have hl := h.coherent.exited_of_reset ha.2.1
    simp only [next,onPool,hl]
    exact ⟨fun _ => Or.inr (Or.inr (Or.inl (by simp [ListenPc.left]))),nofun⟩
  | poll =>
    have hl : s.listener = .poll := ha.2.1
    refine ⟨fun hb => (hq hb).imp_right hd,fun ht => ?_⟩
    by_cases hb : 0 < s.backlog
    · refine (hq hb).resolve_right ?_
      simp [Deaf,ha.2.2.1,hl,ListenPc.left]
    · simp [next,hb,ListenPc.accepting] at ht
  | accept =>
    have hpool := hp (by rw [show s.listener = .accept from ha.2.1]; rfl)
    exact ⟨fun _ => Or.inl hpool,fun _ => hpool⟩
  | spawn | bind | ready | readyNotify c | test | offer | offered | leave | leaveNotify c =>
    refine ⟨fun hb => (hq hb).imp_right hd,?_⟩
    simp only [next,Enabled,Ready,notifyOne,offerClient] at *
    grind [ListenPc.accepting]
  | _ => exact ⟨fun hb => (hq hb).imp_right hd,hp⟩

theorem Attended.next (h : s.Attended) (ha : s.Enabled a) (hc : s.ConnectsLate a) :
    (s.next a).Attended where
  coherent := h.coherent.next ha
  queued := (h.clients_next ha hc).1
  accepting := (h.clients_next ha hc).2

/-- A client that connects too early can reach `Offer` before the pool. -/
theorem Attended.early_client (h : s.Attended) (ha : s.Enabled a) (hc : ¬s.ConnectsLate a) :
    (s.next a).Leads fun t => ¬t.PoolPresent := by
  simp only [ConnectsLate,Deaf,not_forall,not_or,not_and] at hc
  obtain ⟨rfl,hpool,hfree,hleft,htest⟩ := hc
  have hu := h.coherent.unborn
  have har := h.coherent.armed
  have hacc := mt h.accepting hpool
  have hq : (s.next .connect).Queued := ⟨ha.1,of_not_not hfree,Nat.succ_pos _⟩
  have hl : s.listener.inviting = true ∧ (s.run = true ∨ s.listener = .poll) := by
    have hborn := ha.2
    simp only [Ready] at hborn
    match hpc : s.listener with
    | .ready => exact ⟨rfl,Or.inl (har (by rw [hpc]; rfl) fun hm => hborn.1 (hu.mpr (Or.inl hm)))⟩
    | .readyNotify => exact ⟨rfl,Or.inl (by simpa using htest (Or.inl hpc))⟩
    | .test => exact ⟨rfl,Or.inl (by simpa using htest (Or.inr hpc))⟩
    | .poll => exact ⟨rfl,Or.inr rfl⟩
    | .absent | .bind => simp [hpc] at hborn
    | .accept | .offer | .offering => simp [hpc,ListenPc.accepting] at hacc
    | .leave | .leaveNotify | .exited => simp [hpc,ListenPc.left] at hleft
  obtain ⟨t,ht,hoff⟩ := hq.exists_offer hl.1 (hl.2.imp_right Or.inr)
  exact ⟨t,ht.reach,fun hp => hpool (ht.assigned.symm.trans (hp hoff))⟩

/-- The listener finds the pool when every client connects after it was created, and may miss
it when one does not. -/
theorem pool_present (hr : (system num).ReachableBy ConnectsLate (init num calls) s) :
    s.PoolPresent ∧
    ∀ a, s.Enabled a → ¬s.ConnectsLate a → (s.next a).Leads fun t => ¬t.PoolPresent := by
  have h : s.Attended := hr.invariant attended_init fun _ _ h ha hc => h.next ha hc
  exact ⟨fun hl => h.accepting (by rw [hl]; rfl),fun _ => h.early_client⟩

/-- A client connects while `Start` has launched the listener and not yet created the pool. -/
def earlyClient : List (Action 1) :=
  [.storeRun,.spawn,.bind,.connect,.ready,.readyNotify none,.test,.poll,.accept]

theorem not_pool_present : ¬∀ s : HttpServer 1, Reachable [.wait] s → s.PoolPresent := by
  intro h
  have hr : Reachable [.wait] ((system 1).final (init 1 [.wait]) earlyClient) :=
    ⟨earlyClient,by decide,rfl⟩
  exact nomatch h _ hr rfl

def lateClient : List (Action 1) :=
  [.storeRun,.spawn,.construct,.assign,.bind,.connect,.ready,.readyNotify none,.test,.poll,.accept]

theorem pool_present_late : ((system 1).final (init 1 [.wait]) lateClient).PoolPresent :=
  (pool_present ⟨lateClient,by decide,⟨nofun,nofun,nofun,nofun,nofun,fun _ => Or.inl rfl,nofun,
    nofun,nofun,nofun,nofun,trivial⟩,rfl⟩).1

/-! ## A stop request before the announcement -/

/-- Once a call of `Stop` has returned, the server accepts no more connections. -/
def StopHeeded (s : HttpServer num) : Prop :=
  s.stopped = true → s.run = false ∧
    ∀ t, (system num).Reachable s t → t.run = false ∧ t.accepted = s.accepted

def StopsLate (s : HttpServer num) (a : Action num) : Prop :=
  (∃ h, a = .signal h) ∨ a = .stop → s.listener.announced = true

structure Over (s : HttpServer num) : Prop where
  coherent : s.Coherent
  past : s.listener.past = true

theorem Over.run (h : s.Over) : s.run = false :=
  h.coherent.stopping (ListenPc.left_of_past h.past)

theorem Over.next (h : s.Over) (ha : s.Enabled a) :
    (s.next a).Over ∧ (s.next a).accepted = s.accepted := by
  have hu := h.coherent.unborn
  have ho := h.past
  have hlist : (s.next a).listener.past = true ∧ (s.next a).accepted = s.accepted := by
    cases a with
    | spawn | bind | ready | readyNotify c | test | poll | accept | offer | offered | leave
    | leaveNotify c =>
      simp only [HttpServer.next,Enabled,Ready,notifyOne,offerClient] at *
      grind [ListenPc.past]
    | _ => exact ⟨ho,rfl⟩
  exact ⟨⟨h.coherent.next ha,hlist.1⟩,hlist.2⟩

theorem Over.reachable {t : HttpServer num} (h : s.Over) (hr : (system num).Reachable s t) :
    t.run = false ∧ t.accepted = s.accepted := by
  have ht := hr.invariant (I := fun t => t.Over ∧ t.accepted = s.accepted) ⟨h,rfl⟩
    fun t a ht ha => ⟨(ht.1.next ha).1,(ht.1.next ha).2.trans ht.2⟩
  exact ⟨ht.1.run,ht.2⟩

structure Heeded (s : HttpServer num) : Prop where
  coherent : s.Coherent
  stopped : s.stopped = true → s.listener.past = true

theorem Heeded.stopped_next (h : s.Heeded) (ha : s.Enabled a) (hc : s.StopsLate a)
    (hs : (s.next a).stopped = true) : (s.next a).listener.past = true := by
  have hst := h.stopped
  have hr := h.coherent.running
  cases a with
  | stop | signal g =>
    by_cases hrun : s.running = true
    · exact hst (by simpa [next,hrun] using hs)
    · have hl := hc (by simp)
      exact ListenPc.past_of_announced hl (hr ▸ Bool.eq_false_iff.mpr hrun)
  | stopWait g =>
    by_cases hrun : s.running = true
    · exact hst (by simpa [next,hrun] using hs)
    · have hl := h.coherent.framed g (by rintro he; simp [Enabled,Ready,he] at ha)
      exact ListenPc.past_of_announced hl (hr ▸ Bool.eq_false_iff.mpr hrun)
  | spawn | bind | ready | readyNotify c | test | poll | accept | offer | offered | leave
  | leaveNotify c =>
    have hu := h.coherent.unborn
    simp only [next,Enabled,Ready,notifyOne,offerClient] at *
    grind [ListenPc.past]
  | _ => exact hst hs

theorem Heeded.next (h : s.Heeded) (ha : s.Enabled a) (hc : s.StopsLate a) :
    (s.next a).Heeded where
  coherent := h.coherent.next ha
  stopped := h.stopped_next ha hc

/-- A call that begins before the announcement returns at its guard. -/
theorem Coherent.early_stop (h : s.Coherent) (ha : s.Enabled a) (hc : ¬s.StopsLate a) :
    ¬(s.next a).StopHeeded := by
  simp only [StopsLate,Classical.not_imp,Bool.not_eq_true] at hc
  obtain ⟨hb,hl⟩ := hc
  have hrun : s.running = false := by
    by_contra hrun
    rw [h.running,Bool.not_eq_false] at hrun
    exact nomatch hl.symm.trans (ListenPc.announced_of_serving hrun)
  have hfree : s.Free .main := by
    by_contra hf
    exact nomatch hl.symm.trans (h.framed .main hf)
  obtain ⟨hal,hst,hr,hm,hf⟩ : (s.next a).aborted = false ∧ (s.next a).stopped = true ∧
      (s.next a).run = s.run ∧ (s.next a).main = s.main ∧ (s.next a).frames = s.frames := by
    rcases hb with ⟨g,rfl⟩ | rfl <;>
      exact ⟨ha.1,by simp [HttpServer.next,hrun],rfl,rfl,
        funext fun k => by simp [HttpServer.next,hrun]⟩
  intro hheeded
  obtain ⟨hoff,hlater⟩ := hheeded hst
  by_cases hmain : s.main = .start
  · -- `Start` goes on and sets `run_`
    have hs : (s.next a).Enabled .storeRun := ⟨hal,hm.trans hmain,(congrFun hf .main).trans hfree⟩
    exact nomatch (hlater _ (reachable_step hs)).1
  · exact nomatch (h.armed hl hmain).symm.trans (hr.symm.trans hoff)

/-- A stop request that comes after the announcement takes effect, one that comes before is
lost. -/
theorem stop_heeded (hr : (system num).ReachableBy StopsLate (init num calls) s) :
    s.StopHeeded ∧ ∀ a, s.Enabled a → ¬s.StopsLate a → ¬(s.next a).StopHeeded := by
  have h : s.Heeded :=
    hr.invariant ⟨coherent_init,fun h => nomatch h⟩ fun _ _ h ha hc => h.next ha hc
  refine ⟨fun hs => ?_,fun _ => h.coherent.early_stop⟩
  have ho : s.Over := ⟨h.coherent,h.stopped hs⟩
  exact ⟨ho.run,fun t ht => ho.reachable ht⟩

/-- The signal comes when `Start` has launched the listener, which has not bound its socket. -/
def earlyStop : List (Action 1) := [.storeRun,.spawn,.signal .main]

theorem not_stop_heeded : ¬∀ s : HttpServer 1, Reachable [.wait] s → s.StopHeeded := by
  intro h
  have hr : Reachable [.wait] ((system 1).final (init 1 [.wait]) earlyStop) :=
    ⟨earlyStop,by decide,rfl⟩
  exact nomatch (h _ hr rfl).1

/-- The signal comes when the listener has set `running_`, and the call runs to its end. -/
def lateStop : List (Action 1) :=
  [.storeRun,.spawn,.construct,.assign,.bind,.ready,.await,.signal .main,.stopStore .main,
    .stopWrite .main,.readyNotify none,.test,.leave,.stopWait .main]

theorem stop_heeded_late : ((system 1).final (init 1 [.wait]) lateStop).StopHeeded :=
  (stop_heeded ⟨lateStop,by decide,by simp [lateStop,StopsLate,system,next]; decide,rfl⟩).1

end HttpServer
end Gabby.Http
