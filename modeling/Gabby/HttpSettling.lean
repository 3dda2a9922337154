import Gabby.HttpDescriptors
import Gabby.HttpWork

/-! The server comes to rest: without new connections and signals every schedule ends, and then
the listener waits in `poll` with every accepted connection handled, or the server is gone. -/
namespace Gabby.Http

namespace HttpServer

variable {num : ℤ} {s : HttpServer num} {a : Action num} {calls : List Call}

def Served (s : HttpServer num) : Prop := ∀ k < s.accepted, ∃ p ∈ s.pool, k ∈ p.finished

/-- Nothing is left to do: the listener waits for clients and the main thread for the listener,
or the server is gone, or a call of `Stop` on the main thread ended the loop before `Start` had
seen `running_` set, which then sleeps for good. -/
inductive Settled (s : HttpServer num) : Prop
  | serving (hl : s.listener = .poll) (hb : s.backlog = 0) (hm : s.main = .join) (hs : s.Served)
  | asleep (hl : s.listener = .exited) (hm : s.main = .asleep) (hs : s.Served)
  | gone (hm : s.main = .gone)
  | aborted (hal : s.aborted = true)

/-- What holds as long as `Stop` is called on a thread that may wait for the listener. -/
structure Woken (s : HttpServer num) : Prop where
  calm : s.Calm
  piped : s.Piped
  counted : s.Counted
  awake : s.main = .asleep → s.listener.serving = true → s.listener = .readyNotify

namespace Woken

theorem init : (init num calls).Woken :=
  ⟨calm_init,piped_init,counted_init num calls,fun h => nomatch h⟩

/-- The listener's first notification finds nobody but the main thread. -/
theorem awake_next (h : s.Woken) (ha : s.Enabled a) (hm : (s.next a).main = .asleep)
    (hl : (s.next a).listener.serving = true) : (s.next a).listener = .readyNotify := by
  have hw := h.awake
  cases a with
  | await =>
    have hr := h.calm.pooled.coherent.running
    cases hrun : s.running with
    | true => simp [HttpServer.next,hrun] at hm
    | false => exact absurd (hrun.symm.trans (hr.trans hl)) (by simp)
  | readyNotify c =>
    exfalso
    have hmain : s.main = .asleep := by
      by_contra hne
      simp only [HttpServer.next,notifyOne] at hm
      grind
    have hnobody : ∀ g, s.frames g = [] := fun g => by
      by_contra hg
      exact (h.calm.settled g hg).2.1 hmain
    have hc : s.CanNotify c := ha.2.2.2
    rcases c with _ | _ | ⟨g,j⟩
    · exact hc.1 hmain
    · simp [HttpServer.next] at hm
    · simp [CanNotify,hnobody] at hc
  | ready => rfl
  | _ =>
    simp only [HttpServer.next,Enabled,Ready,notifyOne,onPool,makePool,offerClient,dropMembers,
      beginStop,goOn,waitStop] at *
    grind [ListenPc.serving]

theorem next (h : s.Woken) (ha : s.Enabled a) (hc : s.StopsApart a) : (s.next a).Woken :=
  ⟨h.calm.next ha hc,h.piped.next ha,h.counted.next h.calm.pooled ha,h.awake_next ha⟩

section Halted

variable (h : s.Woken) (hal : s.aborted = false)
  (hstop : ∀ a : Action num, a.Settles → ¬s.Enabled a)
include hal hstop

theorem sleeps_of_halted {g : Host num.toNat} (hg : s.frames g ≠ []) : .asleep ∈ s.frames g := by
  cases hf : s.frames g with
  | nil => exact absurd hf hg
  | cons x fs =>
    cases x with
    | asleep => exact List.mem_cons_self
    | store => exact absurd ⟨hal,by simp [Ready,hf]⟩ (hstop (.stopStore g) trivial)
    | write => exact absurd ⟨hal,by simp [Ready,hf]⟩ (hstop (.stopWrite g) trivial)
    | wait => exact absurd ⟨hal,by simp [Ready,hf]⟩ (hstop (.stopWait g) trivial)

/-- The pool has no step of the threads that may act. -/
theorem pool_run_of_halted {p : ThreadPool num.toNat Unit} (hp : s.pool = some p)
    {bs : List (ThreadPool.Action num.toNat Unit)}
    (hv : (ThreadPool.system num.toNat Unit).Valid p bs)
    (hb : ∀ b ∈ bs, b.Settles ∧ s.Permits b) : bs = [] := by
  refine System.eq_nil_of_halted (fun b hs he => hstop (.pool b) hs.1 ⟨hal,?_,hs.2⟩) hv hb
  rw [PoolEnabled,hp]
  exact he

include h

/-- The listener does not wait for the mutex: its owner runs no signal handler. -/
theorem not_offering_of_halted : s.listener ≠ .offering := by
  intro hl
  have hpooled := h.calm.pooled
  obtain ⟨p,hp⟩ := Option.ne_none_iff_exists'.mp (hpooled.pointed (.inl (hpooled.calling hl)))
  have hx := (hpooled.reached p hp).ordered.exclusive
  have hready : p.mux = none ∨ ∀ k, p.producer () ≠ .lock k := by
    cases hm : p.mux with
    | none => exact .inl rfl
    | some t =>
      cases t with
      | worker i =>
        have hfree : s.Free (.worker i) := by
          by_contra hf
          exact h.calm.unlocked i p hf hp hm
        obtain ⟨bs,hv,ho,hmux,-⟩ := (hpooled.reached p hp).ordered.mayRelease hm
        have hperm : ∀ b ∈ bs, b.Settles ∧ s.Permits b := fun b hb => by
          have howner := ho b hb
          refine ⟨howner.settles,?_⟩
          cases b with
          | sleep j | pass j | stop j | start j l | finish j l =>
            exact (show j = i from howner) ▸ hfree
          | _ => exact howner.elim
        obtain rfl := pool_run_of_halted hal hstop hp hv hperm
        cases hm.symm.trans hmux
      | producer q =>
        refine .inr fun k hk => ?_
        have hholds := (hx.producer q).mpr hm
        simp [hk,OfferPc.holds] at hholds
      | destructor =>
        have hholds := hx.destructor.mpr hm
        have hrun : s.running = true := by
          rw [hpooled.coherent.running,hl]
          rfl
        have hreap := fun hr => hpooled.coherent.not_reaping hrun (.inr (.inl hr))
        simp [hpooled.living p hp hreap,DtorPc.holds] at hholds
  obtain ⟨bs,hv,ho,hidle⟩ := ThreadPool.mayReturn hready
  have hperm : ∀ b ∈ bs, b.Settles ∧ s.Permits b := fun b hb => by
    have hcall := ho b hb
    refine ⟨hcall.settles,?_⟩
    cases b with
    | enter q k | push q k | notify q k v => exact ⟨hl,h.calm.quiet⟩
    | _ => exact hcall.elim
  obtain rfl := pool_run_of_halted hal hstop hp hv hperm
  have hreturned : s.OfferReturned := by simpa [OfferReturned,hp] using hidle
  exact hstop .offered trivial ⟨hal,hl,h.calm.quiet,hreturned⟩

theorem listener_of_halted :
    s.listener = .poll ∧ s.backlog = 0 ∧ s.pipe = 0 ∨ s.listener = .exited := by
  have hq := h.calm.quiet
  have hc := h.calm.pooled.coherent
  cases hl : s.listener with
  | poll =>
    have hwait : ¬(0 < s.backlog ∨ 0 < s.pipe) := fun hb =>
      hstop .poll trivial ⟨hal,hl,hq,hb⟩
    exact .inl ⟨rfl,by omega,by omega⟩
  | exited => exact .inr rfl
  | offering => exact absurd hl (h.not_offering_of_halted hal hstop)
  | absent =>
    have hfree : s.Free .main := by
      by_contra hf
      have hannounced := hc.framed .main hf
      rw [hl] at hannounced
      cases hannounced
    rcases hc.unborn.mp hl with hm | hm
    · exact absurd ⟨hal,hm,hfree⟩ (hstop .storeRun trivial)
    · exact absurd ⟨hal,hm,hfree⟩ (hstop .spawn trivial)
  | readyNotify =>
    obtain ⟨c,hn⟩ := s.exists_canNotify
    exact absurd ⟨hal,hl,hq,hn⟩ (hstop (.readyNotify c) trivial)
  | leaveNotify =>
    obtain ⟨c,hn⟩ := s.exists_canNotify
    exact absurd ⟨hal,hl,hq,hn⟩ (hstop (.leaveNotify c) trivial)
  | bind => exact absurd ⟨hal,hl,hq⟩ (hstop .bind trivial)
  | ready => exact absurd ⟨hal,hl,hq⟩ (hstop .ready trivial)
  | test => exact absurd ⟨hal,hl,hq⟩ (hstop .test trivial)
  | accept => exact absurd ⟨hal,hl,hq⟩ (hstop .accept trivial)
  | offer => exact absurd ⟨hal,hl,hq⟩ (hstop .offer trivial)
  | leave => exact absurd ⟨hal,hl,hq⟩ (hstop .leave trivial)

theorem free_of_halted (g : Host num.toNat) : s.Free g := by
  by_contra hg
  have hsleeps := sleeps_of_halted hal hstop hg
  have hpipe := h.calm.written g _ hsleeps (.inr rfl)
  have hrunning := h.calm.pooled.coherent.running
  rcases h.listener_of_halted hal hstop with ⟨-,-,hp⟩ | hl
  · omega
  · rw [hl] at hrunning
    rcases h.calm.notified g hsleeps with hr | hr
    · cases hrunning.symm.trans hr
    · cases hl.symm.trans hr

theorem pool_of_halted {p : ThreadPool num.toNat Unit} (hp : s.pool = some p) : p.Settled := by
  have hpooled := h.calm.pooled
  have hfree := h.free_of_halted hal hstop
  have hl := h.not_offering_of_halted hal hstop
  have hcall := hpooled.producing p hp hl
  refine ThreadPool.settled_of_halted (hpooled.reached p hp) (fun b hs he => ?_)
    (h.piped.sized (by simp [hp]))
  have hgo : ¬s.Permits b := fun hb =>
    hstop (.pool b) hs ⟨hal,by simpa [PoolEnabled,hp] using he,hb⟩
  cases b with
  | lock i | sleep i | pass i | stop i | start i k | crash i | finish i k =>
    exact hgo (hfree (.worker i))
  | enter q k | notify q k v => cases hcall.symm.trans he.1
  | push q k => cases hcall.symm.trans he
  | offer q | destroy | wake i => exact hs
  | close | set | notifyAll | join i | leave =>
    by_cases hm : s.main = .reap
    · exact hgo ⟨hm,hfree .main⟩
    · have hd := hpooled.living p hp hm
      simp [ThreadPool.Enabled,hd] at he

/-- A pool that is not being destroyed has run all its tasks. -/
theorem served_of_halted (hassigned : s.assigned = true) (hm : s.main ≠ .reap) : s.Served := by
  have hpooled := h.calm.pooled
  obtain ⟨p,hp⟩ := Option.ne_none_iff_exists'.mp (hpooled.pointed (.inl hassigned))
  intro k hk
  refine ⟨p,hp,?_⟩
  have howed : s.owed = 0 := by
    rcases h.listener_of_halted hal hstop with ⟨hl,-⟩ | hl <;> simp [owed,hl]
  have hcalls := h.counted.calls p hp
  cases h.pool_of_halted hal hstop hp with
  | idle hd htasks hrun hworkers hcall =>
    rw [hrun]
    refine ((h.counted.numbered p hp).mem_offered (by omega)).resolve_right fun hpending => ?_
    exact hpending.2 (hcall ())
  | returned hd => cases hd.symm.trans (hpooled.living p hp hm)

theorem settled_of_halted : s.Settled := by
  have hpooled := h.calm.pooled
  have hfree := h.free_of_halted hal hstop .main
  have hlistener := h.listener_of_halted hal hstop
  have hunborn : s.listener ≠ .absent := fun hl => by
    rcases hlistener with ⟨he,-⟩ | he <;> cases hl.symm.trans he
  cases hm : s.main with
  | start => exact absurd (hpooled.coherent.unborn.mpr (.inl hm)) hunborn
  | spawn => exact absurd (hpooled.coherent.unborn.mpr (.inr hm)) hunborn
  | construct => exact absurd ⟨hal,hm,hfree⟩ (hstop .construct trivial)
  | assign => exact absurd ⟨hal,hm,hfree⟩ (hstop .assign trivial)
  | await => exact absurd ⟨hal,hm,hfree⟩ (hstop .await trivial)
  | reset => exact absurd ⟨hal,hm,hfree⟩ (hstop .reset trivial)
  | gone => exact .gone hm
  | asleep =>
    have hs := h.served_of_halted hal hstop (h.piped.shared (.inr (.inl hm))) (by simp [hm])
    rcases hlistener with ⟨hl,-⟩ | hl
    · cases hl.symm.trans (h.awake hm (by rw [hl]; rfl))
    · exact .asleep hl hm hs
  | idle =>
    cases hcs : s.calls with
    | nil =>
      by_cases hd : s.dying = true
      · exact absurd ⟨hal,hm,hfree,hcs,hd⟩ (hstop .members trivial)
      · exact absurd ⟨hal,hm,hfree,hcs,hd⟩ (hstop .destroy trivial)
    | cons c cs =>
      cases c with
      | stop => exact absurd ⟨hal,hm,hfree,by simp [hcs]⟩ (hstop .stop trivial)
      | wait => exact absurd ⟨hal,hm,hfree,by simp [hcs]⟩ (hstop .wait trivial)
  | join =>
    have hassigned := h.piped.shared (.inr (.inr (.inl hm)))
    have hjoinable := (hpooled.attached (.inl hassigned)).resolve_right (by simp [hm])
    rcases hlistener with ⟨hl,hb,-⟩ | hl
    · exact .serving hl hb hm (h.served_of_halted hal hstop hassigned (by simp [hm]))
    · exact absurd ⟨hal,hm,hfree,hjoinable,hl⟩ (hstop .join trivial)
  | reap =>
    obtain ⟨p,hp,hd⟩ := h.piped.reaping hm
    cases h.pool_of_halted hal hstop hp with
    | idle hidle => exact absurd hidle hd
    | returned hreturned =>
      have hpool : s.PoolReturned := by simpa [PoolReturned,hp] using hreturned
      exact absurd ⟨hal,hm,hfree,hpool⟩ (hstop .reaped trivial)

end Halted

end Woken

/-- Without new clients, signals and failures every schedule comes to an end, however many
connections wait. Where it cannot go on, the server waits for clients and has handled all that
it accepted, or it is gone, provided that every call of `Stop` was made where it may wait. -/
theorem server_settles (hr : (system num).ReachableBy StopsApart (init num calls) s)
    {as : List (Action num)} (hv : (system num).Valid s as) (hs : ∀ a ∈ as, a.Settles) :
    as.length ≤ s.work ∧
      ((system num).Along StopsApart s as →
        (∀ a : Action num, a.Settles → ¬((system num).final s as).Enabled a) →
        ((system num).final s as).Settled) := by
  have hwoken : s.Woken := hr.invariant .init fun _ _ h ha hc => h.next ha hc
  constructor
  · exact hwoken.piped.length_le_work hv hs
  · intro hc hstop
    have hfinal : ((system num).final s as).Woken :=
      System.along_invariant (fun _ _ h ha hc => h.next ha hc) hwoken hv hc
    cases hal : ((system num).final s as).aborted with
    | true => exact .aborted hal
    | false => exact hfinal.settled_of_halted hal hstop

/-- A server that waits for clients is at rest. -/
theorem halted_of_waiting (hl : s.listener = .poll) (hb : s.backlog = 0) (hpipe : s.pipe = 0)
    (hm : s.main = .join) (hf : ∀ h, s.frames h = [])
    (hp : ∀ p ∈ s.pool, p.destructor = .idle ∧ (∀ i, p.worker i = .asleep) ∧
      p.producer () = .idle) (a : Action num) (ha : a.Settles) : ¬s.Enabled a := by
  rintro ⟨-,hr⟩
  cases a with
  | pool b =>
    rcases hpool : s.pool with _ | p
    · simp [Ready,PoolEnabled,hpool] at hr
    · obtain ⟨hd,hw,hc⟩ := hp p hpool
      simp only [Ready,PoolEnabled,hpool] at hr
      exact ThreadPool.halted_of_idle hd hw (fun _ => hc) b ha hr.1
  | connect | signal g | fail => exact ha
  | _ => simp [Ready,hl,hb,hpipe,hm,hf] at hr

/-- The client of `oneClient` has been served, and the threads go on to where they wait. -/
def toRest : List (Action 1) := [.pool (.finish Process.worker 0),.wait,
  .pool (.lock Process.worker),.pool (.sleep Process.worker),.test]

theorem halted_toRest (a : Action 1) (ha : a.Settles) :
    ¬((system 1).final (init 1 [.wait]) (Process.oneClient ++ toRest)).Enabled a := by
  refine halted_of_waiting (by decide) (by decide) (by decide) (by decide) (by decide)
    (fun p hp => ?_) a ha
  obtain rfl := Option.some.inj hp
  exact ⟨by decide,by decide,by decide⟩

/-- From the connection of a client to where the server waits for the next one. -/
theorem server_settles_oneClient :
    let s := (system 1).final (init 1 [.wait]) (Process.oneClient.take 10)
    let as := Process.oneClient.drop 10 ++ toRest
    as.length ≤ s.work ∧ ((system 1).final s as).Settled := by
  intro s as
  have hr : (system 1).ReachableBy StopsApart (init 1 [.wait]) s :=
    ⟨_,by decide,by simp [Process.oneClient,StopsApart,Begins],rfl⟩
  have hs : ∀ a ∈ as, a.Settles := by
    simp [as,toRest,Process.oneClient,Action.Settles,ThreadPool.Action.Settles]
  obtain ⟨hle,hsettled⟩ := server_settles hr (by decide) hs
  exact ⟨hle,hsettled (by simp [as,toRest,Process.oneClient,StopsApart,Begins]) halted_toRest⟩

end HttpServer

/-! ## The replies -/

namespace Process

variable {σ : Type} {num : ℤ} {handler : Exec (Conn σ) Exn Unit} {clients : Task → Client}
  {app : σ} {s : Process num σ} {calls : List Call} {as : List (HttpServer.Action num)}

def StopsApart (s : Process num σ) (a : HttpServer.Action num) : Prop := s.server.StopsApart a

theorem server_valid (hv : (system num handler clients).Valid s as) :
    (HttpServer.system num).Valid s.server as ∧
      ((system num handler clients).final s as).server =
        (HttpServer.system num).final s.server as := by
  induction as generalizing s with
  | nil => exact ⟨trivial,rfl⟩
  | cons a as ih =>
    obtain ⟨ha,hv⟩ := hv
    have hrest := ih hv
    rw [show ((system num handler clients).next s a).server = _ from server_next a] at hrest
    exact ⟨⟨ha.2,hrest.1⟩,hrest.2⟩

theorem serial_woken (hr : (system num handler clients).ReachableBy StopsApart
    (init num calls app) s) : s.Serial handler clients app ∧ s.server.Woken := by
  have hstep : ∀ (s : Process num σ) a, s.Serial handler clients app ∧ s.server.Woken →
      (system num handler clients).enabled s a → s.StopsApart a →
      (s.next handler clients a).Serial handler clients app ∧
        (s.next handler clients a).server.Woken := fun s a h ha hc => by
    rw [server_next]
    exact ⟨h.1.next ha,h.2.next ha.2 hc⟩
  exact hr.invariant ⟨serial_init,.init⟩ hstep

/-- As many tasks as connections have ended. -/
theorem Serial.replies_all (h : s.Serial handler clients app) (hs : s.server.Served) :
    s.replies.length = s.server.accepted := by
  refine h.bounded.antisymm ?_
  rcases Nat.eq_zero_or_pos s.server.accepted with hzero | hpos
  · rw [hzero]
    exact Nat.zero_le _
  · obtain ⟨p,hp,-⟩ := hs 0 hpos
    have hsub : List.range s.server.accepted ⊆ p.finished := fun k hk => by
      obtain ⟨q,hq,hkq⟩ := hs k (List.mem_range.mp hk)
      obtain rfl : q = p := Option.some.inj (hq.symm.trans hp)
      exact hkq
    have hle := (List.subperm_of_subset List.nodup_range hsub).length_le
    rwa [List.length_range,h.finished p hp] at hle

/-- Where the process comes to rest, every client that was accepted has the reply that it would
have got had they been served one after the other. -/
theorem accepted_served (hr : (system num handler clients).ReachableBy StopsApart
      (init num calls app) s)
    (hv : (system num handler clients).Valid s as) (hs : ∀ a ∈ as, a.Settles) :
    let t := (system num handler clients).final s as
    as.length ≤ s.server.work ∧
      ((system num handler clients).Along StopsApart s as →
        (∀ a : HttpServer.Action num, a.Settles → ¬t.Enabled a) →
        (∃ r ∈ t.replies, ¬r.Done) ∨ t.server.aborted = true ∨ t.server.main = .gone ∨
          serveAll handler app ((List.range t.server.accepted).map clients) =
            (t.replies,t.app)) := by
  intro t
  obtain ⟨hserver,hfinal⟩ := server_valid hv
  refine ⟨?_,fun hc hstop => ?_⟩
  · exact (serial_woken hr).2.piped.length_le_work hserver hs
  · obtain ⟨hserial,hwoken⟩ := serial_woken (hr.trans ⟨as,hv,hc,rfl⟩)
    by_cases hdone : ∀ r ∈ t.replies, r.Done
    · cases hal : t.server.aborted with
      | true => exact .inr (.inl rfl)
      | false =>
        have hhalted : ∀ a : HttpServer.Action num, a.Settles → ¬t.server.Enabled a :=
          fun a ha he => hstop a ha ⟨hdone,he⟩
        have hall : t.server.Served → serveAll handler app
            ((List.range t.server.accepted).map clients) = (t.replies,t.app) := fun hserved =>
          hserial.replies_all hserved ▸ hserial.served
        cases hwoken.settled_of_halted hal hhalted with
        | serving hl hb hm hserved => exact .inr (.inr (.inr (hall hserved)))
        | asleep hl hm hserved => exact .inr (.inr (.inr (hall hserved)))
        | gone hm => exact .inr (.inr (.inl hm))
        | aborted habort => cases hal.symm.trans habort
    · simp only [not_forall] at hdone
      obtain ⟨r,hr,hnot⟩ := hdone
      exact .inl ⟨r,hr,hnot⟩

section ToRest

open HttpServer (toRest)

theorem done_toRest : ∀ r ∈ ((system 1 greet greetings).final (init 1 [.wait] ())
    (oneClient ++ toRest)).replies, r.Done := by
  have hone : ((system 1 greet greetings).final (init 1 [.wait] ()) (oneClient ++ toRest)).replies =
      [(serveClient greet () (greetings 0)).1] := rfl
  rw [hone]
  exact List.forall_mem_singleton.mpr done_greet

theorem valid_toRest :
    (system 1 greet greetings).Valid (init 1 [.wait] ()) (oneClient ++ toRest) := by
  have hv : (HttpServer.system 1).Valid (HttpServer.init 1 [.wait]) (oneClient ++ toRest) := by
    decide
  have hsplit : oneClient ++ toRest = (oneClient ++ toRest.dropLast) ++ [.test] := rfl
  rw [hsplit] at hv ⊢
  exact valid_of_done hv fun r hr => done_toRest r (mem_replies_final hr [.test])

theorem no_begin_toRest : ∀ a ∈ oneClient ++ toRest, ∀ h, ¬HttpServer.Begins a h := by
  simp [toRest,oneClient,HttpServer.Begins]

theorem accepted_served_oneClient :
    let s := (system 1 greet greetings).final (init 1 [.wait] ()) (oneClient.take 10)
    let as := oneClient.drop 10 ++ toRest
    let t := (system 1 greet greetings).final s as
    as.length ≤ s.server.work ∧
      serveAll greet () ((List.range t.server.accepted).map greetings) = (t.replies,t.app) := by
  intro s as t
  have happ : oneClient ++ toRest = oneClient.take 10 ++ as := rfl
  have hv := valid_toRest
  have hdone := done_toRest
  rw [happ] at hv hdone
  obtain ⟨hbefore,hafter⟩ := System.valid_append.mp hv
  have halong : ∀ {s : Process 1 Unit} {bs}, (∀ a ∈ bs, a ∈ oneClient ++ toRest) →
      (system 1 greet greetings).Along StopsApart s bs := fun hb =>
    System.along_of_mem fun a ha _ h hbegin => absurd hbegin (no_begin_toRest a (hb a ha) h)
  have hs : ∀ a ∈ as, a.Settles := by
    simp [as,toRest,oneClient,HttpServer.Action.Settles,ThreadPool.Action.Settles]
  have hfinal : t.server =
      (HttpServer.system 1).final (HttpServer.init 1 [.wait]) (oneClient ++ toRest) := by
    have hserver := (server_valid hv).2
    rw [System.final_append] at hserver
    rw [happ]
    exact hserver
  obtain ⟨hle,hserved⟩ := accepted_served ⟨_,hbefore,halong fun a ha => by
    rw [happ]
    exact List.mem_append_left _ ha,rfl⟩ hafter hs
  refine ⟨hle,?_⟩
  rcases hserved (halong fun a ha => by
      rw [happ]
      exact List.mem_append_right _ ha)
    fun a ha he => HttpServer.halted_toRest a ha (hfinal ▸ he.2) with
    ⟨r,hr,hnot⟩ | habort | hgone | hall
  · rw [System.final_append] at hdone
    exact absurd (hdone r hr) hnot
  · rw [hfinal] at habort
    exact absurd habort (by decide)
  · rw [hfinal] at hgone
    exact absurd hgone (by decide)
  · exact hall

end ToRest

end Process
end Gabby.Http
