import Gabby.HttpStop

/-! How a call of `Stop` gets stuck: on the listener's own thread, on a worker whose mutex the
listener waits for, before the pool is there, and beside another sleeper on `running_`. Every
call that misses the condition of `StopsApart` can end in one of these ways. -/
namespace Gabby.Http
namespace HttpServer

variable {num : ℤ} {s t : HttpServer num} {a : Action num} {calls : List Call}
variable {g h : Host num.toNat} {fs gs : List StopPc} {i : Fin num.toNat}

/-! ## Sleepers that nobody releases -/

/-- Only a notification releases a call that sleeps. -/
theorem sleeps_next (hs : (.asleep::fs) <:+ s.frames h) (hn : ¬s.Notifies) (ha : s.Enabled a) :
    (.asleep::fs) <:+ (s.next a).frames h := by
  have hf := frames_next ha h
  generalize s.frames h = old at hf hs
  generalize (s.next a).frames h = new at hf ⊢
  cases hf with
  | same => exact hs
  | begin => exact hs.trans (List.suffix_cons _ _)
  | wake _ _ hl => exact absurd hl hn
  -- the call on top is not the one that sleeps
  | store | write | sleep =>
    exact ((List.suffix_cons_iff.mp hs).resolve_left (by simp)).trans (List.suffix_cons _ _)
  | ret => exact (List.suffix_cons_iff.mp hs).resolve_left (by simp)

theorem ne_nil_of_sleeps (hs : (.asleep::fs) <:+ s.frames h) : s.frames h ≠ [] := by
  rintro he
  simp [he] at hs

/-- A call that sleeps in every continuation is stuck. -/
theorem not_neverStuck {I : HttpServer num → Prop} (hI : I s) (hal : s.aborted = false)
    (hstep : ∀ t a, I t → t.Enabled a → I (t.next a))
    (hsl : ∀ t, I t → (.asleep::fs) <:+ t.frames h) : ¬s.NeverStuck := by
  intro hn
  obtain ⟨gs,hgs⟩ := hsl s hI
  obtain ⟨t,ht,hlen⟩ := hn hal h gs fs hgs.symm
  have hle := (hsl t (ht.invariant hI hstep)).length_le
  rw [List.length_cons] at hle
  omega

abbrev GetsStuck (s : HttpServer num) : Prop := s.Leads fun t => ¬t.NeverStuck

/-- The listener sleeps on itself. -/
theorem stuck_of_listener (hal : s.aborted = false) (hs : (.asleep::fs) <:+ s.frames .listener) :
    ¬s.NeverStuck :=
  not_neverStuck (I := fun s => (.asleep::fs) <:+ s.frames .listener) hs hal
    (fun _ _ hs ha => sleeps_next hs (fun hn => ne_nil_of_sleeps hs hn.1) ha) fun _ hs => hs

/-! ### After the end of the listener -/

structure Ended (h : Host num.toNat) (fs : List StopPc) (s : HttpServer num) : Prop where
  coherent : s.Coherent
  exited : s.listener = .exited
  sleeps : (.asleep::fs) <:+ s.frames h

theorem Ended.next (he : Ended h fs s) (ha : s.Enabled a) : Ended h fs (s.next a) where
  coherent := he.coherent.next ha
  exited := by
    have hl := he.exited
    have hu := he.coherent.unborn
    cases a with
    | leaveNotify c => rfl
    | spawn | bind | ready | readyNotify c | test | poll | accept | offer | offered | leave =>
      simp only [HttpServer.next,Enabled,Ready,notifyOne,offerClient] at *
      grind
    | _ => exact hl
  sleeps := sleeps_next he.sleeps (by simp [Notifies,he.exited]) ha

theorem Ended.stuck (he : Ended h fs s) (hal : s.aborted = false) : ¬s.NeverStuck :=
  not_neverStuck he hal (fun _ _ he ha => he.next ha) fun _ he => he.sleeps

/-- The last notification goes to another sleeper. -/
theorem stuck_of_leaveNotify {c : Option (Sleeper num.toNat)} (hc : s.Coherent)
    (hal : s.aborted = false) (hfree : s.Free .listener) (hl : s.listener = .leaveNotify)
    (hn : s.CanNotify c) (hs : (.asleep::fs) <:+ (s.notifyOne c).frames h) : s.GetsStuck := by
  have ha : s.Enabled (.leaveNotify c) := ⟨hal,hl,hfree,hn⟩
  have he : Ended h fs (s.next (.leaveNotify c)) := ⟨hc.next ha,rfl,hs⟩
  exact leads_step _ ha (.now (he.stuck hal))

/-! ### While the listener waits for the mutex -/

structure Jammed (i : Fin num.toNat) (fs : List StopPc) (s : HttpServer num) : Prop where
  pooled : s.Pooled
  held : HeldBy i s
  sleeps : (.asleep::fs) <:+ s.frames (.worker i)

/-- The worker that owns the mutex does not act, so the listener does not get it. -/
theorem Jammed.waiting_next (hj : Jammed i fs s) (ha : s.Enabled a) :
    (s.next a).listener = .offering ∧ ∃ p k, (s.next a).pool = some p ∧
      p.mux = some (.worker i) ∧ p.producer () = .lock k := by
  have hl := hj.held.calling
  have hc := hj.pooled.coherent
  obtain ⟨p,k,hp,hm,hk⟩ := hj.held.waiting
  cases a with
  | pool b =>
    have hb : p.Enabled b := by simpa [PoolEnabled,hp] using ha.2.1
    have hx := (hj.pooled.reached p hp).ordered.exclusive
    have ho : ¬b.OfOwner i := by
      have hperm := ha.2.2
      intro ho
      cases b with
      | sleep j | pass j | stop j | start j l | finish j l =>
        exact hj.held.handling ((show j = i from ho) ▸ hperm)
      | _ => exact ho
    exact ⟨hl,p.next b,k,by simp [next,hp],hx.kept_next hm hb ho,
      ThreadPool.lock_next (by simp [hm]) hk hb⟩
  | construct =>
    have hn := hj.pooled.unbuilt (Or.inr (Or.inr ha.2.1))
    simp [hp] at hn
  | reset =>
    have he := hc.exited_of_reset ha.2.1
    simp [hl] at he
  | reaped =>
    have hr : s.running = true := by rw [hc.running,hl]; rfl
    exact absurd (Or.inr (Or.inl ha.2.1)) (hc.not_reaping hr)
  | offered =>
    have hr := ha.2.2.2
    simp only [OfferReturned,hp,hk] at hr
    cases hr
  | spawn | bind | ready | readyNotify c | test | poll | accept | offer | leave
  | leaveNotify c =>
    have hu := hc.unborn
    simp only [HttpServer.next,Enabled,Ready,notifyOne,offerClient] at *
    grind
  | _ => exact ⟨hl,p,k,hp,hm,hk⟩

theorem Jammed.next (hj : Jammed i fs s) (ha : s.Enabled a) : Jammed i fs (s.next a) := by
  have hs := sleeps_next hj.sleeps (by simp [Notifies,hj.held.calling]) ha
  have hw := hj.waiting_next ha
  exact ⟨hj.pooled.next ha,⟨hw.1,ne_nil_of_sleeps hs,hw.2⟩,hs⟩

theorem Jammed.stuck (hj : Jammed i fs s) (hal : s.aborted = false) : ¬s.NeverStuck :=
  not_neverStuck hj hal (fun _ _ hj ha => hj.next ha) fun _ hj => hj.sleeps

/-! ### Before the pool -/

/-- The listener is about to call `Offer` on a null pointer, and the main thread sleeps. -/
structure Orphaned (fs : List StopPc) (s : HttpServer num) : Prop where
  offer : s.listener = .offer
  unassigned : s.assigned = false
  sleeps : (.asleep::fs) <:+ s.frames .main

theorem Orphaned.next (ho : Orphaned fs s) (ha : s.Enabled a) : Orphaned fs (s.next a) := by
  have hs := sleeps_next ho.sleeps (by simp [Notifies,ho.offer]) ha
  have hf := ne_nil_of_sleeps ho.sleeps
  have hl := ho.offer
  have hu := ho.unassigned
  have hsame : (s.next a).listener = .offer ∧ (s.next a).assigned = false := by
    cases a with
    | spawn | assign | bind | ready | readyNotify c | test | poll | accept | offer | offered
    | leave | leaveNotify c =>
      simp only [HttpServer.next,Enabled,Ready,notifyOne,offerClient] at *
      grind
    | reset => exact ⟨hl,rfl⟩
    | _ => exact ⟨hl,hu⟩
  exact ⟨hsame.1,hsame.2,hs⟩

theorem Orphaned.stuck (ho : Orphaned fs s) (hal : s.aborted = false) : ¬s.NeverStuck :=
  not_neverStuck ho hal (fun _ _ ho ha => ho.next ha) fun _ ho => ho.sleeps

/-! ## Calls that fall asleep -/

/-- A call of `Stop` on the thread sleeps on top of `fs`; `run_` and the pipe may have changed. -/
def doze (s : HttpServer num) (h : Host num.toNat) (fs : List StopPc) (run : Bool) (pipe : ℕ) :
    HttpServer num :=
  { s with frames := Function.update s.frames h (.asleep::fs), run := run, pipe := pipe }

theorem reach_doze_wait (hal : s.aborted = false) (hr : s.running = true)
    (hs : s.frames h = .wait::fs) : (system num).Reachable s (s.doze h fs s.run s.pipe) := by
  have ha : s.Enabled (.stopWait h) := ⟨hal,by simp [Ready,hs]⟩
  have he : s.next (.stopWait h) = s.doze h fs s.run s.pipe := by
    simp [next,waitStop,doze,hr,hs]
  exact he ▸ reachable_step ha

theorem reach_doze_write (hal : s.aborted = false) (hr : s.running = true)
    (hs : s.frames h = .write::fs) :
    (system num).Reachable s (s.doze h fs s.run (s.pipe + 1)) := by
  have ha : s.Enabled (.stopWrite h) := ⟨hal,by simp [Ready,hs]⟩
  have hf : (s.next (.stopWrite h)).frames h = .wait::fs := by simp [next,hs]
  have hw := reach_doze_wait (s := s.next (.stopWrite h)) hal hr hf
  simpa [next,goOn,doze] using (reachable_step ha).trans hw

theorem reach_doze_store (hal : s.aborted = false) (hr : s.running = true)
    (hs : s.frames h = .store::fs) :
    (system num).Reachable s (s.doze h fs false (s.pipe + 1)) := by
  have ha : s.Enabled (.stopStore h) := ⟨hal,by simp [Ready,hs]⟩
  have hf : (s.next (.stopStore h)).frames h = .write::fs := by simp [next,hs]
  have hw := reach_doze_write (s := s.next (.stopStore h)) hal hr hf
  simpa [next,goOn,doze] using (reachable_step ha).trans hw

/-- While `running_` is set, a call of `Stop` can go on until it sleeps. -/
theorem exists_doze (hal : s.aborted = false) (hr : s.running = true) {x : StopPc}
    (hs : s.frames h = x::fs) : ∃ run pipe, (system num).Reachable s (s.doze h fs run pipe) ∧
      (s.run = false → run = false) ∧ s.pipe ≤ pipe := by
  cases x with
  | store => exact ⟨_,_,reach_doze_store hal hr hs,fun _ => rfl,Nat.le_succ _⟩
  | write => exact ⟨_,_,reach_doze_write hal hr hs,id,Nat.le_succ _⟩
  | wait => exact ⟨_,_,reach_doze_wait hal hr hs,id,le_rfl⟩
  | asleep =>
    refine ⟨s.run,s.pipe,?_,id,le_rfl⟩
    rw [doze,← hs,Function.update_eq_self]
    exact .refl s

structure Begun (h : Host num.toNat) (s t : HttpServer num) : Prop where
  alive : t.aborted = s.aborted
  run : t.run = s.run
  running : t.running = s.running
  pool : t.pool = s.pool
  assigned : t.assigned = s.assigned
  main : t.main = s.main
  frames : t.frames = Function.update s.frames h (.store::s.frames h)

theorem begun_next (hb : Begins a h) (hr : s.running = true) : Begun h s (s.next a) := by
  rcases hb with rfl | ⟨rfl,rfl⟩ <;>
    exact ⟨rfl,rfl,rfl,rfl,rfl,rfl,if_pos hr⟩

theorem Pooled.reachable (hp : s.Pooled) (hr : (system num).Reachable s t) : t.Pooled :=
  hr.invariant hp fun _ _ h ha => h.next ha

structure Fallen (h : Host num.toNat) (s t : HttpServer num) : Prop where
  pooled : t.Pooled
  alive : t.aborted = false
  run : t.run = false
  pipe : 0 < t.pipe
  running : t.running = true
  assigned : t.assigned = s.assigned
  main : t.main = s.main
  frames : t.frames = Function.update s.frames h (.asleep::s.frames h)

/-- A call can fall asleep before anything else happens. -/
theorem exists_fallen (hp : s.Pooled) (ha : s.Enabled a) (hb : Begins a h)
    (hr : s.running = true) : ∃ t, (system num).Reachable (s.next a) t ∧ Fallen h s t := by
  have hn := begun_next hb hr
  have hf : (s.next a).frames h = .store::s.frames h := by simp [hn.frames]
  have hreach := reach_doze_store (hn.alive.trans ha.1) (hn.running.trans hr) hf
  exact ⟨_,hreach,(hp.next ha).reachable hreach,hn.alive.trans ha.1,rfl,Nat.succ_pos _,
    hn.running.trans hr,hn.assigned,hn.main,by simp [doze,hn.frames]⟩

/-! ## Two sleepers -/

namespace Slept

/-- When all calls in progress sleep, it is enough to look at the end of the listener's loop. -/
theorem getsStuck (hs : Slept h fs s) (hall : ∀ k, s.frames k ≠ [] → ∃ ks, s.frames k = .asleep::ks)
    (hleave : ∀ t, Slept h fs t → t.frames = s.frames → t.main = s.main → t.listener = .leave →
      t.GetsStuck) : s.GetsStuck := by
  obtain ⟨t,hp,ht,hl⟩ := hs.leavesOrHeld
  refine .after hp.reach.reachable ?_
  cases hl with
  | inl hl => exact hleave t ht hp.frames hp.main hl
  | inr hi =>
    obtain ⟨i,hi⟩ := hi
    obtain ⟨ks,hks⟩ := hall (.worker i) (hp.frames ▸ hi.handling)
    exact .now (Jammed.stuck ⟨ht.pooled,hi,by rw [hp.frames,hks]⟩ ht.alive)

theorem getsStuck_of_leave (hs : Slept h fs s) (hl : s.listener = .leave)
    {c : Option (Sleeper num.toNat)} (hn : s.CanNotify c)
    (hsl : (.asleep::gs) <:+ (s.notifyOne c).frames g) : s.GetsStuck := by
  have ha : s.Enabled .leave := ⟨hs.alive,hl,hs.free⟩
  exact leads_step .leave ha
    (stuck_of_leaveNotify (hs.pooled.coherent.next ha) hs.alive hs.free rfl hn hsl)

/-- The notification goes to the main thread, which sleeps in `Start`. -/
theorem getsStuck_of_asleep (hs : Slept h fs s)
    (hall : ∀ k, s.frames k ≠ [] → ∃ ks, s.frames k = .asleep::ks) (hm : s.main = .asleep) :
    s.GetsStuck := by
  refine hs.getsStuck hall fun t ht _ hmain hl => ?_
  have hsl : (.asleep::fs) <:+ (t.notifyOne (some .start)).frames h := by simp [ht.stack]
  exact ht.getsStuck_of_leave (c := some .start) hl (hmain.trans hm) hsl

/-- The main thread gets to its wait in `Start` when `running_` is already cleared. -/
theorem getsStuck_of_await (hs : Slept h fs s)
    (hall : ∀ k, s.frames k ≠ [] → ∃ ks, s.frames k = .asleep::ks) (hm : s.main = .await)
    (hfree : s.Free .main) : s.GetsStuck := by
  refine hs.getsStuck hall fun t ht hf hmain hl => ?_
  have ha : t.Enabled .leave := ⟨ht.alive,hl,ht.free⟩
  have hb : (t.next .leave).Enabled .await :=
    ⟨ht.alive,hmain.trans hm,(congrFun hf .main).trans hfree⟩
  have hsl : (.asleep::fs) <:+
      (((t.next .leave).next .await).notifyOne (some .start)).frames h := by
    simp [next,ht.stack]
  exact leads_step .leave ha (leads_step .await hb
    (stuck_of_leaveNotify (c := some .start) ((ht.pooled.coherent.next ha).next hb) ht.alive
      ht.free rfl rfl hsl))

end Slept

/-- A listener that serves is on its way to a call of `Offer`, or in one. -/
theorem Coherent.inviting_or_offering (hc : s.Coherent) (hrun : s.run = true)
    (hr : s.running = true) : s.listener.inviting = true ∨ s.listener = .offering := by
  have hserving := hc.running
  have hleft := hc.stopping
  rw [hr] at hserving
  match hl : s.listener with
  | .readyNotify | .test | .poll | .accept | .offer => exact Or.inl rfl
  | .offering => exact Or.inr rfl
  | .leave => exact nomatch hrun.symm.trans (hleft (by rw [hl]; rfl))
  | .absent | .bind | .ready | .leaveNotify | .exited => simp [hl,ListenPc.serving] at hserving

/-! ## The owner of the mutex -/

/-- A worker owns the mutex while a call of `Stop` is in progress on it and `run_` is set. -/
structure Owning (i : Fin num.toNat) (s : HttpServer num) : Prop where
  pooled : s.Pooled
  alive : s.aborted = false
  free : s.Free .listener
  assigned : s.assigned = true
  run : s.run = true
  running : s.running = true
  handling : s.frames (.worker i) ≠ []
  owned : ∃ p, s.pool = some p ∧ p.mux = some (.worker i)

theorem HeldBy.getsStuck (hi : HeldBy i s) (hp : s.Pooled) (hal : s.aborted = false)
    (hr : s.running = true) : s.GetsStuck := by
  obtain ⟨x,ks,hk⟩ := List.exists_cons_of_ne_nil hi.handling
  obtain ⟨run,pipe,hreach,-⟩ := exists_doze hal hr hk
  have hj : Jammed i ks (s.doze (.worker i) ks run pipe) :=
    ⟨hp.reachable hreach,⟨hi.calling,by simp [doze],hi.waiting⟩,by simp [doze]⟩
  exact .after hreach (.now (hj.stuck hal))

namespace Owning

theorem of_offer (hs : Owning i s) (hl : s.listener = .offer) : s.GetsStuck := by
  obtain ⟨p,hp,hm⟩ := hs.owned
  have ha : s.Enabled .offer := ⟨hs.alive,hl,hs.free⟩
  have hi : HeldBy i (s.next .offer) :=
    ⟨by simp [next,hs.assigned],hs.handling,p.next (.offer ()),p.calls,
      by simp [next,hs.assigned,hp],hm,by simp [ThreadPool.next]⟩
  exact leads_step .offer ha
    (hi.getsStuck (hs.pooled.next ha) (by simp [next,hs.assigned]) hs.running)

/-- A client connects, and the listener waits for the mutex. -/
theorem of_inviting (hs : Owning i s) (hl : s.listener.inviting = true) : s.GetsStuck := by
  have ha : s.Enabled .connect := ⟨hs.alive,ListenPc.born_of_inviting hl⟩
  have hq : (s.next .connect).Queued := ⟨hs.alive,hs.free,Nat.succ_pos _⟩
  obtain ⟨t,ht,hoff⟩ := hq.exists_offer hl (Or.inl hs.run)
  have hpool : t.Pooled := (hs.pooled.next ha).reachable ht.reach
  have hown : Owning i t :=
    ⟨hpool,ht.alive.trans hs.alive,(ht.frames .listener).mpr hs.free,ht.assigned.trans hs.assigned,
      ht.run.trans hs.run,by rw [hpool.coherent.running,hoff]; rfl,
      mt (ht.frames (.worker i)).mp hs.handling,ht.pool ▸ hs.owned⟩
  exact leads_step .connect ha (.after ht.reach (hown.of_offer hoff))

theorem of_idle (hs : Owning i s) (hl : s.listener = .offering) {p : ThreadPool num.toNat Unit}
    (hp : s.pool = some p) (hi : p.producer () = .idle) : s.GetsStuck := by
  have ha : s.Enabled .offered := ⟨hs.alive,hl,hs.free,by simpa [OfferReturned,hp] using hi⟩
  have hs' : Owning i (s.next .offered) := { hs with pooled := hs.pooled.next ha }
  exact leads_step .offered ha (hs'.of_inviting rfl)

theorem of_offering (hs : Owning i s) (hl : s.listener = .offering) : s.GetsStuck := by
  obtain ⟨p,hp,hm⟩ := hs.owned
  cases hi : p.producer () with
  | idle => exact hs.of_idle hl hp hi
  | lock k => exact HeldBy.getsStuck ⟨hl,hs.handling,p,k,hp,hm,hi⟩ hs.pooled hs.alive hs.running
  | push k =>
    have hx := ((hs.pooled.reached p hp).ordered.exclusive.producer ()).mp (by rw [hi]; rfl)
    exact nomatch hm.symm.trans hx
  | notify k =>
    obtain ⟨w,hw⟩ := p.exists_canNotify
    have hen : p.Enabled (.notify () k w) := ⟨hi,hw⟩
    have ha : s.Enabled (.pool (.notify () k w)) :=
      ⟨hs.alive,by simpa [PoolEnabled,hp] using hen,hl,hs.free⟩
    have hs' : Owning i (s.next (.pool (.notify () k w))) :=
      { hs with
        pooled := hs.pooled.next ha
        owned := ⟨p.next (.notify () k w),by simp [next,hp],hm⟩ }
    exact leads_step _ ha (hs'.of_idle hl (by simp [next,hp]; rfl) (by simp [ThreadPool.next]))

theorem getsStuck (hs : Owning i s) : s.GetsStuck := by
  cases hs.pooled.coherent.inviting_or_offering hs.run hs.running with
  | inl hl => exact hs.of_inviting hl
  | inr hl => exact hs.of_offering hl

end Owning

/-! ## A null pointer -/

/-- The main thread cannot make `pool_` point to the pool, and a client connects. -/
theorem getsStuck_of_unassigned (hp : s.Pooled) (hal : s.aborted = false)
    (hfree : s.Free .listener) (hrun : s.run = true) (hr : s.running = true)
    (hs : s.assigned = false) (hm : s.frames .main ≠ []) : s.GetsStuck := by
  have hl := (hp.coherent.inviting_or_offering hrun hr).resolve_right fun hl =>
    nomatch hs.symm.trans (hp.calling hl)
  have ha : s.Enabled .connect := ⟨hal,ListenPc.born_of_inviting hl⟩
  have hq : (s.next .connect).Queued := ⟨hal,hfree,Nat.succ_pos _⟩
  obtain ⟨t,ht,hoff⟩ := hq.exists_offer hl (Or.inl hrun)
  have hpool : t.Pooled := (hp.next ha).reachable ht.reach
  have halt : t.aborted = false := ht.alive.trans hal
  obtain ⟨x,fs,hfs⟩ := List.exists_cons_of_ne_nil (mt (ht.frames .main).mp hm)
  obtain ⟨run,pipe,hdoze,-⟩ := exists_doze halt (by rw [hpool.coherent.running,hoff]; rfl) hfs
  have ho : Orphaned fs (t.doze .main fs run pipe) := ⟨hoff,ht.assigned.trans hs,by simp [doze]⟩
  exact leads_step .connect ha (.after (ht.reach.trans hdoze) (.now (ho.stuck halt)))

/-! ## Every call that misses the condition -/

namespace Fallen

theorem slept (hf : Fallen h s t) (hq : s.Free .listener) (hh : h ≠ .listener)
    (hs : s.assigned = true) : Slept h (s.frames h) t where
  pooled := hf.pooled
  alive := hf.alive
  free := by simp [Free,hf.frames,hh.symm,hq]
  run := hf.run
  pipe := hf.pipe
  running := hf.running
  assigned := hf.assigned.trans hs
  stack := by simp [hf.frames]

theorem all_asleep (hf : Fallen h s t) (ho : ∀ k, s.frames k ≠ [] → k = h) (k : Host num.toNat)
    (hk : t.frames k ≠ []) : ∃ ks, t.frames k = .asleep::ks := by
  rw [hf.frames] at hk ⊢
  by_cases hkh : k = h
  · subst hkh
    exact ⟨s.frames k,by simp⟩
  · exact absurd (ho k (by simpa [hkh] using hk)) hkh

end Fallen

namespace Calm

theorem getsStuck_listener (hc : s.Calm) (ha : s.Enabled a) (hb : Begins a .listener)
    (hr : s.running = true) : (s.next a).GetsStuck := by
  obtain ⟨t,hreach,ht⟩ := exists_fallen hc.pooled ha hb hr
  have hs : (.asleep::s.frames .listener) <:+ t.frames .listener := by simp [ht.frames]
  exact .after hreach (.now (stuck_of_listener ht.alive hs))

theorem getsStuck_thread (hc : s.Calm) (ha : s.Enabled a) (hb : Begins a h)
    (hr : s.running = true) (hh : h ≠ .listener) (hg : s.frames g ≠ []) (hgh : g ≠ h) :
    (s.next a).GetsStuck := by
  obtain ⟨t,hreach,hf⟩ := exists_fallen hc.pooled ha hb hr
  have ht := hf.slept hc.quiet hh (hc.assigned hr hg)
  obtain ⟨x,gs,hxs⟩ := List.exists_cons_of_ne_nil hg
  have htg : t.frames g = x::gs := by simp [hf.frames,hgh,hxs]
  obtain ⟨run,pipe,hdoze,hrun,hpipe⟩ := exists_doze ht.alive ht.running htg
  have hgl : g ≠ .listener := fun he => hg (he ▸ hc.quiet)
  have hframes : (t.doze g gs run pipe).frames =
      Function.update (Function.update s.frames h (.asleep::s.frames h)) g (.asleep::gs) := by
    simp [doze,hf.frames]
  have hs : Slept h (s.frames h) (t.doze g gs run pipe) :=
    { ht with
      pooled := ht.pooled.reachable hdoze
      free := by simp [Free,hframes,hgl.symm,hh.symm,show s.frames .listener = [] from hc.quiet]
      run := hrun ht.run
      pipe := ht.pipe.trans_le hpipe
      stack := by simp [hframes,hgh.symm] }
  refine .after (hreach.trans hdoze) (hs.getsStuck (fun k hk => ?_) fun u hu hfu _ hl => ?_)
  · rw [hframes] at hk ⊢
    by_cases hkg : k = g
    · exact ⟨gs,by simp [hkg]⟩
    by_cases hkh : k = h
    · exact ⟨s.frames h,by simp [hkh,hgh.symm]⟩
    · exact absurd (hc.single k g (by simpa [hkg,hkh] using hk) hg) hkg
  · have hug : u.frames g = .asleep::gs := by simp [hfu,hframes]
    have hsl : (.asleep::s.frames h) <:+ (u.notifyOne (some (.stop g 0))).frames h := by
      simp [hgh,hu.stack]
    exact hu.getsStuck_of_leave (c := some (.stop g 0)) hl (by simp [CanNotify,hug]) hsl

theorem getsStuck_nested (hc : s.Calm) (ha : s.Enabled a) (hb : Begins a h)
    (hr : s.running = true) (hh : h ≠ .listener) (ho : ∀ k, s.frames k ≠ [] → k = h)
    (hs : .asleep ∈ s.frames h) : (s.next a).GetsStuck := by
  obtain ⟨t,hreach,hf⟩ := exists_fallen hc.pooled ha hb hr
  have ht := hf.slept hc.quiet hh (hc.assigned hr (List.ne_nil_of_mem hs))
  obtain ⟨j,hj⟩ := List.mem_iff_getElem?.mp hs
  obtain ⟨-,fs,hfs⟩ := hc.asleep_top hj
  refine .after hreach (ht.getsStuck (hf.all_asleep ho) fun u hu hfu _ hl => ?_)
  have hsl : (.asleep::fs) <:+ (u.notifyOne (some (.stop h 0))).frames h := by
    simp [hu.stack,hfs]
  exact hu.getsStuck_of_leave (c := some (.stop h 0)) hl (by simp [CanNotify,hu.stack]) hsl

theorem getsStuck_started (hc : s.Calm) (ha : s.Enabled a) (hb : Begins a h)
    (hr : s.running = true) (hh : h ≠ .listener) (ho : ∀ k, s.frames k ≠ [] → k = h)
    (hs : s.assigned = true) (hm : s.main = .asleep ∨ s.main = .await ∧ h ≠ .main) :
    (s.next a).GetsStuck := by
  obtain ⟨t,hreach,hf⟩ := exists_fallen hc.pooled ha hb hr
  have ht := hf.slept hc.quiet hh hs
  refine .after hreach ?_
  rcases hm with hm | ⟨hm,hmain⟩
  · exact ht.getsStuck_of_asleep (hf.all_asleep ho) (hf.main.trans hm)
  · have hfree : s.frames .main = [] := by
      by_contra hne
      exact hmain (ho .main hne).symm
    exact ht.getsStuck_of_await (hf.all_asleep ho) (hf.main.trans hm)
      (by simp [Free,hf.frames,hmain.symm,hfree])

/-- The listener still waits for clients, so a call that begins now finds `run_` set. -/
theorem run_of_idle (hc : s.Calm) (hr : s.running = true) (ho : ∀ k, s.frames k = []) :
    s.run = true := by
  by_contra hrun
  obtain ⟨k,hk⟩ := hc.pending (Bool.eq_false_iff.mpr hrun) hr
  exact hk (ho k)

theorem idle_of_unassigned (hc : s.Calm) (hr : s.running = true) (hs : s.assigned = false)
    (k : Host num.toNat) : s.frames k = [] := by
  by_contra hk
  exact nomatch hs.symm.trans (hc.assigned hr hk)

/-- The pool is there and `pool_` does not point to it yet. -/
theorem main_assign (hc : s.Calm) (hr : s.running = true) (hs : s.assigned = false)
    (hp : s.pool ≠ none) : s.main = .assign := by
  rcases hc.pooled.linked hp with hass | hm | hm
  · exact nomatch hs.symm.trans hass
  · exact hm
  · exact absurd (Or.inr (Or.inl hm)) (hc.pooled.coherent.not_reaping hr)

theorem getsStuck_owner (hc : s.Calm) (ha : s.Enabled a) (hb : Begins a (.worker i))
    (hr : s.running = true) (ho : ∀ k, s.frames k ≠ [] → k = .worker i)
    {p : ThreadPool num.toNat Unit} (hp : s.pool = some p) (hm : p.mux = some (.worker i)) :
    (s.next a).GetsStuck := by
  have hw : s.frames (.worker i) = [] := by
    by_contra hne
    exact hc.unlocked i p hne hp hm
  have hidle : ∀ k, s.frames k = [] := fun k => by_contra fun hk => hk (ho k hk ▸ hw)
  have hrun := hc.run_of_idle hr hidle
  have hn := begun_next hb hr
  have hfree : ∀ k, k ≠ .worker i → (s.next a).frames k = [] := fun k hk => by
    simp [hn.frames,hk,hidle]
  have hwork : (s.next a).frames (.worker i) ≠ [] := by simp [hn.frames]
  have hpool := hc.pooled.next ha
  have hal := hn.alive.trans ha.1
  by_cases hs : s.assigned = true
  · have hown : Owning i (s.next a) :=
      ⟨hpool,hal,hfree .listener nofun,hn.assigned.trans hs,hn.run.trans hrun,
        hn.running.trans hr,hwork,p,hn.pool.trans hp,hm⟩
    exact hown.getsStuck
  · -- the main thread first makes `pool_` point to the pool
    have hmain := hc.main_assign hr (Bool.eq_false_iff.mpr hs) (by simp [hp])
    have hassign : (s.next a).Enabled .assign := ⟨hal,hn.main.trans hmain,hfree .main nofun⟩
    have hown : Owning i ((s.next a).next .assign) :=
      ⟨hpool.next hassign,hal,hfree .listener nofun,rfl,hn.run.trans hrun,hn.running.trans hr,
        hwork,p,hn.pool.trans hp,hm⟩
    exact leads_step .assign hassign hown.getsStuck

theorem getsStuck_unassigned (hc : s.Calm) (ha : s.Enabled a) (hb : Begins a .main)
    (hr : s.running = true) (hs : s.assigned = false) : (s.next a).GetsStuck := by
  have hidle := hc.idle_of_unassigned hr hs
  have hn := begun_next hb hr
  exact getsStuck_of_unassigned (hc.pooled.next ha) (hn.alive.trans ha.1)
    (by simp [Free,hn.frames,hidle]) (hn.run.trans (hc.run_of_idle hr hidle))
    (hn.running.trans hr) (hn.assigned.trans hs) (by simp [hn.frames])

/-- The main thread makes `pool_` point to the pool and gets to its wait in `Start`. -/
theorem getsStuck_worker (hc : s.Calm) (ha : s.Enabled a) (hb : Begins a (.worker i))
    (hr : s.running = true) (hs : s.assigned = false) : (s.next a).GetsStuck := by
  have hidle := hc.idle_of_unassigned hr hs
  have hp : s.pool ≠ none := by
    obtain rfl : a = .signal (.worker i) := hb.resolve_right (by simp)
    intro hnone
    simpa [Ready,Alive,hnone] using ha.2
  obtain ⟨t,hreach,hf⟩ := exists_fallen hc.pooled ha hb hr
  have hfree : ∀ k, k ≠ .worker i → t.frames k = [] := fun k hk => by simp [hf.frames,hk,hidle]
  have hassign : t.Enabled .assign :=
    ⟨hf.alive,hf.main.trans (hc.main_assign hr hs hp),hfree .main (by simp)⟩
  have ht : Slept (.worker i) (s.frames (.worker i)) (t.next .assign) :=
    ⟨hf.pooled.next hassign,hf.alive,hfree .listener (by simp),hf.run,hf.pipe,hf.running,rfl,
      by simp [HttpServer.next,hf.frames]⟩
  refine .after hreach (leads_step .assign hassign ?_)
  exact ht.getsStuck_of_await (hf.all_asleep fun k hk => absurd (hidle k) hk) rfl
    (hfree .main (by simp))

/-- A call that misses the condition can get stuck, itself or another one. -/
theorem getsStuck (hc : s.Calm) (ha : s.Enabled a) (hb : Begins a h) (hr : s.running = true)
    (hm : ¬s.MayStopOn h) : (s.next a).GetsStuck := by
  by_cases hh : h = .listener
  · exact hc.getsStuck_listener ha (hh ▸ hb) hr
  by_cases hg : ∃ g, s.frames g ≠ [] ∧ g ≠ h
  · obtain ⟨g,hg,hgh⟩ := hg
    exact hc.getsStuck_thread ha hb hr hh hg hgh
  have ho : ∀ k, s.frames k ≠ [] → k = h := fun k hk => by_contra fun hkh => hg ⟨k,hk,hkh⟩
  by_cases hs : .asleep ∈ s.frames h
  · exact hc.getsStuck_nested ha hb hr hh ho hs
  by_cases hown : ∃ i p, h = .worker i ∧ s.pool = some p ∧ p.mux = some (.worker i)
  · obtain ⟨i,p,rfl,hp,hmux⟩ := hown
    exact hc.getsStuck_owner ha hb hr ho hp hmux
  by_cases hass : s.assigned = true
  · refine hc.getsStuck_started ha hb hr hh ho hass ?_
    by_contra hmain
    simp only [not_or,not_and,not_not] at hmain
    refine hm ⟨hh,fun i p hi hp hmux => hown ⟨i,p,hi,hp,hmux⟩,ho,hs,hass,hmain⟩
  · have hass := Bool.eq_false_iff.mpr hass
    match h,hh with
    | .main,_ => exact hc.getsStuck_unassigned ha hb hr hass
    | .worker i,_ => exact hc.getsStuck_worker ha hb hr hass

end Calm

/-- While every call of `Stop` that waits is on a thread of its own kind, none gets stuck; a
call that is not may get stuck. -/
theorem never_stuck (hr : (system num).ReachableBy StopsApart (init num calls) s) :
    s.NeverStuck ∧
    ∀ a, s.Enabled a → ¬s.StopsApart a → (s.next a).Leads fun t => ¬t.NeverStuck := by
  have hc : s.Calm := hr.invariant calm_init fun _ _ h ha hc => h.next ha hc
  refine ⟨hc.neverStuck,fun a ha hm => ?_⟩
  simp only [StopsApart,not_forall] at hm
  obtain ⟨h,hb,hrun,hm⟩ := hm
  exact hc.getsStuck ha hb hrun hm

/-- A signal on the main thread, which waits for the listener in `Wait`. -/
def stopOnMain : List (Action 1) :=
  [.storeRun,.spawn,.construct,.assign,.bind,.ready,.readyNotify none,.await,.wait,.signal .main,
    .stopStore .main,.stopWrite .main,.stopWait .main]

theorem never_stuck_main : ((system 1).final (init 1 [.wait]) stopOnMain).NeverStuck := by
  have hmay : MayStopOn ((system 1).final (init 1 [.wait]) (stopOnMain.take 9)) .main :=
    ⟨nofun,nofun,by decide,by decide,rfl,nofun,nofun⟩
  refine (never_stuck ⟨stopOnMain,by decide,?_,rfl⟩).1
  rw [← List.take_append_drop 9 stopOnMain]
  refine System.along_append.mpr ⟨?_,?_⟩
  · simp [stopOnMain,StopsApart,Begins]
  · refine ⟨fun h hb _ => ?_,?_⟩
    · obtain rfl : h = .main := by simpa [Begins,eq_comm] using hb
      exact hmay
    · simp [stopOnMain,StopsApart,Begins]

/-- A signal on the listener, which waits for clients. -/
def stopOnListener : List (Action 1) :=
  [.storeRun,.spawn,.construct,.assign,.bind,.ready,.readyNotify none,.test,.await,.wait,
    .signal .listener,.stopStore .listener,.stopWrite .listener,.stopWait .listener]

theorem not_never_stuck : ¬∀ s : HttpServer 1, Reachable [.wait] s → s.NeverStuck := by
  intro h
  have hr : Reachable [.wait] ((system 1).final (init 1 [.wait]) stopOnListener) :=
    ⟨stopOnListener,by decide,rfl⟩
  have hs : [.asleep] <:+ ((system 1).final (init 1 [.wait]) stopOnListener).frames .listener := by
    decide
  exact stuck_of_listener rfl hs (h _ hr)

end HttpServer
end Gabby.Http
