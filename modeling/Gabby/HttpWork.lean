import Gabby.HttpStop
import Gabby.ThreadPoolSettling

/-! The work that is left for the threads of the server: without new connections and signals
every step takes something from it. -/
namespace Gabby.Http

open ThreadPool (sum_update_add)

/-! ## The measure -/

/-- `Stop` ends the loop when the listener next comes to its test. -/
def ListenPc.work (run : Bool) : ListenPc → ℕ
  | .exited => 0
  | .accept | .leaveNotify => 2
  | .leave => 3
  | .test => 4
  | .poll => bif run then 3 else 5
  | .offering => 5
  | .readyNotify => 6
  | .ready => 7
  | .bind | .absent => 8
  | .offer => 16

/-- The pool that is made and its destructor are paid for in advance. -/
def MainPc.work (n : ℕ) : MainPc → ℕ
  | .gone | .reset => 0
  | .idle | .join | .asleep => 1
  | .await | .reap => 2
  | .assign => 4 * n + 11
  | .construct => 7 * n + 12
  | .spawn => 7 * n + 13
  | .start => 7 * n + 14

def StopPc.work : StopPc → ℕ
  | .asleep => 0
  | .wait => 1
  | .write => 2
  | .store => 5

theorem ListenPc.work_le (l : ListenPc) (r r' : Bool) : l.work r ≤ l.work r' + 2 := by
  cases l <;> cases r <;> cases r' <;> simp [work]

theorem StopPc.sum_set_wait {fs : List StopPc} {j : ℕ} (hj : fs[j]? = some .asleep) :
    ((fs.set j .wait).map work).sum = (fs.map work).sum + 1 := by
  induction fs generalizing j with
  | nil => simp at hj
  | cons x fs ih =>
    cases j with
    | zero =>
      obtain rfl : x = .asleep := by simpa using hj
      simp [work,Nat.add_comm]
    | succ j =>
      have hrest := ih (j:=j) (by simpa using hj)
      simp only [List.set_cons_succ,List.map_cons,List.sum_cons,hrest]
      omega

namespace HttpServer

variable {num : ℤ} {s : HttpServer num} {a : Action num} {calls : List Call}

def stops (s : HttpServer num) : ℕ := ∑ h, ((s.frames h).map StopPc.work).sum

/-- The steps that the threads can still take on their own. -/
def work (s : HttpServer num) : ℕ :=
  s.main.work num.toNat + (bif s.assigned then 4 * num.toNat + 8 else 0) + 6 * s.calls.length +
    (bif s.dying then 0 else 13) + (bif s.aborted then 0 else 1) + s.listener.work s.run +
    15 * s.backlog + s.stops + s.pool.elim 0 ThreadPool.work

/-- A step that comes from no client and no signal, that is no failure of a system call and no
spurious wake-up. -/
def Action.Settles : Action num → Prop
  | .connect | .signal _ | .fail => False
  | .pool b => b.Settles
  | _ => True

theorem stops_update (g : Host num.toNat) (fs : List StopPc) :
    ∑ h, ((Function.update s.frames g fs h).map StopPc.work).sum +
      ((s.frames g).map StopPc.work).sum = s.stops + (fs.map StopPc.work).sum :=
  sum_update_add s.frames (fun fs => (fs.map StopPc.work).sum) g fs

theorem stops_goOn {g : Host num.toNat} {x : StopPc} (hx : (s.frames g).head? = some x)
    (pc : StopPc) : (s.goOn g pc).stops + x.work = s.stops + pc.work := by
  obtain ⟨fs,hfs⟩ := List.head?_eq_some_iff.mp hx
  have hsum := stops_update g (pc::fs) (s:=s)
  simp only [stops,goOn_frames,hfs,List.tail_cons,List.map_cons,List.sum_cons] at hsum ⊢
  omega

theorem stops_beginStop (g : Host num.toNat) : (s.beginStop g).stops ≤ s.stops + 5 := by
  have hsum := stops_update g (.store::s.frames g) (s:=s)
  simp only [List.map_cons,List.sum_cons,StopPc.work] at hsum
  simp only [stops,beginStop_frames] at hsum ⊢
  split
  · omega
  · exact Nat.le_add_right _ _

theorem stops_waitStop {g : Host num.toNat} (hx : (s.frames g).head? = some .wait) :
    (s.waitStop g).stops < s.stops := by
  obtain ⟨fs,hfs⟩ := List.head?_eq_some_iff.mp hx
  have hasleep := stops_update g (.asleep::fs) (s:=s)
  have hreturn := stops_update g fs (s:=s)
  simp only [hfs,List.map_cons,List.sum_cons,StopPc.work] at hasleep hreturn
  simp only [stops,waitStop_frames,hfs,List.tail_cons] at hasleep hreturn ⊢
  split
  · omega
  · omega

/-- A notification lets one sleeper go on. -/
theorem work_notifyOne {c : Option (Sleeper num.toNat)} (hc : s.CanNotify c) (n : ℕ) :
    (s.notifyOne c).main.work n + (s.notifyOne c).stops ≤ s.main.work n + s.stops + 1 := by
  match c, hc with
  | none, _ => simp [stops]
  | some .start, hc =>
    have hm : s.main = .asleep := hc
    simp [stops,hm,MainPc.work]
    omega
  | some (.stop g j), hc =>
    have hsum := stops_update g ((s.frames g).set j .wait) (s:=s)
    rw [StopPc.sum_set_wait hc] at hsum
    have hframes : (s.notifyOne (some (.stop g j))).frames =
        Function.update s.frames g ((s.frames g).set j .wait) := by
      funext h
      by_cases hg : g = h
      · subst hg
        simp
      · simp [hg,Function.update_of_ne (Ne.symm hg)]
    simp only [stops,hframes] at hsum ⊢
    simp
    omega

/-! ### What the measure needs of a reachable state -/

/-- The pipe is written by calls of `Stop` only, the pool that the main thread waits for or
destroys is there and has a thread, and so is the connection that the listener accepts. -/
structure Piped (s : HttpServer num) : Prop where
  pooled : s.Pooled
  writing : ∀ h, .write ∈ s.frames h → s.run = false
  piped : 0 < s.pipe → s.run = false ∧ s.main ≠ .start
  shared : s.main = .await ∨ s.main = .asleep ∨ s.main = .join ∨ s.main = .reset →
    s.assigned = true
  offered : s.listener = .accept → 0 < s.backlog
  sized : s.pool ≠ none → 1 ≤ num.toNat
  reaping : s.main = .reap → ∃ p, s.pool = some p ∧ p.destructor ≠ .idle

theorem piped_init : (init num calls).Piped where
  pooled := pooled_init
  writing _ h := absurd h List.not_mem_nil
  piped h := absurd h (Nat.lt_irrefl 0)
  shared h := by simp [init] at h
  offered h := nomatch h
  sized h := absurd rfl h
  reaping h := nomatch h

namespace Piped

theorem started (h : s.Piped) {g : Host num.toNat} (hg : s.frames g ≠ []) : s.main ≠ .start := by
  intro hm
  have hl := h.pooled.coherent.unborn.mpr (.inl hm)
  have hannounced := h.pooled.coherent.framed g hg
  rw [hl] at hannounced
  cases hannounced

theorem run_next (ha : s.Enabled a) (hr : s.run = false) (hm : s.main ≠ .start) :
    (s.next a).run = false ∧ (s.next a).main ≠ .start := by
  cases a with
  | storeRun => exact absurd ha.2.1 hm
  | _ =>
    simp only [HttpServer.next,Enabled,Ready,notifyOne,onPool,makePool,offerClient,dropMembers,
      beginStop,goOn,waitStop] at *
    grind

theorem writing_next (h : s.Piped) (ha : s.Enabled a) (g : Host num.toNat)
    (hg : .write ∈ (s.next a).frames g) : (s.next a).run = false := by
  have hold : .write ∈ s.frames g → (s.next a).run = false := fun hw =>
    (run_next ha (h.writing g hw) (h.started (List.ne_nil_of_mem hw))).1
  have hf := frames_next ha g
  generalize s.frames g = old at hf hold
  generalize (s.next a).frames g = new at hf hg
  cases hf with
  | same => exact hold hg
  | store fs he =>
    subst he
    rfl
  | begin => exact hold ((List.mem_cons.mp hg).resolve_left nofun)
  | sleep =>
    exact hold (List.mem_cons_of_mem _ ((List.mem_cons.mp hg).resolve_left nofun))
  | write | ret => exact hold (by simp_all)
  | wake fs j => exact hold ((List.mem_or_eq_of_mem_set hg).resolve_right (by simp))

theorem piped_next (h : s.Piped) (ha : s.Enabled a) (hp : 0 < (s.next a).pipe) :
    (s.next a).run = false ∧ (s.next a).main ≠ .start := by
  by_cases hw : ∃ g, a = .stopWrite g
  · obtain ⟨g,rfl⟩ := hw
    have hmem : .write ∈ s.frames g := List.mem_of_mem_head? ha.2
    exact run_next ha (h.writing g hmem) (h.started (List.ne_nil_of_mem hmem))
  · have hpipe : (s.next a).pipe = s.pipe := by
      cases a with
      | stopWrite g => exact absurd ⟨g,rfl⟩ hw
      | _ => rfl
    obtain ⟨hr,hm⟩ := h.piped (hpipe ▸ hp)
    exact run_next ha hr hm

theorem shared_next (h : s.Piped) (ha : s.Enabled a)
    (hm : (s.next a).main = .await ∨ (s.next a).main = .asleep ∨ (s.next a).main = .join ∨
      (s.next a).main = .reset) : (s.next a).assigned = true := by
  have hs := h.shared
  cases a with
  | stop | destroy | bind | ready | test | poll | accept | offered | leave | fail | signal g
  | stopStore g | stopWrite g | stopWait g | connect | pool b => exact hs hm
  | _ =>
    simp only [HttpServer.next,Enabled,Ready,notifyOne,onPool,makePool,offerClient,
      dropMembers] at * <;> grind [CanNotify]

theorem offered_next (h : s.Piped) (ha : s.Enabled a) (hl : (s.next a).listener = .accept) :
    0 < (s.next a).backlog := by
  have ho := h.offered
  cases a with
  | poll =>
    by_contra hb
    rw [show (s.next .poll).listener = _ from if_neg hb] at hl
    cases hl
  | connect => exact Nat.succ_pos _
  | offer =>
    by_cases hassigned : s.assigned = true
    · simp [HttpServer.next,hassigned] at hl
    · exact ho (by simpa [HttpServer.next,hassigned] using hl)
  | test => cases hr : s.run <;> simp [HttpServer.next,hr] at hl
  | spawn | bind | ready | readyNotify c | accept | offered | leave | leaveNotify c => cases hl
  | _ => exact ho hl

theorem sized_next (h : s.Piped) (hp : (s.next a).pool ≠ none) : 1 ≤ num.toNat := by
  have hs := h.sized
  cases a with
  | construct =>
    by_cases hnum : num < 1
    · exact absurd (if_pos hnum) hp
    · omega
  | reset | pool b => exact hs fun he => hp (by simp [HttpServer.next,he])
  | offer => exact hs fun he => hp (by simp [HttpServer.next,he])
  | reaped => exact absurd rfl hp
  | _ => exact hs hp

theorem reaping_next (h : s.Piped) (ha : s.Enabled a) (hm : (s.next a).main = .reap) :
    ∃ p, (s.next a).pool = some p ∧ p.destructor ≠ .idle := by
  have hr := h.reaping
  cases a with
  | reset =>
    have hassigned := h.shared (.inr (.inr (.inr ha.2.1)))
    obtain ⟨p,hp⟩ := Option.ne_none_iff_exists'.mp (h.pooled.pointed (.inl hassigned))
    exact ⟨p.next .destroy,by simp [HttpServer.next,hp],nofun⟩
  | pool b =>
    obtain ⟨p,hp,hd⟩ := hr hm
    refine ⟨p.next b,by simp [HttpServer.next,hp],fun hi => hd ?_⟩
    cases b <;> first | exact hi | cases hi
  | offer =>
    obtain ⟨p,hp,hd⟩ := hr hm
    cases hassigned : s.assigned with
    | false => exact ⟨p,by simp [HttpServer.next,hp,hassigned],hd⟩
    | true => exact ⟨p.next (.offer ()),by simp [HttpServer.next,hp,hassigned],hd⟩
  | stop | destroy | bind | ready | test | poll | accept | offered | leave | fail | signal g
  | stopStore g | stopWrite g | stopWait g | connect => exact hr hm
  | _ =>
    simp only [HttpServer.next,notifyOne,makePool,dropMembers] at *
    grind

theorem next (h : s.Piped) (ha : s.Enabled a) : (s.next a).Piped :=
  ⟨h.pooled.next ha,h.writing_next ha,h.piped_next ha,h.shared_next ha,h.offered_next ha,
    h.sized_next,h.reaping_next ha⟩

end Piped

theorem pool_work_le {k : ℕ} {f : ThreadPool num.toNat Unit → ThreadPool num.toNat Unit}
    (hf : ∀ p, (f p).work ≤ p.work + k) (o : Option (ThreadPool num.toNat Unit)) :
    (o.map f).elim 0 ThreadPool.work ≤ o.elim 0 ThreadPool.work + k := by
  cases o with
  | none => exact Nat.zero_le _
  | some p => exact hf p

theorem work_make {p : ThreadPool num.toNat Unit} (hp : ThreadPool.make num Unit = some p) :
    p.work = 3 * num.toNat := by
  have hinit : p = ThreadPool.init num.toNat Unit := by
    unfold ThreadPool.make at hp
    split at hp
    · cases hp
    · exact (Option.some.inj hp).symm
  subst hinit
  simp [ThreadPool.work,ThreadPool.init,WorkerPc.work,OfferPc.work,DtorPc.work,Nat.mul_comm]

theorem work_destroy_le (p : ThreadPool num.toNat Unit) :
    (p.next .destroy).work ≤ p.work + (4 * num.toNat + 4) := by
  simp only [ThreadPool.work,ThreadPool.next,DtorPc.work]
  omega

theorem work_offer_le (p : ThreadPool num.toNat Unit) :
    (p.next (.offer ())).work ≤ p.work + 10 := by
  simp only [ThreadPool.work,ThreadPool.next,ThreadPool.setProducer,Finset.univ_unique,
    Finset.sum_singleton,PUnit.default_eq_unit,Function.update_self,OfferPc.work]
  omega

def Action.OfMain : Action num → Prop
  | .storeRun | .spawn | .construct | .assign | .await | .stop | .wait | .join | .reset | .reaped
  | .destroy | .members => True
  | _ => False

def Action.OfListener : Action num → Prop
  | .bind | .ready | .readyNotify _ | .test | .poll | .accept | .offer | .offered | .leave
  | .leaveNotify _ => True
  | _ => False

/-- A step of a call of `Stop` that found `running_` set. -/
def Action.OfStop : Action num → Prop
  | .stopStore _ | .stopWrite _ | .stopWait _ => True
  | _ => False

theorem work_main_lt (h : s.Piped) (ha : s.Enabled a) (hmain : a.OfMain) :
    (s.next a).work < s.work := by
  obtain ⟨hal,hr⟩ := ha
  cases a with
  | storeRun =>
    have hm : s.main = .start := hr.1
    have hl := h.pooled.coherent.unborn.mpr (.inl hm)
    simp only [work,HttpServer.next,stops,hm,hl,MainPc.work,ListenPc.work]
    omega
  | spawn =>
    have hm : s.main = .spawn := hr.1
    have hl := h.pooled.coherent.unborn.mpr (.inr hm)
    simp only [work,HttpServer.next,stops,hm,hl,MainPc.work,ListenPc.work]
    omega
  | construct =>
    have hm : s.main = .construct := hr.1
    have hp := h.pooled.unbuilt (.inr (.inr hm))
    cases hmake : ThreadPool.make num Unit with
    | none => simp [work,HttpServer.next,stops,hm,hp,hmake,MainPc.work]
    | some p =>
      have hw := work_make hmake
      simp [work,HttpServer.next,stops,hm,hp,hmake,MainPc.work,hw]
      omega
  | assign =>
    have hm : s.main = .assign := hr.1
    have hassigned := h.pooled.early (by rw [hm]; rfl)
    simp only [work,HttpServer.next,stops,hm,hassigned,MainPc.work,cond_true,cond_false]
    omega
  | await =>
    have hm : s.main = .await := hr.1
    simp only [work,HttpServer.next,stops,hm,MainPc.work]
    cases s.running <;> simp
  | stop =>
    have hstops := stops_beginStop .main (s:=s)
    obtain ⟨cs,hcs⟩ := List.head?_eq_some_iff.mp hr.2.2
    simp only [work,HttpServer.next,stops,hcs,List.tail_cons,List.length_cons] at hstops ⊢
    simp at hstops ⊢
    omega
  | wait =>
    have hm : s.main = .idle := hr.1
    obtain ⟨cs,hcs⟩ := List.head?_eq_some_iff.mp hr.2.2
    cases hassigned : s.assigned <;>
      simp [work,HttpServer.next,stops,hm,hcs,hassigned,MainPc.work]
  | join =>
    have hm : s.main = .join := hr.1
    simp [work,HttpServer.next,stops,hm,MainPc.work]
  | reset =>
    have hm : s.main = .reset := hr.1
    have hassigned := h.shared (.inr (.inr (.inr hm)))
    have hpool := pool_work_le work_destroy_le s.pool
    simp [work,HttpServer.next,stops,hm,hassigned,MainPc.work] at hpool ⊢
    omega
  | reaped =>
    have hm : s.main = .reap := hr.1
    simp [work,HttpServer.next,stops,hm,MainPc.work]
    omega
  | destroy =>
    obtain ⟨hm,-,hcs,hd⟩ := hr
    cases hrun : s.running <;> simp [work,HttpServer.next,stops,hm,hcs,hd,hrun]
  | members =>
    have hm : s.main = .idle := hr.1
    cases hj : s.joinable <;> cases hassigned : s.assigned <;>
      simp [work,HttpServer.next,stops,hm,hal,hj,hassigned,MainPc.work]
  | _ => exact hmain.elim

theorem work_listener_lt (h : s.Piped) (ha : s.Enabled a) (hlistener : a.OfListener) :
    (s.next a).work < s.work := by
  obtain ⟨hal,hr⟩ := ha
  cases a with
  | bind | ready | offered | leave =>
    have hl := hr.1
    simp [work,HttpServer.next,stops,hl,ListenPc.work]
  | readyNotify c =>
    have hl : s.listener = .readyNotify := hr.1
    have hn := work_notifyOne hr.2.2 num.toNat
    simp [work,HttpServer.next,stops,hl,ListenPc.work] at hn ⊢
    omega
  | leaveNotify c =>
    have hl : s.listener = .leaveNotify := hr.1
    have hn := work_notifyOne hr.2.2 num.toNat
    simp [work,HttpServer.next,stops,hl,ListenPc.work] at hn ⊢
    omega
  | test =>
    have hl : s.listener = .test := hr.1
    cases hrun : s.run <;> simp [work,HttpServer.next,stops,hl,hrun,ListenPc.work]
  | poll =>
    have hl : s.listener = .poll := hr.1
    by_cases hb : 0 < s.backlog
    · have hle : 3 ≤ ListenPc.work s.run .poll := by cases s.run <;> decide
      simp [work,HttpServer.next,stops,hl,hb] at hle ⊢
      simp only [ListenPc.work] at hle ⊢
      omega
    · have hrun := (h.piped (hr.2.2.resolve_left hb)).1
      simp [work,HttpServer.next,stops,hl,hb,hrun,ListenPc.work]
  | accept =>
    have hl : s.listener = .accept := hr.1
    have hb := h.offered hl
    simp only [work,HttpServer.next,stops,hl,ListenPc.work]
    omega
  | offer =>
    have hl : s.listener = .offer := hr.1
    have hpool := pool_work_le work_offer_le s.pool
    cases hassigned : s.assigned <;>
      simp [work,HttpServer.next,stops,hl,hal,hassigned,ListenPc.work] at hpool ⊢
    omega
  | _ => exact hlistener.elim

theorem work_stop_lt (ha : s.Enabled a) (hstop : a.OfStop) : (s.next a).work < s.work := by
  obtain ⟨-,hr⟩ := ha
  cases a with
  | stopStore g =>
    have hstops := stops_goOn hr .write
    have hl := ListenPc.work_le s.listener false s.run
    simp only [StopPc.work] at hstops
    simp [work,HttpServer.next,stops] at hstops ⊢
    omega
  | stopWrite g =>
    have hstops := stops_goOn hr .wait
    simp only [StopPc.work] at hstops
    simp [work,HttpServer.next,stops] at hstops ⊢
    omega
  | stopWait g =>
    have hstops := stops_waitStop hr
    simp [work,HttpServer.next,stops] at hstops ⊢
    omega
  | _ => exact hstop.elim

theorem work_pool_lt {b : ThreadPool.Action num.toNat Unit} (hb : s.PoolEnabled b)
    (hs : b.Settles) : (s.next (.pool b)).work < s.work := by
  cases hp : s.pool with
  | none => simp [PoolEnabled,hp] at hb
  | some p =>
    have hlt : (p.next b).work < p.work :=
      ThreadPool.work_next_lt (by simpa [PoolEnabled,hp] using hb) hs
    simpa [work,HttpServer.next,stops,hp] using hlt

/-- Each step takes something from what is left to do. -/
theorem work_next_lt (h : s.Piped) (ha : s.Enabled a) (hs : a.Settles) :
    (s.next a).work < s.work := by
  cases a with
  | connect | signal g | fail => exact hs.elim
  | pool b => exact work_pool_lt ha.2.1 hs
  | stopStore g | stopWrite g | stopWait g => exact work_stop_lt ha trivial
  | bind | ready | readyNotify c | test | poll | accept | offer | offered | leave | leaveNotify c =>
    exact work_listener_lt h ha trivial
  | _ => exact work_main_lt h ha trivial

theorem Piped.length_le_work (h : s.Piped) {as : List (Action num)} (hv : (system num).Valid s as)
    (hs : ∀ a ∈ as, a.Settles) : as.length ≤ s.work := by
  have hstep : ∀ (s : HttpServer num) a, s.Piped → (system num).enabled s a →
      ((system num).next s a).Piped := fun _ _ h ha => h.next ha
  have hwork : ∀ (s : HttpServer num) a, s.Piped → (system num).enabled s a → a.Settles →
      ((system num).next s a).work < s.work := fun _ _ h ha hs => work_next_lt h ha hs
  exact Nat.le_of_add_right_le (System.length_add_le_measure hstep hwork h hv hs)

end HttpServer
end Gabby.Http
