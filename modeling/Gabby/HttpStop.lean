import Gabby.HttpShutdown
import Gabby.ThreadPoolProgress

/-! When a call of `Stop` always returns: the thread that it sleeps on must not be one that the
listener needs, and nobody else may sleep on `running_`. -/
namespace Gabby.Http
namespace HttpServer

variable {num : ℤ} {s : HttpServer num} {a : Action num} {calls : List Call}

/-- Every call of `Stop` that sleeps can still return, unless the process has ended. The call
is the frame above `fs`, and it has returned when the stack is no higher than `fs`. -/
def NeverStuck (s : HttpServer num) : Prop :=
  s.aborted = false → ∀ h gs fs, s.frames h = gs ++ .asleep::fs →
    (system num).Leads s fun t => (t.frames h).length ≤ fs.length

def Begins (a : Action num) (h : Host num.toNat) : Prop :=
  a = .signal h ∨ a = .stop ∧ h = .main

/-- A thread on which a call of `Stop` may wait for the listener: neither the listener nor a
worker that owns the mutex, and no other thread sleeps on `running_` or is about to. -/
structure MayStopOn (s : HttpServer num) (h : Host num.toNat) : Prop where
  quiet : h ≠ .listener
  unlocked : ∀ i p, h = .worker i → s.pool = some p → p.mux ≠ some (.worker i)
  single : ∀ g, s.frames g ≠ [] → g = h
  awake : .asleep ∉ s.frames h
  assigned : s.assigned = true
  started : s.main ≠ .asleep ∧ (s.main = .await → h = .main)

/-- A call of `Stop` that gets past its guard is made on such a thread. -/
def StopsApart (s : HttpServer num) (a : Action num) : Prop :=
  ∀ h, Begins a h → s.running = true → s.MayStopOn h

/-! ## The calls in progress -/

def Notifies (s : HttpServer num) : Prop :=
  s.Free .listener ∧ (s.listener = .readyNotify ∨ s.listener = .leaveNotify)

inductive FrameStep (s : HttpServer num) (a : Action num) (h : Host num.toNat) :
    List StopPc → List StopPc → Prop
  | same (fs) : FrameStep s a h fs fs
  | begin (fs) : Begins a h → s.running = true → FrameStep s a h fs (.store::fs)
  | store (fs) : a = .stopStore h → FrameStep s a h (.store::fs) (.write::fs)
  | write (fs) : a = .stopWrite h → FrameStep s a h (.write::fs) (.wait::fs)
  | sleep (fs) : a = .stopWait h → s.running = true → FrameStep s a h (.wait::fs) (.asleep::fs)
  | ret (fs) : a = .stopWait h → s.running = false → FrameStep s a h (.wait::fs) fs
  | wake (fs) (j : ℕ) : s.Notifies → fs[j]? = some .asleep →
    FrameStep s a h fs (fs.set j .wait)

theorem frameStep_beginStop {g h : Host num.toNat} (hb : g = h → Begins a h) :
    FrameStep s a h (s.frames h) ((s.beginStop g).frames h) := by
  by_cases hrun : s.running = true
  · by_cases hg : h = g
    · simpa [hrun,hg] using FrameStep.begin (s.frames g) (hg ▸ hb hg.symm) hrun
    · simpa [hrun,hg] using FrameStep.same (s.frames h)
  · simpa [hrun] using FrameStep.same (s.frames h)

theorem frameStep_notifyOne {c : Option (Sleeper num.toNat)} {h : Host num.toNat}
    (hl : s.Notifies) (hc : s.CanNotify c) :
    FrameStep s a h (s.frames h) ((s.notifyOne c).frames h) := by
  match c,hc with
  | none,_ => exact .same _
  | some .start,_ => exact .same _
  | some (.stop g j),hc =>
    by_cases hg : g = h
    · subst hg
      simpa using FrameStep.wake (s.frames g) j hl hc
    · simpa [hg] using FrameStep.same (s.frames h)

theorem frames_next (ha : s.Enabled a) (h : Host num.toNat) :
    FrameStep s a h (s.frames h) ((s.next a).frames h) := by
  cases a with
  | stop => exact frameStep_beginStop fun hm => Or.inr ⟨rfl,hm.symm⟩
  | signal g => exact frameStep_beginStop fun hg => Or.inl (hg ▸ rfl)
  | readyNotify c => exact frameStep_notifyOne ⟨ha.2.2.1,Or.inl ha.2.1⟩ ha.2.2.2
  | leaveNotify c => exact frameStep_notifyOne ⟨ha.2.2.1,Or.inr ha.2.1⟩ ha.2.2.2
  | stopStore g =>
    by_cases hg : h = g
    · subst hg
      obtain ⟨fs,hfs⟩ := List.head?_eq_some_iff.mp ha.2
      simpa [next,hfs] using FrameStep.store fs rfl
    · simpa [next,hg] using FrameStep.same (s.frames h)
  | stopWrite g =>
    by_cases hg : h = g
    · subst hg
      obtain ⟨fs,hfs⟩ := List.head?_eq_some_iff.mp ha.2
      simpa [next,hfs] using FrameStep.write fs rfl
    · simpa [next,hg] using FrameStep.same (s.frames h)
  | stopWait g =>
    by_cases hg : h = g
    · subst hg
      obtain ⟨fs,hfs⟩ := List.head?_eq_some_iff.mp ha.2
      by_cases hrun : s.running = true
      · simpa [next,hfs,hrun] using FrameStep.sleep fs rfl hrun
      · simpa [next,hfs,hrun] using FrameStep.ret fs rfl (Bool.eq_false_iff.mpr hrun)
    · simpa [next,hg] using FrameStep.same (s.frames h)
  | _ => exact .same _

theorem frames_beginStop_ne_nil {g h : Host num.toNat} (hh : s.frames h ≠ []) :
    (s.beginStop g).frames h ≠ [] := by
  simp only [beginStop]
  split
  · by_cases hg : h = g
    · simp [hg]
    · simpa [hg] using hh
  · exact hh

theorem FrameStep.ne_nil {h : Host num.toNat} {fs gs : List StopPc} (hs : FrameStep s a h fs gs)
    (hg : gs ≠ []) : fs ≠ [] ∨ Begins a h ∧ s.running = true := by
  cases hs with
  | same => exact Or.inl hg
  | begin _ hb hr => exact Or.inr ⟨hb,hr⟩
  | wake _ j _ hj => exact Or.inl (by rintro rfl; simp at hj)
  | _ => exact Or.inl (List.cons_ne_nil _ _)

/-- The calls of `Stop` in progress are on one thread, only the last of them sleeps, and it is
either before the listener's store of `false` or about to be notified. -/
structure Calm (s : HttpServer num) : Prop where
  pooled : s.Pooled
  single : ∀ g h, s.frames g ≠ [] → s.frames h ≠ [] → g = h
  quiet : s.frames .listener = []
  unlocked : ∀ i p, s.frames (.worker i) ≠ [] → s.pool = some p → p.mux ≠ some (.worker i)
  top : ∀ h x fs, s.frames h = x::fs → .asleep ∉ fs
  settled : ∀ h, s.frames h ≠ [] → s.main.early = false ∧ s.main ≠ .asleep ∧
    (s.main = .await → h = .main) ∧ (s.assigned = true ∨ s.listener.past = true)
  stored : ∀ h, ∀ x ∈ s.frames h, x ≠ .store → s.run = false
  written : ∀ h, ∀ x ∈ s.frames h, x = .wait ∨ x = .asleep → 0 < s.pipe
  notified : ∀ h, .asleep ∈ s.frames h → s.running = true ∨ s.listener = .leaveNotify
  pending : s.run = false → s.running = true → ∃ h, s.frames h ≠ []

theorem calm_init : (init num calls).Calm where
  pooled := pooled_init
  single _ _ h := absurd rfl h
  quiet := rfl
  unlocked _ _ h := absurd rfl h
  top _ _ _ h := nomatch h
  settled _ h := absurd rfl h
  stored _ _ h := absurd h List.not_mem_nil
  written _ _ h := absurd h List.not_mem_nil
  notified _ h := absurd h List.not_mem_nil
  pending _ h := nomatch h

namespace Calm

theorem single_next (h : s.Calm) (ha : s.Enabled a) (hc : s.StopsApart a) (g k : Host num.toNat)
    (hg : (s.next a).frames g ≠ []) (hk : (s.next a).frames k ≠ []) : g = k := by
  cases (frames_next ha g).ne_nil hg with
  | inl hg =>
    cases (frames_next ha k).ne_nil hk with
    | inl hk => exact h.single g k hg hk
    | inr hb => exact (hc k hb.1 hb.2).single g hg
  | inr hb =>
    cases (frames_next ha k).ne_nil hk with
    | inl hk => exact ((hc g hb.1 hb.2).single k hk).symm
    | inr hb' =>
      -- one step begins one call
      obtain ⟨hb,-⟩ := hb
      obtain ⟨hb',-⟩ := hb'
      cases hb <;> cases hb' <;> grind

theorem quiet_next (h : s.Calm) (ha : s.Enabled a) (hc : s.StopsApart a) :
    (s.next a).frames .listener = [] := by
  by_contra hne
  cases (frames_next ha .listener).ne_nil hne with
  | inl hl => exact hl h.quiet
  | inr hb => exact (hc .listener hb.1 hb.2).quiet rfl

/-- A worker that runs a signal handler does not take the mutex meanwhile. -/
theorem mux_next (h : s.Calm) (ha : s.Enabled a) {i : Fin num.toNat}
    (hi : s.frames (.worker i) ≠ []) {p : ThreadPool num.toNat Unit}
    (hp : (s.next a).pool = some p) : p.mux ≠ some (.worker i) := by
  have hm := fun q => h.unlocked i q hi
  cases a with
  | construct =>
    rw [ThreadPool.make_eq_some hp]
    nofun
  | reaped => exact nomatch hp
  | reset =>
    obtain ⟨q,hq,rfl⟩ := Option.map_eq_some_iff.mp hp
    exact hm q hq
  | offer =>
    simp only [next,offerClient] at hp
    split at hp
    · obtain ⟨q,hq,rfl⟩ := Option.map_eq_some_iff.mp hp
      exact hm q hq
    · exact hm p hp
  | pool b =>
    obtain ⟨q,hq,rfl⟩ := Option.map_eq_some_iff.mp hp
    have hmq := hm q hq
    cases b with
    | lock j =>
      simp only [ThreadPool.next]
      rintro ⟨⟩
      exact hi ha.2.2
    | sleep j | stop j | finish j k | enter r k | push r k | close | set =>
      simp [ThreadPool.next]
    | _ => exact hmq
  | _ => exact hm p hp

theorem unlocked_next (h : s.Calm) (ha : s.Enabled a) (hc : s.StopsApart a) (i : Fin num.toNat)
    (p : ThreadPool num.toNat Unit) (hi : (s.next a).frames (.worker i) ≠ [])
    (hp : (s.next a).pool = some p) : p.mux ≠ some (.worker i) := by
  cases (frames_next ha (.worker i)).ne_nil hi with
  | inl hi => exact h.mux_next ha hi hp
  | inr hb =>
    have hm := hc _ hb.1 hb.2
    obtain ⟨hb | ⟨hb,-⟩,-⟩ := hb
    · subst hb
      exact hm.unlocked i p rfl hp
    · subst hb
      exact hm.unlocked i p rfl hp

theorem asleep_top (h : s.Calm) {k : Host num.toNat} {j : ℕ}
    (hj : (s.frames k)[j]? = some .asleep) : j = 0 ∧ ∃ fs, s.frames k = .asleep::fs := by
  generalize hold : s.frames k = old at hj
  match old,j,hj with
  | x::fs,0,hj => exact ⟨rfl,fs,by simpa using hj⟩
  | x::fs,j+1,hj => exact absurd (List.mem_of_getElem? (by simpa using hj)) (h.top k x fs hold)

theorem top_next (h : s.Calm) (ha : s.Enabled a) (hc : s.StopsApart a) (k : Host num.toNat)
    (x : StopPc) (fs : List StopPc) (hk : (s.next a).frames k = x::fs) : .asleep ∉ fs := by
  have ht := h.top k
  have hat := fun j => h.asleep_top (k := k) (j := j)
  have haw := fun hb hr => (hc k hb hr).awake
  have hf := frames_next ha k
  generalize s.frames k = old at hf ht hat haw
  generalize (s.next a).frames k = new at hf hk
  cases hf with
  | same => exact ht x fs hk
  | begin _ hb hr =>
    cases hk
    exact haw hb hr
  | store gs | write gs | sleep gs =>
    cases hk
    exact ht _ _ rfl
  | ret gs => exact fun hx => ht _ _ rfl (hk ▸ List.mem_cons_of_mem x hx)
  | wake _ j _ hj =>
    obtain ⟨rfl,gs,rfl⟩ := hat j hj
    cases hk
    exact ht _ _ rfl

theorem settled_next (h : s.Calm) (ha : s.Enabled a) (hc : s.StopsApart a) (k : Host num.toNat)
    (hk : (s.next a).frames k ≠ []) : (s.next a).main.early = false ∧ (s.next a).main ≠ .asleep ∧
    ((s.next a).main = .await → k = .main) ∧
    ((s.next a).assigned = true ∨ (s.next a).listener.past = true) := by
  have hold : s.main.early = false ∧ s.main ≠ .asleep ∧ (s.main = .await → k = .main) ∧
      (s.assigned = true ∨ s.listener.past = true) := by
    cases (frames_next ha k).ne_nil hk with
    | inl hk => exact h.settled k hk
    | inr hb =>
      have hm := hc k hb.1 hb.2
      have he : s.main.early ≠ true := fun he =>
        nomatch hm.assigned.symm.trans (h.pooled.early he)
      exact ⟨Bool.eq_false_iff.mpr he,hm.started.1,hm.started.2,Or.inl hm.assigned⟩
  obtain ⟨he,hm,hw,hp⟩ := hold
  cases a with
  | stop | destroy | fail | pool b | signal g | stopStore g | stopWrite g | stopWait g
  | connect => exact ⟨he,hm,hw,hp⟩
  | reset =>
    have hl := h.pooled.coherent.exited_of_reset ha.2.1
    exact ⟨rfl,nofun,nofun,Or.inr (by simp [next,hl,ListenPc.past])⟩
  | await =>
    -- the main thread is at its wait only if the call is on it, and then it is not free
    exact absurd ha.2.2 (hw ha.2.1 ▸ hk)
  | _ =>
    simp only [next,Enabled,Ready,notifyOne,makePool,offerClient,dropMembers] at *
    grind [MainPc.early,CanNotify,ListenPc.past]

theorem mem_next (h : s.Calm) (ha : s.Enabled a) {k : Host num.toNat} {x : StopPc}
    (hx : x ∈ (s.next a).frames k) : x ∈ s.frames k ∨ x = .store ∨
      (x = .write ∧ a = .stopStore k) ∨
      (x = .wait ∧ (a = .stopWrite k ∨ .asleep ∈ s.frames k)) ∨
      (x = .asleep ∧ .wait ∈ s.frames k ∧ s.running = true) := by
  have hf := frames_next ha k
  have hat := fun j => h.asleep_top (k := k) (j := j)
  generalize s.frames k = old at hf hat
  generalize (s.next a).frames k = new at hf hx
  cases hf with
  | same => exact Or.inl hx
  | ret fs => exact Or.inl (List.mem_cons_of_mem _ hx)
  | wake _ j _ hj =>
    obtain ⟨rfl,gs,rfl⟩ := hat j hj
    simp only [List.set_cons_zero,List.mem_cons] at hx ⊢
    tauto
  | begin _ | store _ | write _ | sleep _ =>
    simp only [List.mem_cons] at hx ⊢
    tauto

theorem run_next (h : s.Calm) (ha : s.Enabled a) {k : Host num.toNat} (hk : s.frames k ≠ [])
    (hr : s.run = false) : (s.next a).run = false := by
  have hu := h.pooled.coherent.unborn
  have hf := h.pooled.coherent.framed k hk
  cases a with
  | storeRun =>
    rw [hu.mpr (Or.inl ha.2.1)] at hf
    exact nomatch hf
  | stopStore g => rfl
  | _ => exact hr

theorem stored_next (h : s.Calm) (ha : s.Enabled a) (k : Host num.toNat) (x : StopPc)
    (hx : x ∈ (s.next a).frames k) (hne : x ≠ .store) : (s.next a).run = false := by
  have hold : ∀ y ∈ s.frames k, y ≠ .store → (s.next a).run = false := fun y hy hne =>
    h.run_next ha (List.ne_nil_of_mem hy) (h.stored k y hy hne)
  rcases h.mem_next ha hx with hx | rfl | ⟨-,rfl⟩ | ⟨-,rfl | hx⟩ | ⟨-,hx,-⟩
  · exact hold x hx hne
  · exact absurd rfl hne
  · rfl
  · obtain ⟨fs,hfs⟩ := List.head?_eq_some_iff.mp ha.2
    exact hold .write (hfs ▸ List.mem_cons_self) nofun
  · exact hold _ hx nofun
  · exact hold _ hx nofun

theorem pipe_next : s.pipe ≤ (s.next a).pipe := by
  cases a with
  | stopWrite g => exact Nat.le_succ _
  | _ => exact le_rfl

theorem written_next (h : s.Calm) (ha : s.Enabled a) (k : Host num.toNat) (x : StopPc)
    (hx : x ∈ (s.next a).frames k) (hw : x = .wait ∨ x = .asleep) : 0 < (s.next a).pipe := by
  have hold : ∀ y ∈ s.frames k, y = .wait ∨ y = .asleep → 0 < (s.next a).pipe := fun y hy hw =>
    (h.written k y hy hw).trans_le pipe_next
  rcases h.mem_next ha hx with hx | rfl | ⟨rfl,-⟩ | ⟨-,rfl | hx⟩ | ⟨-,hx,-⟩
  · exact hold x hx hw
  · simp at hw
  · simp at hw
  · exact Nat.succ_pos _
  · exact hold _ hx (Or.inr rfl)
  · exact hold _ hx (Or.inl rfl)

/-- The listener's notification reaches the only sleeper. -/
theorem notifyOne_awake (h : s.Calm) {c : Option (Sleeper num.toNat)} (hc : s.CanNotify c)
    (k : Host num.toNat) : .asleep ∉ (s.notifyOne c).frames k := by
  match c,hc with
  | none,hc => exact hc.2 k
  | some .start,hc =>
    intro hx
    exact (h.settled k (List.ne_nil_of_mem hx)).2.1 hc
  | some (.stop g j),hc =>
    obtain ⟨rfl,fs,hfs⟩ := h.asleep_top hc
    by_cases hg : g = k
    · subst hg
      simpa [hfs] using h.top g _ fs hfs
    · intro hx
      simp only [notifyOne_frames,if_neg hg] at hx
      exact hg (h.single g k (by simp [hfs]) (List.ne_nil_of_mem hx))

theorem notified_next (h : s.Calm) (ha : s.Enabled a) (k : Host num.toNat)
    (hx : .asleep ∈ (s.next a).frames k) :
    (s.next a).running = true ∨ (s.next a).listener = .leaveNotify := by
  have hold : s.running = true ∨ s.listener = .leaveNotify := by
    rcases h.mem_next ha hx with hx | hx | ⟨hx,-⟩ | ⟨hx,-⟩ | ⟨-,-,hr⟩
    · exact h.notified k hx
    · exact nomatch hx
    · exact nomatch hx
    · exact nomatch hx
    · exact Or.inl hr
  cases a with
  | ready => exact Or.inl rfl
  | leave => exact Or.inr rfl
  | readyNotify c => exact absurd hx (h.notifyOne_awake ha.2.2.2 k)
  | leaveNotify c => exact absurd hx (h.notifyOne_awake ha.2.2.2 k)
  | spawn | bind | test | poll | accept | offer | offered =>
    have hu := h.pooled.coherent.unborn
    simp only [next,Enabled,Ready,offerClient] at *
    grind
  | _ => exact hold

theorem pending_next (h : s.Calm) (ha : s.Enabled a) (hr : (s.next a).run = false)
    (hs : (s.next a).running = true) : ∃ k, (s.next a).frames k ≠ [] := by
  have hp := h.pending
  cases a with
  | storeRun => cases hr
  | leave => cases hs
  | ready =>
    have hl : s.listener = .ready := ha.2.1
    have hm : s.main ≠ .start := fun hm =>
      nomatch hl.symm.trans (h.pooled.coherent.unborn.mpr (Or.inl hm))
    exact nomatch hr.symm.trans (h.pooled.coherent.armed (by rw [hl]; rfl) hm)
  | stop => exact (hp hr hs).imp fun k hk => frames_beginStop_ne_nil hk
  | signal g => exact (hp hr hs).imp fun k hk => frames_beginStop_ne_nil hk
  | readyNotify c => exact (hp hr hs).imp fun k hk => mt frames_notifyOne_eq_nil.mp hk
  | leaveNotify c => exact (hp hr hs).imp fun k hk => mt frames_notifyOne_eq_nil.mp hk
  | stopStore g => exact ⟨g,by simp [HttpServer.next]⟩
  | stopWrite g => exact ⟨g,by simp [HttpServer.next]⟩
  | stopWait g => exact ⟨g,by simp [HttpServer.next,show s.running = true from hs]⟩
  | _ => exact hp hr hs

theorem next (h : s.Calm) (ha : s.Enabled a) (hc : s.StopsApart a) : (s.next a).Calm where
  pooled := h.pooled.next ha
  single := h.single_next ha hc
  quiet := h.quiet_next ha hc
  unlocked := h.unlocked_next ha hc
  top := h.top_next ha hc
  settled := h.settled_next ha hc
  stored := h.stored_next ha
  written := h.written_next ha
  notified := h.notified_next ha
  pending := h.pending_next ha

end Calm

/-! ## The listener's way out of its loop -/

def BeginsNone (_ : HttpServer num) (a : Action num) : Prop := ∀ h, ¬Begins a h

/-- Time passes, and in the end every call of `Stop` and the main thread are where they were. -/
structure Passed (s t : HttpServer num) : Prop where
  reach : (system num).ReachableBy BeginsNone s t
  frames : t.frames = s.frames
  main : t.main = s.main

/-- The listener waits in `Offer` for the mutex of a worker that runs a signal handler. -/
structure HeldBy (i : Fin num.toNat) (s : HttpServer num) : Prop where
  calling : s.listener = .offering
  handling : s.frames (.worker i) ≠ []
  waiting : ∃ p k, s.pool = some p ∧ p.mux = some (.worker i) ∧ p.producer () = .lock k

/-- A call of `Stop` on thread `h`, above the frames `fs`, sleeps while the listener serves. -/
structure Slept (h : Host num.toNat) (fs : List StopPc) (s : HttpServer num) : Prop where
  pooled : s.Pooled
  alive : s.aborted = false
  free : s.Free .listener
  run : s.run = false
  pipe : 0 < s.pipe
  running : s.running = true
  assigned : s.assigned = true
  stack : s.frames h = .asleep::fs

def LeavesOrHeld (h : Host num.toNat) (fs : List StopPc) (s : HttpServer num) : Prop :=
  ∃ t, Passed s t ∧ Slept h fs t ∧ (t.listener = .leave ∨ ∃ i, HeldBy i t)

theorem pool_run {p : ThreadPool num.toNat Unit} (hal : s.aborted = false) (hp : s.pool = some p)
    {bs : List (ThreadPool.Action num.toNat Unit)}
    (hv : (ThreadPool.system num.toNat Unit).Valid p bs) (hb : ∀ b ∈ bs, s.Permits b) :
    (system num).ReachableBy BeginsNone s
      { s with pool := some ((ThreadPool.system num.toNat Unit).final p bs) } := by
  induction bs generalizing s p with
  | nil =>
    rw [System.final_nil,← hp]
    exact .refl s
  | cons b bs ih =>
    have hen : p.Enabled b := hv.1
    have ha : s.Enabled (.pool b) :=
      ⟨hal,by simpa [PoolEnabled,hp] using hen,hb b List.mem_cons_self⟩
    refine System.ReachableBy.head (M := system num) ha (by simp [BeginsNone,Begins]) ?_
    exact ih (s := s.next (.pool b)) (p := p.next b) hal (by simp [next,hp]) hv.2
      fun c hc => hb c (List.mem_cons_of_mem b hc)

theorem leavesOrHeld_after {h : Host num.toNat} {fs : List StopPc} {t : HttpServer num}
    (hp : Passed s t) (hl : LeavesOrHeld h fs t) : LeavesOrHeld h fs s := by
  obtain ⟨u,hu,hs,hl⟩ := hl
  exact ⟨u,⟨hp.reach.trans hu.reach,hu.frames.trans hp.frames,hu.main.trans hp.main⟩,hs,hl⟩

/-- A step of the listener that notifies nobody. -/
theorem leavesOrHeld_step {h : Host num.toNat} {fs : List StopPc} (a : Action num)
    (ha : s.Enabled a) (hb : s.BeginsNone a) (hf : (s.next a).frames = s.frames)
    (hm : (s.next a).main = s.main) (hl : LeavesOrHeld h fs (s.next a)) :
    LeavesOrHeld h fs s :=
  leavesOrHeld_after ⟨.head ha hb (.refl _),hf,hm⟩ hl

namespace Slept

variable {h : Host num.toNat} {fs : List StopPc}

theorem of_leave (hs : Slept h fs s) (hl : s.listener = .leave) : LeavesOrHeld h fs s :=
  ⟨s,⟨.refl s,rfl,rfl⟩,hs,Or.inl hl⟩

theorem of_test (hs : Slept h fs s) (hl : s.listener = .test) : LeavesOrHeld h fs s := by
  have ha : s.Enabled .test := ⟨hs.alive,hl,hs.free⟩
  have hs' : Slept h fs (s.next .test) := { hs with pooled := hs.pooled.next ha }
  exact leavesOrHeld_step .test ha (by simp [BeginsNone,Begins]) rfl rfl
    (hs'.of_leave (by simp [next,hs.run]))

/-- The listener releases the call, which finds `running_` still set. -/
theorem of_readyNotify (hs : Slept h fs s) (hl : s.listener = .readyNotify) :
    LeavesOrHeld h fs s := by
  have ha : s.Enabled (.readyNotify (some (.stop h 0))) :=
    ⟨hs.alive,hl,hs.free,by simp [CanNotify,hs.stack]⟩
  have hb : (s.next (.readyNotify (some (.stop h 0)))).Enabled (.stopWait h) :=
    ⟨hs.alive,by simp [Ready,next,hs.stack]⟩
  have hf : ((s.next (.readyNotify (some (.stop h 0)))).next (.stopWait h)).frames = s.frames := by
    funext k
    by_cases hk : k = h
    · subst hk
      simp [next,hs.running,hs.stack]
    · simp [next,hk,Ne.symm hk]
  have hs' : Slept h fs ((s.next (.readyNotify (some (.stop h 0)))).next (.stopWait h)) :=
    { hs with
      pooled := (hs.pooled.next ha).next hb
      free := (congrFun hf .listener).trans hs.free
      stack := (congrFun hf h).trans hs.stack }
  refine leavesOrHeld_after ⟨?_,hf,?_⟩ (hs'.of_test rfl)
  · exact .head ha (by simp [BeginsNone,Begins]) (.head hb (by simp [BeginsNone,Begins]) (.refl _))
  · simp [next]

section Offer

variable {p : ThreadPool num.toNat Unit}

theorem of_offer_idle (hs : Slept h fs s) (hl : s.listener = .offering) (hp : s.pool = some p)
    (hi : p.producer () = .idle) : LeavesOrHeld h fs s := by
  have ha : s.Enabled .offered := ⟨hs.alive,hl,hs.free,by simpa [OfferReturned,hp] using hi⟩
  have hs' : Slept h fs (s.next .offered) := { hs with pooled := hs.pooled.next ha }
  exact leavesOrHeld_step .offered ha (by simp [BeginsNone,Begins]) rfl rfl (hs'.of_test rfl)

theorem pool_passed (hs : Slept h fs s) (hp : s.pool = some p)
    {bs : List (ThreadPool.Action num.toNat Unit)}
    (hv : (ThreadPool.system num.toNat Unit).Valid p bs) (hb : ∀ b ∈ bs, s.Permits b) :
    ∃ t, Passed s t ∧ Slept h fs t ∧ t.listener = s.listener ∧
      t.pool = some ((ThreadPool.system num.toNat Unit).final p bs) := by
  have hr := pool_run hs.alive hp hv hb
  have hpool := hr.invariant hs.pooled fun _ _ h ha _ => h.next ha
  exact ⟨_,⟨hr,rfl,rfl⟩,{ hs with pooled := hpool },rfl,rfl⟩

theorem of_offer_ready (hs : Slept h fs s) (hl : s.listener = .offering) (hp : s.pool = some p)
    (hi : p.mux = none ∨ ∀ k, p.producer () ≠ .lock k) : LeavesOrHeld h fs s := by
  obtain ⟨bs,hv,hb,hidle⟩ := ThreadPool.mayReturn hi
  have hperm : ∀ b ∈ bs, s.Permits b := by
    intro b hmem
    have hcall := hb b hmem
    cases b with
    | enter q k | push q k | notify q k v => exact ⟨hl,hs.free⟩
    | _ => exact hcall.elim
  obtain ⟨t,ht,hst,hlt,hpt⟩ := hs.pool_passed hp hv hperm
  exact leavesOrHeld_after ht (hst.of_offer_idle (hlt.trans hl) hpt hidle)

/-- The owner of the mutex gives it back, unless it runs a signal handler. -/
theorem of_offer_owned (hs : Slept h fs s) (hl : s.listener = .offering) (hp : s.pool = some p)
    {k : Task} (hi : p.producer () = .lock k) {i : Fin num.toNat}
    (hm : p.mux = some (.worker i)) : LeavesOrHeld h fs s := by
  by_cases hfree : s.Free (.worker i)
  · obtain ⟨bs,hv,hb,hmux,-⟩ := (hs.pooled.reached p hp).ordered.mayRelease hm
    have hperm : ∀ b ∈ bs, s.Permits b := by
      intro b hmem
      have howner := hb b hmem
      cases b with
      | sleep j | pass j | stop j | start j l | finish j l =>
        exact (show j = i from howner) ▸ hfree
      | _ => exact howner.elim
    obtain ⟨t,ht,hst,hlt,hpt⟩ := hs.pool_passed hp hv hperm
    exact leavesOrHeld_after ht (hst.of_offer_ready (hlt.trans hl) hpt (Or.inl hmux))
  · exact ⟨s,⟨.refl s,rfl,rfl⟩,hs,Or.inr ⟨i,hl,hfree,p,k,hp,hm,hi⟩⟩

theorem of_offering (hs : Slept h fs s) (hl : s.listener = .offering) : LeavesOrHeld h fs s := by
  obtain ⟨p,hp⟩ := Option.ne_none_iff_exists'.mp (hs.pooled.pointed (Or.inl hs.assigned))
  have hx := (hs.pooled.reached p hp).ordered.exclusive
  by_cases hlock : ∃ k, p.producer () = .lock k
  · obtain ⟨k,hk⟩ := hlock
    match hm : p.mux with
    | none => exact hs.of_offer_ready hl hp (Or.inl hm)
    | some (.worker i) => exact hs.of_offer_owned hl hp hk hm
    | some (.producer ()) =>
      have hholds := (hx.producer ()).mpr hm
      simp [hk,OfferPc.holds] at hholds
    | some .destructor =>
      have hholds := hx.destructor.mpr hm
      have hreap := fun hr => hs.pooled.coherent.not_reaping hs.running (Or.inr (Or.inl hr))
      simp [hs.pooled.living p hp hreap,DtorPc.holds] at hholds
  · exact hs.of_offer_ready hl hp (Or.inr (not_exists.mp hlock))

end Offer

theorem of_offer (hs : Slept h fs s) (hl : s.listener = .offer) : LeavesOrHeld h fs s := by
  have ha : s.Enabled .offer := ⟨hs.alive,hl,hs.free⟩
  have hs' : Slept h fs (s.next .offer) :=
    { hs with pooled := hs.pooled.next ha, alive := by simp [next,hs.assigned] }
  exact leavesOrHeld_step .offer ha (by simp [BeginsNone,Begins]) rfl rfl
    (hs'.of_offering (by simp [next,hs.assigned]))

theorem of_accept (hs : Slept h fs s) (hl : s.listener = .accept) : LeavesOrHeld h fs s := by
  have ha : s.Enabled .accept := ⟨hs.alive,hl,hs.free⟩
  have hs' : Slept h fs (s.next .accept) := { hs with pooled := hs.pooled.next ha }
  exact leavesOrHeld_step .accept ha (by simp [BeginsNone,Begins]) rfl rfl (hs'.of_offer rfl)

theorem of_poll (hs : Slept h fs s) (hl : s.listener = .poll) : LeavesOrHeld h fs s := by
  have ha : s.Enabled .poll := ⟨hs.alive,hl,hs.free,Or.inr hs.pipe⟩
  have hs' : Slept h fs (s.next .poll) := { hs with pooled := hs.pooled.next ha }
  refine leavesOrHeld_step .poll ha (by simp [BeginsNone,Begins]) rfl rfl ?_
  by_cases hb : 0 < s.backlog
  · exact hs'.of_accept (by simp [next,hb])
  · exact hs'.of_test (by simp [next,hb])

theorem leavesOrHeld (hs : Slept h fs s) : LeavesOrHeld h fs s := by
  have hr := hs.pooled.coherent.running
  rw [hs.running] at hr
  match hl : s.listener with
  | .readyNotify => exact hs.of_readyNotify hl
  | .test => exact hs.of_test hl
  | .poll => exact hs.of_poll hl
  | .accept => exact hs.of_accept hl
  | .offer => exact hs.of_offer hl
  | .offering => exact hs.of_offering hl
  | .leave => exact hs.of_leave hl
  | .absent | .bind | .ready | .leaveNotify | .exited => simp [hl,ListenPc.serving] at hr

end Slept

/-! ## No call gets stuck -/

/-- The listener's last notification releases the call, which finds `running_` cleared. -/
theorem returns_of_leaveNotify {h : Host num.toNat} {fs : List StopPc} (hal : s.aborted = false)
    (hfree : s.Free .listener) (hl : s.listener = .leaveNotify) (hr : s.running = false)
    (hs : s.frames h = .asleep::fs) : s.Leads fun t => (t.frames h).length ≤ fs.length := by
  refine leads_step (.leaveNotify (some (.stop h 0)))
    ⟨hal,hl,hfree,by simp [CanNotify,hs]⟩ ?_
  refine leads_step (.stopWait h) ⟨hal,by simp [Ready,next,hs]⟩ (.now ?_)
  simp [next,hr,hs]

namespace Calm

variable {h : Host num.toNat} {fs : List StopPc}

/-- A call that finds the listener serving was made when the pool was there. -/
theorem assigned (hc : s.Calm) (hr : s.running = true) (hh : s.frames h ≠ []) :
    s.assigned = true := by
  refine (hc.settled h hh).2.2.2.resolve_right fun hp => ?_
  have hserving := hc.pooled.coherent.running
  rw [hr] at hserving
  cases hl : s.listener <;> simp [hl,ListenPc.past,ListenPc.serving] at hp hserving

theorem slept (hc : s.Calm) (hal : s.aborted = false) (hr : s.running = true)
    (hs : s.frames h = .asleep::fs) : Slept h fs s where
  pooled := hc.pooled
  alive := hal
  free := hc.quiet
  run := hc.stored h .asleep (by simp [hs]) nofun
  pipe := hc.written h .asleep (by simp [hs]) (Or.inr rfl)
  running := hr
  assigned := hc.assigned (h := h) hr (by simp [hs])
  stack := hs

theorem passed {t : HttpServer num} (hc : s.Calm) (hp : Passed s t) : t.Calm :=
  hp.reach.invariant hc fun _ _ hc ha hb => hc.next ha fun g hg => absurd hg (hb g)

theorem neverStuck (hc : s.Calm) : s.NeverStuck := by
  intro hal h gs fs hs
  -- the sleeper is the last call of its thread
  have hgs : gs = [] := by
    cases gs with
    | nil => rfl
    | cons g gs => exact absurd (by simp) (hc.top h g _ hs)
  subst hgs
  by_cases hr : s.running = true
  · obtain ⟨t,hp,ht,hl⟩ := (hc.slept hal hr hs).leavesOrHeld
    refine .after hp.reach.reachable ?_
    cases hl with
    | inl hl =>
      refine leads_step .leave ⟨ht.alive,hl,ht.free⟩ ?_
      exact returns_of_leaveNotify ht.alive ht.free rfl rfl ht.stack
    | inr hi =>
      obtain ⟨i,hi⟩ := hi
      obtain ⟨p,k,hpool,hm,-⟩ := hi.waiting
      exact absurd hm ((hc.passed hp).unlocked i p hi.handling hpool)
  · have hl := (hc.notified h (by simp [hs])).resolve_left hr
    exact returns_of_leaveNotify hal hc.quiet hl (Bool.eq_false_iff.mpr hr) hs

end Calm

end HttpServer
end Gabby.Http
