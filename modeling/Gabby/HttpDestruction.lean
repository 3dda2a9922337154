import Gabby.HttpStop

/-! The call histories of a server: `Start`, then calls of `Stop` and `Wait`, then the
destructor. Its members can be destroyed when the listener has been joined. -/
namespace Gabby.Http

namespace MainPc

def starting : MainPc → Bool
  | .start | .spawn | .construct | .assign | .await | .asleep => true
  | _ => false

def waiting : MainPc → Bool
  | .join | .reset | .reap => true
  | _ => false

end MainPc

namespace HttpServer

variable {num : ℤ} {s : HttpServer num} {a : Action num} {calls told : List Call}

/-- The members of the server are about to be destroyed. -/
def Dropping (s : HttpServer num) : Prop :=
  s.aborted = false ∧ s.main = .idle ∧ s.frames .main = [] ∧ s.calls = [] ∧ s.dying = true

/-- The listener has been joined, and the pool with its workers is gone. -/
def Safe (s : HttpServer num) : Prop := s.joinable = false ∧ s.pool = none

/-- No signal is delivered. -/
def Undisturbed (as : List (Action num)) : Prop := ∀ h, .signal h ∉ as

/-! ## A refused worker count -/

/-- The constructor of the pool throws, and nobody can join the listener. -/
structure Refused (s : HttpServer num) : Prop where
  main : s.main = .start ∨ s.main = .spawn ∨ s.joinable = true ∧
    (s.main = .construct ∨ s.main = .idle)
  unbuilt : s.pool = none
  unassigned : s.assigned = false

theorem make_none (hn : num < 1) : ThreadPool.make num Unit = none := if_pos hn

theorem Refused.next (hn : num < 1) (h : s.Refused) (ha : s.Enabled a) : (s.next a).Refused := by
  obtain ⟨hm,hp,hs⟩ := h
  cases a with
  | storeRun | spawn | construct | assign | await | wait | join | reset | reaped | members
  | readyNotify c | leaveNotify c | offer | pool b =>
    have hmake := make_none hn
    constructor <;>
      simp only [HttpServer.next,Enabled,Ready,PoolEnabled,notifyOne,onPool,makePool,offerClient,
        dropMembers] at * <;> grind [CanNotify]
  | _ => exact ⟨hm,hp,hs⟩

theorem refused_not_safe (hn : num < 1) {as : List (Action num)}
    (hv : (system num).Valid (init num calls) as)
    (hd : ((system num).final (init num calls) as).Dropping) :
    ¬((system num).final (init num calls) as).Safe := by
  have h := System.run_invariant (M := system num) (I := Refused)
    (fun _ _ h ha => h.next hn ha) ⟨Or.inl rfl,rfl,rfl⟩ hv
  rintro ⟨hj,-⟩
  rcases h.main with hm | hm | hm
  · exact nomatch hd.2.1.symm.trans hm
  · exact nomatch hd.2.1.symm.trans hm
  · exact nomatch hj.symm.trans hm.1

/-! ## A server that was started -/

def tell (told : List Call) : Action num → List Call
  | .stop => told ++ [.stop]
  | .wait => told ++ [.wait]
  | _ => told

/-- The history of a server whose `Start` finds a worker count that the pool accepts: of the
calls that are to be made, and of those that the destructor adds, `told` have begun. -/
structure Lived (calls told : List Call) (s : HttpServer num) : Prop where
  pooled : s.Pooled
  quiet : ∀ h, h ≠ .main → s.frames h = []
  script : told ++ s.calls = calls ∧ (s.dying = true → .stop ∈ calls) ∨
    told ++ s.calls = calls ++ [.stop,.wait] ∧ .stop ∉ calls ∧ s.dying = true
  begun : s.main.starting = true → told = []
  fresh : .stop ∉ told → s.frames .main = [] ∧ (s.main ≠ .start → s.run = true)
  announced : s.main.starting = false → s.listener.announced = true
  assigned : s.main = .await ∨ s.main = .asleep → s.assigned = true
  stopped : .stop ∈ told → s.frames .main = [] → s.running = false
  kept : .wait ∉ told → s.main.starting = false → s.joinable = true ∧ s.assigned = true
  waiting : s.main.waiting = true → .wait ∈ told
  gone : .wait ∈ told → s.main.waiting = true ∨ s.joinable = false ∧ s.pool = none

theorem lived_init : (init num calls).Lived calls [] where
  pooled := pooled_init
  quiet _ _ := rfl
  script := Or.inl ⟨rfl,fun h => nomatch h⟩
  begun _ := rfl
  fresh _ := ⟨rfl,fun h => absurd rfl h⟩
  announced h := nomatch h
  assigned h := by simp [init] at h
  stopped h := nomatch h
  kept _ h := nomatch h
  waiting h := nomatch h
  gone h := nomatch h

namespace Lived

theorem make_some (hn : 1 ≤ num) :
    ThreadPool.make num Unit = some (ThreadPool.init num.toNat Unit) := if_neg (by omega)

theorem begins_main (hq : ∀ g, a ≠ .signal g) {h : Host num.toNat} (hb : Begins a h) :
    a = .stop ∧ h = .main := hb.resolve_left (hq h)

theorem quiet_next (h : s.Lived calls told) (ha : s.Enabled a) (hq : ∀ g, a ≠ .signal g)
    (k : Host num.toNat) (hk : k ≠ .main) : (s.next a).frames k = [] := by
  by_contra hne
  cases (frames_next ha k).ne_nil hne with
  | inl hf => exact hf (h.quiet k hk)
  | inr hb => exact hk (begins_main hq hb.1).2

/-- While `Start` runs nothing has been told; after it, the flag stands until `Stop`. -/
theorem running_of_fresh (h : s.Lived calls told) (hs : .stop ∉ told)
    (hm : s.main.starting = false) : s.running = true := by
  have hne : s.main ≠ .start := by
    intro he
    simp [he,MainPc.starting] at hm
  have hrun := (h.fresh hs).2 hne
  by_contra hr
  have hpast := ListenPc.past_of_announced (h.announced hm)
    (h.pooled.coherent.running ▸ Bool.eq_false_iff.mpr hr)
  exact nomatch hrun.symm.trans (h.pooled.coherent.stopping (ListenPc.left_of_past hpast))

theorem script_next (h : s.Lived calls told) (ha : s.Enabled a) :
    tell told a ++ (s.next a).calls = calls ∧ ((s.next a).dying = true → .stop ∈ calls) ∨
    tell told a ++ (s.next a).calls = calls ++ [.stop,.wait] ∧ .stop ∉ calls ∧
      (s.next a).dying = true := by
  have hs := h.script
  cases a with
  | stop =>
    obtain ⟨cs,hcs⟩ := List.head?_eq_some_iff.mp ha.2.2.2
    simpa [next,tell,hcs] using hs
  | wait =>
    obtain ⟨cs,hcs⟩ := List.head?_eq_some_iff.mp ha.2.2.2
    simpa [next,tell,hcs] using hs
  | destroy =>
    obtain ⟨-,hm,hf,hcs,hd⟩ := ha
    have htold : told = calls := by
      rcases hs with hs | hs
      · simpa [hcs] using hs.1
      · exact absurd hs.2.2 hd
    subst htold
    have hstart : s.main.starting = false := by rw [hm]; rfl
    by_cases hst : .stop ∈ told
    · exact Or.inl ⟨by simp [next,tell,h.stopped hst hf],fun _ => hst⟩
    · exact Or.inr ⟨by simp [next,tell,h.running_of_fresh hst hstart],hst,rfl⟩
  | _ => exact hs

theorem fresh_next (h : s.Lived calls told) (ha : s.Enabled a) (hq : ∀ g, a ≠ .signal g)
    (hs : .stop ∉ tell told a) :
    (s.next a).frames .main = [] ∧ ((s.next a).main ≠ .start → (s.next a).run = true) := by
  have hold : .stop ∉ told := fun hm => hs (by cases a <;> simp [tell,hm])
  obtain ⟨hf,hr⟩ := h.fresh hold
  constructor
  · by_contra hne
    cases (frames_next ha .main).ne_nil hne with
    | inl hm => exact hm hf
    | inr hb =>
      obtain ⟨rfl,-⟩ := begins_main hq hb.1
      simp [tell] at hs
  · cases a with
    | storeRun => exact fun _ => rfl
    | stopStore g =>
      have hg : s.frames g = [] := by
        by_cases hg : g = .main
        · exact hg ▸ hf
        · exact h.quiet g hg
      simp [Enabled,Ready,hg] at ha
    | spawn | construct | assign | await | wait | join | reset | reaped | members | readyNotify c
    | leaveNotify c =>
      simp only [next,Enabled,Ready,notifyOne,makePool,dropMembers,onPool] at *
      grind [CanNotify]
    | _ => exact hr

theorem begun_next (h : s.Lived calls told) (ha : s.Enabled a)
    (hm : (s.next a).main.starting = true) : tell told a = [] := by
  have hb := h.begun
  cases a with
  | stop => exact nomatch (show MainPc.idle.starting = true from ha.2.1 ▸ hm)
  | wait =>
    simp only [next,Enabled,Ready] at *
    grind [MainPc.starting]
  | storeRun | spawn | construct | assign | await | join | reset | reaped | members
  | readyNotify c | leaveNotify c =>
    simp only [next,tell,Enabled,Ready,notifyOne,makePool,dropMembers,onPool] at *
    grind [CanNotify,MainPc.starting]
  | _ => exact hb hm

theorem announced_next (hn : 1 ≤ num) (h : s.Lived calls told) (ha : s.Enabled a)
    (hm : (s.next a).main.starting = false) : (s.next a).listener.announced = true := by
  have hl := h.announced
  have hr := h.pooled.coherent.running
  cases a with
  | await =>
    by_cases hrun : s.running = true
    · exact ListenPc.announced_of_serving (hr ▸ hrun)
    · simp [next,hrun,MainPc.starting] at hm
  | construct => simp [next,make_some hn,MainPc.starting] at hm
  | storeRun | spawn | assign => simp [next,MainPc.starting] at hm
  | wait | join | reset | reaped | members =>
    refine hl ?_
    rw [ha.2.1]
    rfl
  | bind | ready | readyNotify c | test | poll | accept | offer | offered | leave
  | leaveNotify c =>
    simp only [next,Enabled,Ready,notifyOne,offerClient] at *
    grind [ListenPc.announced,CanNotify,MainPc.starting]
  | _ => exact hl hm

theorem assigned_next (h : s.Lived calls told) (ha : s.Enabled a)
    (hm : (s.next a).main = .await ∨ (s.next a).main = .asleep) : (s.next a).assigned = true := by
  have hs := h.assigned
  cases a with
  | assign => rfl
  | storeRun | spawn | construct | await | wait | join | reset | reaped | members
  | readyNotify c | leaveNotify c =>
    simp only [next,Enabled,Ready,notifyOne,makePool,dropMembers,onPool] at *
    grind [CanNotify]
  | _ => exact hs hm

theorem notifyOne_nil {c : Option (Sleeper num.toNat)} {h : Host num.toNat}
    (hf : (s.notifyOne c).frames h = []) : s.frames h = [] := by
  match c with
  | none | some .start => exact hf
  | some (.stop g j) =>
    by_cases hg : g = h
    · simpa [hg] using hf
    · simpa [hg] using hf

/-- A call of `Stop` leaves the main thread when it finds the flag cleared. -/
theorem stopped_next (h : s.Lived calls told) (ha : s.Enabled a) (hq : ∀ g, a ≠ .signal g)
    (hs : .stop ∈ tell told a) (hf : (s.next a).frames .main = []) :
    (s.next a).running = false := by
  have hst := h.stopped
  cases a with
  | stop =>
    by_cases hrun : s.running = true
    · simp [next,hrun] at hf
    · exact Bool.eq_false_iff.mpr hrun
  | wait => exact hst (by simpa [tell] using hs) hf
  | leave => rfl
  | ready =>
    cases hm : s.main.starting with
    | true => simp [tell,h.begun hm] at hs
    | false =>
      have hann : ListenPc.ready.announced = true := ha.2.1 ▸ h.announced hm
      cases hann
  | signal g => exact absurd rfl (hq g)
  | stopStore g | stopWrite g =>
    by_cases hg : g = .main
    · simp [next,hg] at hf
    · exact hst hs (by simpa [next,Ne.symm hg] using hf)
  | stopWait g =>
    by_cases hrun : s.running = true
    · by_cases hg : g = .main
      · simp [next,hg,hrun] at hf
      · exact hst hs (by simpa [next,Ne.symm hg] using hf)
    · exact Bool.eq_false_iff.mpr hrun
  | readyNotify c => exact hst hs (notifyOne_nil hf)
  | leaveNotify c => exact hst hs (notifyOne_nil hf)
  | _ => exact hst hs hf

theorem kept_next (hn : 1 ≤ num) (h : s.Lived calls told) (ha : s.Enabled a)
    (hw : .wait ∉ tell told a) (hm : (s.next a).main.starting = false) :
    (s.next a).joinable = true ∧ (s.next a).assigned = true := by
  have hk := h.kept
  have hwt := h.waiting
  cases a with
  | wait => simp [tell] at hw
  | stop => exact hk (by simpa [tell] using hw) hm
  | await =>
    have hs := h.assigned (Or.inl ha.2.1)
    have hj := (h.pooled.attached (Or.inl hs)).resolve_right (by rw [ha.2.1]; nofun)
    exact ⟨hj,hs⟩
  | construct => simp [next,make_some hn,MainPc.starting] at hm
  | storeRun | spawn | assign => simp [next,MainPc.starting] at hm
  | join => exact absurd (hwt (by rw [ha.2.1]; rfl)) hw
  | reset => exact absurd (hwt (by rw [ha.2.1]; rfl)) hw
  | reaped => exact absurd (hwt (by rw [ha.2.1]; rfl)) hw
  | members => exact hk hw (by rw [ha.2.1]; rfl)
  | readyNotify c | leaveNotify c =>
    simp only [next,Enabled,Ready,notifyOne,tell] at *
    grind [CanNotify,MainPc.starting]
  | _ => exact hk hw hm

theorem waiting_next (h : s.Lived calls told) (ha : s.Enabled a)
    (hm : (s.next a).main.waiting = true) : .wait ∈ tell told a := by
  have hw := h.waiting
  cases a with
  | wait => simp [tell]
  | stop => exact List.mem_append_left _ (hw hm)
  | join => exact hw (by rw [ha.2.1]; rfl)
  | reset => exact hw (by rw [ha.2.1]; rfl)
  | members =>
    by_contra hnw
    obtain ⟨hj,-⟩ := h.kept hnw (by rw [ha.2.1]; rfl)
    simp [next,hj,ha.2.1,MainPc.waiting] at hm
  | storeRun | spawn | construct | assign | await | reaped | readyNotify c | leaveNotify c =>
    simp only [next,Enabled,Ready,notifyOne,makePool,tell] at *
    grind [CanNotify,MainPc.waiting]
  | _ => exact hw hm

/-- What `Wait` leaves is not built again. -/
theorem gone_next (h : s.Lived calls told) (ha : s.Enabled a) (hw : .wait ∈ tell told a) :
    (s.next a).main.waiting = true ∨ (s.next a).joinable = false ∧ (s.next a).pool = none := by
  have hg := h.gone
  have hstart : .wait ∈ told → s.main.starting = false := by
    intro hw
    by_contra hm
    exact nomatch h.begun (by simpa using hm) ▸ hw
  cases a with
  | stop => exact hg (by simpa [tell] using hw)
  | wait =>
    by_cases hs : s.assigned = true
    · exact Or.inl (by simp [next,hs,MainPc.waiting])
    · right
      by_contra hne
      have hnw : .wait ∉ told := fun hw => by
        have hgone := hg hw
        simp [ha.2.1,MainPc.waiting] at hgone
        exact hne hgone
      exact hs (h.kept hnw (by rw [ha.2.1]; rfl)).2
  | join => exact Or.inl rfl
  | reset => exact Or.inl rfl
  | reaped => exact Or.inr ⟨h.pooled.coherent.reaping (Or.inr (Or.inl ha.2.1)),rfl⟩
  | pool b | offer | members =>
    have hgone := hg hw
    simp only [next,Enabled,Ready,onPool,offerClient,dropMembers] at *
    grind [MainPc.waiting]
  | storeRun | spawn | construct | assign | await | readyNotify c | leaveNotify c =>
    have hgone := hg hw
    have hst := hstart hw
    simp only [next,Enabled,Ready,notifyOne,makePool] at *
    grind [CanNotify,MainPc.waiting,MainPc.starting]
  | _ => exact hg hw

theorem next (hn : 1 ≤ num) (h : s.Lived calls told) (ha : s.Enabled a)
    (hq : ∀ g, a ≠ .signal g) : (s.next a).Lived calls (tell told a) where
  pooled := h.pooled.next ha
  quiet := h.quiet_next ha hq
  script := h.script_next ha
  begun := h.begun_next ha
  fresh := h.fresh_next ha hq
  announced := h.announced_next hn ha
  assigned := h.assigned_next ha
  stopped := h.stopped_next ha hq
  kept := h.kept_next hn ha
  waiting := h.waiting_next ha
  gone := h.gone_next ha

end Lived

theorem lived_of_run (hn : 1 ≤ num) {as : List (Action num)}
    (hv : (system num).Valid (init num calls) as) (hq : Undisturbed as) :
    ∃ told, ((system num).final (init num calls) as).Lived calls told :=
  System.along_invariant (M := system num) (C := fun _ a => ∀ g, a ≠ .signal g)
    (I := fun s => ∃ told, s.Lived calls told)
    (fun _ _ h ha hq => h.elim fun _ h => ⟨_,h.next hn ha hq⟩) ⟨[],lived_init⟩ hv
    (System.along_of_mem fun _ ha _ g hg => hq g (hg ▸ ha))

/-- When the members are destroyed, every call has been made, and the destructor has added a
`Stop` and a `Wait` exactly when nobody had called `Stop`. -/
theorem Lived.safe_iff (h : s.Lived calls told) (hd : s.Dropping) :
    s.Safe ↔ .stop ∉ calls ∨ .wait ∈ calls := by
  obtain ⟨-,hm,-,hcs,hdy⟩ := hd
  have hgone : .wait ∈ told → s.Safe := fun hw =>
    (h.gone hw).resolve_left (by rw [hm]; nofun)
  have hkept : .wait ∉ told → ¬s.Safe := fun hw hs =>
    nomatch (h.kept hw (by rw [hm]; rfl)).1.symm.trans hs.1
  rcases h.script with ⟨htold,hstop⟩ | ⟨htold,hstop,-⟩
  · rw [hcs,List.append_nil] at htold
    subst htold
    exact ⟨fun hs => Or.inr (by_contra fun hw => hkept hw hs),
      fun hs => hgone (hs.resolve_left fun hns => hns (hstop hdy))⟩
  · rw [hcs,List.append_nil] at htold
    exact iff_of_true (hgone (by simp [htold])) (Or.inl hstop)

/-- Destruction is safe exactly when `Start` returned, and a `Stop` was followed by a `Wait` or
there was none. The calls of `Stop` are those of the main thread: no signal handler makes one. -/
theorem destruction_safe_iff {as : List (Action num)}
    (hv : (system num).Valid (init num calls) as) (hq : Undisturbed as)
    (hd : ((system num).final (init num calls) as).Dropping) :
    ((system num).final (init num calls) as).Safe ↔
      1 ≤ num ∧ (.stop ∉ calls ∨ .wait ∈ calls) := by
  by_cases hn : 1 ≤ num
  · obtain ⟨told,h⟩ := lived_of_run hn hv hq
    rw [h.safe_iff hd,and_iff_right hn]
  · exact iff_of_false (refused_not_safe (by omega) hv hd) fun h => hn h.1

/-- `Start`, `Stop`, and the destructor, which finds `running_` cleared and does not wait. -/
def stopOnly : List (Action 1) :=
  [.storeRun,.spawn,.construct,.assign,.bind,.ready,.readyNotify none,.await,.stop,
    .stopStore .main,.stopWrite .main,.test,.leave,.leaveNotify none,.stopWait .main,.destroy]

theorem stopOnly_dropping : ((system 1).final (init 1 [.stop]) stopOnly).Dropping :=
  ⟨by decide,by decide,by decide,by decide,by decide⟩

theorem destruction_safe_iff_stopOnly :
    ((system 1).final (init 1 [.stop]) stopOnly).Safe ↔
      (1 : ℤ) ≤ 1 ∧ (Call.stop ∉ [Call.stop] ∨ Call.wait ∈ [Call.stop]) :=
  destruction_safe_iff (by decide) (by simp [Undisturbed,stopOnly]) stopOnly_dropping

/-- The listener is still joinable. -/
theorem not_destruction_safe :
    ¬∀ (calls : List Call) (as : List (Action 1)), (system 1).Valid (init 1 calls) as →
      Undisturbed as → ((system 1).final (init 1 calls) as).Dropping →
      ((system 1).final (init 1 calls) as).Safe := by
  intro h
  have hs := h [.stop] stopOnly (by decide) (by simp [Undisturbed,stopOnly]) stopOnly_dropping
  exact nomatch hs.1

end HttpServer
end Gabby.Http
