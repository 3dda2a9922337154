import Gabby.ThreadPoolOrder

/-! A call of `Offer` can return as soon as the owner of the mutex can act, and not before. -/
namespace Gabby
namespace ThreadPool

variable {n : ℕ} {π : Type}

def Action.OfOwner (i : Fin n) : Action n π → Prop
  | .sleep j | .pass j | .stop j | .start j _ | .finish j _ => j = i
  | _ => False

def Action.OfCall (p : π) : Action n π → Prop
  | .enter q _ | .push q _ | .notify q _ _ => q = p
  | _ => False

variable [DecidableEq π] {s : ThreadPool n π} {i : Fin n} {p : π} {k : Task}

/-! ## The owner of the mutex -/

def MayRelease (s : ThreadPool n π) (i : Fin n) : Prop :=
  ∃ as, (system n π).Valid s as ∧ (∀ a ∈ as, a.OfOwner i) ∧
    ((system n π).final s as).mux = none ∧ ((system n π).final s as).producer = s.producer

theorem mayRelease_step {a : Action n π} (ha : s.Enabled a) (ho : a.OfOwner i)
    (hp : (s.next a).producer = s.producer) (hr : (s.next a).MayRelease i) : s.MayRelease i := by
  obtain ⟨as,hv,hb,hm,hq⟩ := hr
  exact ⟨a::as,⟨ha,hv⟩,List.forall_mem_cons.mpr ⟨ho,hb⟩,hm,hq.trans hp⟩

theorem mayRelease_of_unlocked (hm : s.mux = none) : s.MayRelease i :=
  ⟨[],trivial,by simp,hm,rfl⟩

theorem mayRelease_of_running (hw : s.worker i = .running k) : s.MayRelease i :=
  mayRelease_step (a := .finish i k) hw rfl rfl (mayRelease_of_unlocked rfl)

theorem Ordered.mayRelease_of_pick (h : s.Ordered) (hw : s.worker i = .pick) :
    s.MayRelease i := by
  by_cases hd : s.done = true
  · exact mayRelease_step (a := .stop i) ⟨hw,hd⟩ rfl rfl (mayRelease_of_unlocked rfl)
  · obtain ⟨l,ls,hl⟩ := List.exists_cons_of_ne_nil ((h.ready i hw).resolve_left hd)
    exact mayRelease_step (a := .start i l) ⟨hw,hd,by simp [hl]⟩ rfl rfl
      (mayRelease_of_running (k := l) (by simp [ThreadPool.next]))

theorem Ordered.mayRelease_of_test (h : s.Ordered) (hw : s.worker i = .test) :
    s.MayRelease i := by
  by_cases ht : s.done ∨ s.tasks ≠ []
  · have ha : s.Enabled (.pass i) := ⟨hw,ht⟩
    exact mayRelease_step ha rfl rfl
      ((h.next ha).mayRelease_of_pick (by simp [ThreadPool.next]))
  · exact mayRelease_step (a := .sleep i) ⟨hw,ht⟩ rfl rfl (mayRelease_of_unlocked rfl)

theorem Ordered.mayRelease (h : s.Ordered) (hm : s.mux = some (.worker i)) : s.MayRelease i := by
  have hh := (h.exclusive.worker i).mpr hm
  match hw : s.worker i with
  | .test => exact h.mayRelease_of_test hw
  | .pick => exact h.mayRelease_of_pick hw
  | .running l => exact mayRelease_of_running hw
  | .crashed => exact absurd hw (h.safe i)
  | .lock | .asleep | .woken | .ended => simp [hw,WorkerPc.holds] at hh

/-- Nobody takes the mutex from a worker that does not act. -/
theorem Exclusive.kept_next (h : s.Exclusive) (hm : s.mux = some (.worker i)) {a : Action n π}
    (ha : s.Enabled a) (ho : ¬a.OfOwner i) : (s.next a).mux = some (.worker i) := by
  have hw := h.worker
  have hp := h.producer
  have hd := h.destructor
  cases a <;> simp only [ThreadPool.next,Enabled,Action.OfOwner,setWorker,setProducer,release,
    notifyOne,wakeAll] at * <;> grind [WorkerPc.holds,OfferPc.holds,DtorPc.holds]

/-! ## The call -/

theorem lock_next (hm : s.mux ≠ none) (hp : s.producer p = .lock k) {a : Action n π}
    (ha : s.Enabled a) : (s.next a).producer p = .lock k := by
  cases a with
  | offer q | enter q m | push q m | notify q m w =>
    simp only [ThreadPool.next,Enabled,setProducer,release,notifyOne] at *
    grind [Function.update_apply]
  | _ => exact hp

def MayReturn (s : ThreadPool n π) (p : π) : Prop :=
  ∃ as, (system n π).Valid s as ∧ (∀ a ∈ as, a.OfCall p) ∧
    ((system n π).final s as).producer p = .idle

theorem mayReturn_step {a : Action n π} (ha : s.Enabled a) (ho : a.OfCall p)
    (hr : (s.next a).MayReturn p) : s.MayReturn p := by
  obtain ⟨as,hv,hb,hi⟩ := hr
  exact ⟨a::as,⟨ha,hv⟩,List.forall_mem_cons.mpr ⟨ho,hb⟩,hi⟩

theorem mayReturn_of_idle (hp : s.producer p = .idle) : s.MayReturn p := ⟨[],trivial,by simp,hp⟩

theorem mayReturn_of_notify (hp : s.producer p = .notify k) : s.MayReturn p := by
  obtain ⟨w,hw⟩ := s.exists_canNotify
  exact mayReturn_step (a := .notify p k w) ⟨hp,hw⟩ rfl
    (mayReturn_of_idle (by simp [ThreadPool.next]))

theorem mayReturn_of_push (hp : s.producer p = .push k) : s.MayReturn p :=
  mayReturn_step (a := .push p k) hp rfl
    (mayReturn_of_notify (k := k) (by simp [ThreadPool.next]))

theorem mayReturn_of_lock (hp : s.producer p = .lock k) (hm : s.mux = none) : s.MayReturn p :=
  mayReturn_step (a := .enter p k) ⟨hp,hm⟩ rfl
    (mayReturn_of_push (k := k) (by simp [ThreadPool.next]))

/-- A call of `Offer` that need not wait for the mutex can return. -/
theorem mayReturn (h : s.mux = none ∨ ∀ k, s.producer p ≠ .lock k) : s.MayReturn p := by
  match hp : s.producer p with
  | .idle => exact mayReturn_of_idle hp
  | .notify l => exact mayReturn_of_notify hp
  | .push l => exact mayReturn_of_push hp
  | .lock l => exact mayReturn_of_lock hp (h.resolve_right fun hn => hn l hp)

end ThreadPool
end Gabby
