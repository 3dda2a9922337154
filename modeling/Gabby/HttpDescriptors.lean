import Gabby.HttpProcess

/-! The descriptors of the clients. A connection is owned by the copies of the task that is made
for it, and is closed with the last of them. -/
namespace Gabby

namespace ThreadPool

variable {n : ℕ} {π : Type} {s : ThreadPool n π} {k : ℕ}

/-- A copy of the task is in the queue or with the worker that runs it. -/
def Holds (s : ThreadPool n π) (k : ℕ) : Prop := k ∈ s.tasks ∨ ∃ i, s.worker i = .running k

instance : Decidable (s.Holds k) := inferInstanceAs (Decidable (_ ∨ _))

theorem Accounted.mem_offered_iff (h : s.Accounted) :
    k ∈ s.offered ↔ s.Holds k ∨ k ∈ s.finished := by
  rw [← h.ordered.order,List.mem_append,Holds]
  by_cases hrun : ∃ i l, s.worker i = .running l
  · obtain ⟨i,l,hi⟩ := hrun
    have hl : (∃ j, s.worker j = .running k) ↔ k = l := by
      constructor
      · rintro ⟨j,hj⟩
        have hs := (h.busy j k hj).symm.trans (h.busy i l hi)
        simpa using hs
      · rintro rfl
        exact ⟨i,hi⟩
    rw [hl,h.busy i l hi,List.mem_append,List.mem_singleton]
    tauto
  · have hnone : ¬∃ j, s.worker j = .running k := fun ⟨j,hj⟩ => hrun ⟨j,k,hj⟩
    rw [h.free fun i l hi => hrun ⟨i,l,hi⟩]
    tauto

/-- Only `Offer` brings copies of a task. -/
theorem holds_of_next [DecidableEq π] {a : Action n π} (ha : s.Enabled a) (h : (s.next a).Holds k)
    (hp : ∀ p, a ≠ .push p k) :
    s.Holds k := by
  cases a with
  | push p l =>
    rcases h with h | h
    · rcases List.mem_append.mp h with h | h
      · exact .inl h
      · obtain rfl := List.mem_singleton.mp h
        exact absurd rfl (hp p)
    · exact .inr h
  | start i l =>
    obtain ⟨-,-,hl⟩ := ha
    rcases h with h | ⟨j,hj⟩
    · exact .inl (List.mem_of_mem_tail h)
    · by_cases hij : j = i
      · subst hij
        obtain rfl : l = k := by simpa [ThreadPool.next] using hj
        exact .inl (List.mem_of_head? hl)
      · exact .inr ⟨j,by simpa [ThreadPool.next,hij] using hj⟩
  | finish i l =>
    rcases h with h | ⟨j,hj⟩
    · exact .inl h
    · by_cases hij : j = i
      · simp [ThreadPool.next,hij] at hj
      · exact .inr ⟨j,by simpa [ThreadPool.next,hij] using hj⟩
  | _ =>
    rcases h with h | h
    · exact .inl h
    · obtain ⟨j,hj⟩ := h
      exact .inr ⟨j,(running_next ha (by simp) (by simp) j k).mp hj⟩

/-- Only the end of a task leaves no copy of it. -/
theorem holds_next [DecidableEq π] {a : Action n π} (ha : s.Enabled a) (h : s.Holds k)
    (hf : ∀ i, a ≠ .finish i k) : (s.next a).Holds k := by
  cases a with
  | push p l => exact h.imp_left fun h => List.mem_append_left _ h
  | start i l =>
    obtain ⟨hpick,-,hl⟩ := ha
    by_cases hk : l = k
    · subst hk
      exact .inr ⟨i,by simp [ThreadPool.next]⟩
    · rcases h with h | ⟨j,hj⟩
      · obtain ⟨ts,hts⟩ := List.head?_eq_some_iff.mp hl
        rw [hts] at h
        refine .inl ?_
        simp only [ThreadPool.next,hts,List.tail_cons]
        exact (List.mem_cons.mp h).resolve_left (Ne.symm hk)
      · have hij : j ≠ i := by
          rintro rfl
          cases hpick.symm.trans hj
        exact .inr ⟨j,by simpa [ThreadPool.next,hij] using hj⟩
  | finish i l =>
    rcases h with h | ⟨j,hj⟩
    · exact .inl h
    · have hij : j ≠ i := by
        rintro rfl
        obtain rfl : l = k := by simpa using (ha : s.worker j = _).symm.trans hj
        exact hf j rfl
      exact .inr ⟨j,by simpa [ThreadPool.next,hij] using hj⟩
  | _ =>
    rcases h with h | h
    · exact .inl h
    · obtain ⟨j,hj⟩ := h
      exact .inr ⟨j,(running_next ha (by simp) (by simp) j k).mpr hj⟩

/-- The calls that have come this far are in the queue's history, but for the one that is
under way. -/
theorem Numbered.mem_offered {s : ThreadPool n Unit} (h : s.Numbered) (hk : k < s.calls) :
    k ∈ s.offered ∨ k + 1 = s.calls ∧ s.producer () ≠ .idle := by
  rw [h.offered,List.mem_range]
  rcases hp : (s.producer ()).pending with _ | l
  · exact .inl (h.idle hp ▸ hk)
  · obtain ⟨rfl,hc⟩ := h.calling l hp
    rcases Nat.lt_or_ge k s.offered.length with hlt | hge
    · exact .inl hlt
    · refine .inr ⟨?_,fun hi => ?_⟩
      · exact Nat.le_antisymm hk (hc ▸ Nat.succ_le_succ hge)
      · rw [hi] at hp
        cases hp

end ThreadPool

namespace Http
namespace HttpServer

variable {num : ℤ} {s : HttpServer num} {a : Action num} {k : ℕ} {calls : List Call}

/-- `Accept` has the connection, in its own variable or in the argument of `Offer`. -/
def Hands (s : HttpServer num) (k : ℕ) : Prop :=
  (s.listener = .offer ∨ s.listener = .offering) ∧ k + 1 = s.accepted

/-- The descriptor of the connection accepted after `k` others is open. -/
def Open (s : HttpServer num) (k : ℕ) : Prop := s.Hands k ∨ ∃ p ∈ s.pool, p.Holds k

def Closes (s : HttpServer num) (a : Action num) (k : ℕ) : Prop :=
  s.Open k ∧ ¬(s.next a).Open k

theorem open_of_none (hp : s.pool = none) : s.Hands k ↔ s.Open k := by simp [Open,hp]

theorem open_of_some {p : ThreadPool num.toNat Unit} (hp : s.pool = some p) :
    s.Hands k ∨ p.Holds k ↔ s.Open k := by simp [Open,hp]

instance : Decidable (s.Hands k) := inferInstanceAs (Decidable (_ ∧ _))

instance : Decidable (s.Open k) :=
  match hp : s.pool with
  | none => decidable_of_iff _ (open_of_none hp)
  | some _ => decidable_of_iff _ (open_of_some hp)

structure Serving (s : HttpServer num) : Prop where
  pooled : s.Pooled
  counted : s.Counted

theorem serving_init : (init num calls).Serving := ⟨pooled_init,counted_init num calls⟩

theorem open_of_accepted (hk : ¬k < s.accepted) (hlt : k < (s.next a).accepted) :
    (s.next a).Open k := by
  cases a with
  | accept => exact .inl ⟨.inl rfl,by simp only [HttpServer.next] at *; omega⟩
  | _ => exact absurd hlt hk

namespace Serving

theorem next (h : s.Serving) (ha : s.Enabled a) : (s.next a).Serving :=
  ⟨h.pooled.next ha,h.counted.next h.pooled ha⟩

variable {p : ThreadPool num.toNat Unit}

theorem accounted (h : s.Serving) (hp : s.pool = some p) : p.Accounted :=
  (h.pooled.reached p hp).accounted

theorem lt_of_mem_offered (h : s.Serving) (hp : s.pool = some p) (hk : k ∈ p.offered) :
    k < s.accepted :=
  ((h.accounted hp).ordered.below k hk).trans_le (h.counted.calls_le hp)

theorem lt_of_open (h : s.Serving) (hk : s.Open k) : k < s.accepted := by
  rcases hk with hk | ⟨p,hp,hk⟩
  · have := hk.2
    omega
  · exact h.lt_of_mem_offered hp ((h.accounted hp).mem_offered_iff.mpr (.inl hk))

theorem open_or_finished (h : s.Serving) (hp : s.pool = some p) (hk : k < s.accepted) :
    s.Open k ∨ k ∈ p.finished := by
  by_cases hands : s.Hands k
  · exact .inl (.inl hands)
  have hcalls := h.counted.calls p hp
  have hlt : k < p.calls := by
    by_cases hl : s.listener = .offer
    · have hlast : k + 1 ≠ s.accepted := fun he => hands ⟨.inl hl,he⟩
      rw [owed,if_pos hl] at hcalls
      omega
    · rw [owed,if_neg hl] at hcalls
      omega
  rcases (h.counted.numbered p hp).mem_offered hlt with hoff | ⟨hlast,hcalling⟩
  · exact ((h.accounted hp).mem_offered_iff.mp hoff).imp_left fun hold => .inr ⟨p,hp,hold⟩
  · -- the task of the call that is under way has still to be pushed
    have hl : s.listener = .offering := by
      by_contra hl
      exact hcalling (h.pooled.producing p hp hl)
    refine absurd ⟨.inr hl,?_⟩ hands
    rw [owed,hl,if_neg (by decide)] at hcalls
    exact hlast.trans hcalls

theorem open_of_next (h : s.Serving) (ha : s.Enabled a) (hk : k < s.accepted)
    (ho : (s.next a).Open k) : s.Open k := by
  rcases ho with ⟨hl,hlast⟩ | ⟨q,hq,ho⟩
  · refine .inl ⟨?_,?_⟩
    · cases a with
      | accept => exact absurd hk (Nat.succ.inj hlast).not_lt
      | offer => exact .inl ha.2.1
      | spawn | bind | ready | readyNotify c | offered | leave | leaveNotify c =>
        simp [HttpServer.next] at hl
      | test | poll =>
        simp only [HttpServer.next] at hl
        split at hl <;> simp at hl
      | _ => exact hl
    · cases a with
      | accept => exact absurd hk (Nat.succ.inj hlast).not_lt
      | _ => exact hlast
  · cases a with
    | construct =>
      obtain rfl := ThreadPool.make_eq_some hq
      simp [ThreadPool.Holds,ThreadPool.init] at ho
    | pool b =>
      obtain ⟨p,hp,rfl⟩ := Option.map_eq_some_iff.mp hq
      have hb := ha.2.1
      simp only [PoolEnabled,hp] at hb
      by_cases hpush : b = .push () k
      · -- the task is pushed by the call of `Offer` that `Accept` has made for it
        subst hpush
        have hl : s.listener = .offering := ha.2.2.1
        have hcalls := h.counted.calls p hp
        rw [owed,hl,if_neg (by decide)] at hcalls
        have hpending : (p.producer ()).pending = some k := by
          rw [show p.producer () = .push k from hb]
          rfl
        exact .inl ⟨.inr hl,((h.counted.numbered p hp).calling k hpending).2.symm.trans hcalls⟩
      · exact .inr ⟨p,hp,ThreadPool.holds_of_next hb ho fun _ => hpush⟩
    | offer =>
      simp only [HttpServer.next,offerClient] at hq
      split at hq
      · obtain ⟨p,hp,rfl⟩ := Option.map_eq_some_iff.mp hq
        exact .inr ⟨p,hp,ho⟩
      · exact .inr ⟨q,hq,ho⟩
    | reset =>
      obtain ⟨p,hp,rfl⟩ := Option.map_eq_some_iff.mp hq
      exact .inr ⟨p,hp,ho⟩
    | reaped => cases hq
    | _ => exact .inr ⟨q,hq,ho⟩

theorem not_open_of_gone (h : s.Serving) (hm : s.main = .gone) : ¬s.Open k := by
  have hj := joined_of_gone h.pooled.coherent (.inr hm)
  rintro (hk | ⟨p,hp,-⟩)
  · rcases hk.1 with hl | hl <;> cases hj.2.symm.trans hl
  · have hassigned : ¬s.assigned = true := fun hs => by
      rcases h.pooled.attached (.inl hs) with hj' | hm'
      · cases hj.1.symm.trans hj'
      · cases hm.symm.trans hm'
    have hlinked := h.pooled.linked (by rw [show s.pool = some p from hp]; simp)
    simp [hm,hassigned] at hlinked

/-- A task in a pool that has shut down was never run. -/
theorem queued_of_reaped (h : s.Serving) (ha : s.Enabled .reaped) (ho : s.Open k) :
    ∃ p ∈ s.pool, k ∈ p.tasks := by
  have hl := (joined_of_gone h.pooled.coherent (.inl ha.2.1)).2
  rcases ho with hk | ⟨p,hp,hq | ⟨i,hi⟩⟩
  · rcases hk.1 with hl' | hl' <;> cases hl.symm.trans hl'
  · exact ⟨p,hp,hq⟩
  · have hret := ha.2.2.2
    simp only [PoolReturned,show s.pool = some p from hp] at hret
    have hended := (h.accounted hp).ended i (by rw [ThreadPool.joined,hret]; exact i.2)
    cases hended.symm.trans hi

/-- Apart from the end of the pool, a connection goes with one of the two owners. -/
theorem open_next (h : s.Serving) (ha : s.Enabled a) (ho : s.Open k) (hr : a ≠ .reaped)
    (hf : ∀ i, a ≠ .pool (.finish i k)) (hoff : a ≠ .offered) : (s.next a).Open k := by
  have hands : ∀ {pc}, s.listener = pc → pc ≠ .offer → pc ≠ .offering → ¬s.Hands k := by
    rintro pc hpc hne hne' ⟨hl | hl,-⟩
    · exact hne (hpc.symm.trans hl)
    · exact hne' (hpc.symm.trans hl)
  cases a with
  | pool b =>
    obtain ⟨-,hb,-⟩ := ha
    refine ho.imp_right fun ⟨p,hp,hold⟩ => ⟨p.next b,?_,?_⟩
    · simp only [HttpServer.next,onPool_pool,show s.pool = some p from hp]
      rfl
    · simp only [PoolEnabled,show s.pool = some p from hp] at hb
      exact ThreadPool.holds_next hb hold fun i hi => hf i (congrArg _ hi)
  | offer =>
    rcases ho with ⟨hl,hlast⟩ | ⟨p,hp,hold⟩
    · refine .inl ⟨?_,hlast⟩
      simp only [HttpServer.next,offerClient_listener]
      split
      · exact .inr rfl
      · exact hl
    · refine .inr ?_
      simp only [HttpServer.next,offerClient_pool,show s.pool = some p from hp]
      split
      · exact ⟨_,rfl,hold⟩
      · exact ⟨p,rfl,hold⟩
  | reset =>
    refine ho.imp_right fun ⟨p,hp,hold⟩ => ⟨p.next .destroy,?_,hold⟩
    simp only [HttpServer.next,onPool_pool,show s.pool = some p from hp]
    rfl
  | construct =>
    have hnone := h.pooled.unbuilt (.inr (.inr ha.2.1))
    exact .inl (ho.resolve_right (by simp [hnone]))
  | spawn =>
    have habsent := h.pooled.coherent.unborn.mpr (.inr ha.2.1)
    exact .inr (ho.resolve_left (hands habsent (by decide) (by decide)))
  | offered => exact absurd rfl hoff
  | reaped => exact absurd rfl hr
  | accept | bind | ready | readyNotify | test | poll | leave | leaveNotify =>
    exact .inr (ho.resolve_left (hands ha.2.1 (by decide) (by decide)))
  | _ => exact ho

/-- A connection is closed at the end of its task, or at the return of `Offer` when its task has
ended by then, or with the pool that has not run it. -/
theorem closes_cases (h : s.Serving) (ha : s.Enabled a) (hc : s.Closes a k) :
    (∃ i, a = .pool (.finish i k)) ∨ (a = .offered ∧ ∃ p ∈ s.pool, k ∈ p.finished) ∨
      a = .reaped ∧ ∃ p ∈ s.pool, k ∈ p.tasks := by
  obtain ⟨ho,hn⟩ := hc
  by_cases hr : a = .reaped
  · subst hr
    exact .inr (.inr ⟨rfl,h.queued_of_reaped ha ho⟩)
  by_cases hf : ∃ i, a = .pool (.finish i k)
  · exact .inl hf
  have hoff : a = .offered := by
    by_contra hoff
    exact hn (h.open_next ha ho hr (fun i hi => hf ⟨i,hi⟩) hoff)
  subst hoff
  refine .inr (.inl ⟨rfl,?_⟩)
  have hreturned := ha.2.2.2
  rcases hp : s.pool with _ | p
  · simp [OfferReturned,hp] at hreturned
  · exact ⟨p,rfl,((h.next ha).open_or_finished hp (h.lt_of_open ho)).resolve_left hn⟩

end Serving

/-- Each connection that the server accepts is closed once at most, and every one has been when
the server is gone. It is closed at the end of its task, or at the return of `Offer` to `Accept`
when the task has ended by then, or at the end of the pool with the task still in the queue. -/
theorem descriptors_closed {as : List (Action num)}
    (hv : (system num).Valid (init num calls) as) (k : ℕ) :
    let t := (system num).final (init num calls) as
    (system num).falls (·.Open k) (init num calls) as + (if t.Open k then 1 else 0) =
        (if k < t.accepted then 1 else 0) ∧
      (t.main = .gone → ¬t.Open k) ∧
      ∀ bs a cs, as = bs ++ a::cs → ((system num).final (init num calls) bs).Closes a k →
        (∃ i, a = .pool (.finish i k)) ∨
          (a = .offered ∧ ∃ p ∈ ((system num).final (init num calls) bs).pool, k ∈ p.finished) ∨
          a = .reaped ∧ ∃ p ∈ ((system num).final (init num calls) bs).pool, k ∈ p.tasks := by
  have hstep : ∀ (s : HttpServer num) a, s.Serving → s.Enabled a → (s.next a).Serving :=
    fun _ _ h ha => h.next ha
  refine ⟨?_,?_,?_⟩
  · have hfalls := System.falls_add (Q:=fun s => k < s.accepted) hstep (fun _ h => h.lt_of_open)
      (fun s a _ _ hk => hk.trans_le (Process.accepted_le_next s a))
      (fun _ _ h ha hk ho => h.open_of_next ha hk ho)
      (fun _ _ _ _ hk hlt => open_of_accepted hk hlt) serving_init hv
    simpa [init,Open,Hands] using hfalls
  · exact (System.run_invariant hstep serving_init hv).not_open_of_gone
  · rintro bs a cs rfl hc
    obtain ⟨hb,ha,-⟩ := System.valid_append.mp hv
    exact (System.run_invariant hstep serving_init hb).closes_cases ha hc

theorem descriptors_closed_oneClient :
    let as := Process.oneClient ++ [.pool (.finish Process.worker 0)]
    let t := (system 1).final (init 1 []) as
    (system 1).falls (·.Open 0) (init 1 []) as + (if t.Open 0 then 1 else 0) =
        (if 0 < t.accepted then 1 else 0) ∧
      (t.main = .gone → ¬t.Open 0) ∧
      ∀ bs a cs, as = bs ++ a::cs → ((system 1).final (init 1 []) bs).Closes a 0 →
        (∃ i, a = .pool (.finish i 0)) ∨
          (a = .offered ∧ ∃ p ∈ ((system 1).final (init 1 []) bs).pool, 0 ∈ p.finished) ∨
          a = .reaped ∧ ∃ p ∈ ((system 1).final (init 1 []) bs).pool, 0 ∈ p.tasks :=
  descriptors_closed (by decide) 0

end HttpServer
end Http
end Gabby
