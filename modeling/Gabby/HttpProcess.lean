import Gabby.HttpServer
import Gabby.HttpShutdown

/-! The server as a process: its threads, and the handler that its workers run for the clients.
Whatever the interleaving, clients are served as one after the other in the order in which they
were accepted. -/
namespace Gabby

/-! ## Numbering the tasks -/

namespace ThreadPool

variable {n : ℕ} {s : ThreadPool n Unit} {a : Action n Unit}

/-- A single producer pushes the tasks in the order of its calls. -/
structure Numbered (s : ThreadPool n Unit) : Prop where
  offered : s.offered = List.range s.offered.length
  calling : ∀ k, (s.producer ()).pending = some k → k = s.offered.length ∧ s.calls = k + 1
  idle : (s.producer ()).pending = none → s.calls = s.offered.length

theorem numbered_init : (init n Unit).Numbered := ⟨rfl,nofun,fun _ => rfl⟩

theorem Numbered.next (h : s.Numbered) (ha : s.Enabled a) : (s.next a).Numbered := by
  have hc := h.calling
  have hi := h.idle
  have ho := h.offered
  cases a with
  | offer p =>
    have hp : s.producer () = .idle := ha
    refine ⟨ho,fun k hk => ?_,fun hk => ?_⟩
    · have hck : s.calls = k := by
        simpa [ThreadPool.next,setProducer,OfferPc.pending] using hk
      exact ⟨hck.symm.trans (hi (by rw [hp]; rfl)),congrArg (· + 1) hck⟩
    · simp [ThreadPool.next,setProducer,OfferPc.pending] at hk
  | enter p k =>
    have hp : s.producer () = .lock k := ha.1
    refine ⟨ho,fun l hl => ?_,fun hl => ?_⟩
    · have hkl : k = l := by
        simpa [ThreadPool.next,setProducer,OfferPc.pending] using hl
      exact hkl ▸ hc k (by rw [hp]; rfl)
    · simp [ThreadPool.next,setProducer,OfferPc.pending] at hl
  | push p k =>
    have hp : s.producer () = .push k := ha
    obtain ⟨hk,hcalls⟩ := hc k (by rw [hp]; rfl)
    refine ⟨?_,fun l hl => ?_,fun _ => ?_⟩
    · change s.offered ++ [k] = List.range (s.offered ++ [k]).length
      rw [List.length_append,List.length_singleton,List.range_succ,← ho,hk]
    · simp [ThreadPool.next,setProducer,release,OfferPc.pending] at hl
    · change s.calls = (s.offered ++ [k]).length
      rw [List.length_append,List.length_singleton,hcalls,hk]
  | notify p k w =>
    have hp : s.producer () = .notify k := ha.1
    refine ⟨ho,fun l hl => ?_,fun _ => hi (by rw [hp]; rfl)⟩
    simp [ThreadPool.next,setProducer,OfferPc.pending] at hl
  | _ => exact ⟨ho,hc,hi⟩

theorem eq_range_of_prefix {l : List ℕ} {m : ℕ} (h : l <+: List.range m) :
    l = List.range l.length := by
  have hl := List.prefix_iff_eq_take.mp h
  have hlen := h.length_le
  rw [List.length_range] at hlen
  rw [List.take_range,Nat.min_eq_left hlen] at hl
  exact hl

/-- The task that ends is the next in the order of the calls. -/
theorem Numbered.finishing (h : s.Numbered) (hs : s.Accounted) {i : Fin n} {k : Task}
    (hi : s.worker i = .running k) : k = s.finished.length ∧ k < s.calls := by
  have hstarted : s.finished ++ [k] <+: s.offered := by
    rw [← hs.busy i k hi]
    exact ⟨s.tasks,hs.ordered.order⟩
  have hk : k ∈ s.offered := hstarted.subset (by simp)
  rw [h.offered] at hstarted
  have hrange := eq_range_of_prefix hstarted
  rw [List.length_append,List.length_singleton,List.range_succ] at hrange
  exact ⟨by simpa using (List.append_inj' hrange rfl).2,hs.ordered.below k hk⟩

end ThreadPool

namespace Http

open Exec

namespace HttpServer

variable {num : ℤ} {s : HttpServer num} {a : Action num}

/-- The connections accepted and not yet offered to the pool. -/
def owed (s : HttpServer num) : ℕ := if s.listener = .offer then 1 else 0

def Joined (s : HttpServer num) : Prop := s.joinable = false ∧ s.listener = .exited

/-- The calls of `Offer` are for the connections accepted, in their order. -/
structure Counted (s : HttpServer num) : Prop where
  unbuilt : s.pool = none → s.Joined ∨ s.accepted = s.owed
  calls : ∀ p, s.pool = some p → p.calls + s.owed = s.accepted
  numbered : ∀ p, s.pool = some p → p.Numbered

theorem counted_init (num : ℤ) (calls : List Call) : (init num calls).Counted :=
  ⟨fun _ => .inr rfl,nofun,nofun⟩

theorem Counted.calls_le (h : s.Counted) {p : ThreadPool num.toNat Unit} (hp : s.pool = some p) :
    p.calls ≤ s.accepted := (Nat.le_add_right _ _).trans_eq (h.calls p hp)

theorem calls_next {p : ThreadPool num.toNat Unit} {b : ThreadPool.Action num.toNat Unit}
    (hb : s.Permits b) : (p.next b).calls = p.calls := by
  cases b with
  | offer q => exact hb.elim
  | _ => rfl

theorem owed_next (hs : s.Coherent) (ha : s.Enabled a) (ho : a = .offer → s.assigned = false) :
    (s.next a).accepted + s.owed = s.accepted + (s.next a).owed := by
  cases a with
  | spawn => simp [owed,HttpServer.next,hs.unborn.mpr (.inr ha.2.1)]
  | accept => simp [owed,HttpServer.next,show s.listener = _ from ha.2.1]
  | bind | ready | readyNotify c | leave | leaveNotify c | offered =>
    simp [owed,HttpServer.next,show s.listener = _ from ha.2.1]
  | test | poll =>
    have hl : s.listener ≠ .offer := by rw [ha.2.1]; decide
    simp only [owed,HttpServer.next,if_neg hl]
    split <;> rfl
  | offer => simp [owed,HttpServer.next,ho rfl]
  | _ => rfl

theorem joined_of_gone (hs : s.Coherent) (hm : s.main = .reap ∨ s.main = .gone) : s.Joined := by
  have hj := hs.reaping (.inr hm)
  refine ⟨hj,(hs.unjoined hj).resolve_left fun hl => ?_⟩
  have hb := hs.unborn.mp hl
  rcases hm with hm | hm <;> simp [hm] at hb

theorem pool_eq_none_of_next (hs : s.Pooled) (ha : s.Enabled a) (hr : a ≠ .reaped)
    (hp : (s.next a).pool = none) : s.pool = none := by
  cases a with
  | construct => exact hs.unbuilt (.inr (.inr ha.2.1))
  | pool b | reset => exact Option.map_eq_none_iff.mp hp
  | offer =>
    by_contra hsp
    by_cases hassigned : s.assigned = true <;> simp [HttpServer.next,hassigned,hsp] at hp
  | reaped => exact absurd rfl hr
  | _ => exact hp

theorem Counted.unbuilt_next (h : s.Counted) (hs : s.Pooled) (ha : s.Enabled a)
    (hp : (s.next a).pool = none) :
    (s.next a).Joined ∨ (s.next a).accepted = (s.next a).owed := by
  by_cases hr : a = .reaped
  · subst hr
    exact .inl (show s.Joined from joined_of_gone hs.coherent (.inl ha.2.1))
  have hsp := pool_eq_none_of_next hs ha hr hp
  have hassigned : s.assigned = false :=
    Bool.eq_false_of_not_eq_true fun h => hs.pointed (.inl h) hsp
  have howed := owed_next hs.coherent ha fun _ => hassigned
  rcases h.unbuilt hsp with ⟨hj,hl⟩ | hacc
  · refine .inl ?_
    cases a with
    | spawn =>
      have hm := hs.coherent.unborn.mpr (.inr ha.2.1)
      rw [hl] at hm
      cases hm
    | bind | ready | readyNotify c | test | poll | accept | offer | offered | leave
    | leaveNotify c =>
      have hn := ha.2.1
      rw [hl] at hn
      cases hn
    | join => exact ⟨rfl,hl⟩
    | _ => exact ⟨hj,hl⟩
  · exact .inr (by omega)

theorem Counted.next (h : s.Counted) (hs : s.Pooled) (ha : s.Enabled a) : (s.next a).Counted := by
  suffices hp : ∀ p, (s.next a).pool = some p →
      p.calls + (s.next a).owed = (s.next a).accepted ∧ p.Numbered from
    ⟨h.unbuilt_next hs ha,fun p h => (hp p h).1,fun p h => (hp p h).2⟩
  obtain ⟨hu,hc,hn⟩ := h
  intro p hp
  by_cases ho : a = .offer ∧ s.assigned = true
  · obtain ⟨rfl,hassigned⟩ := ho
    have hl : s.listener = .offer := ha.2.1
    obtain ⟨q,hq,rfl⟩ : ∃ q, s.pool = some q ∧ q.next (.offer ()) = p := by
      simpa [HttpServer.next,hassigned] using hp
    have hcalls := hc q hq
    refine ⟨?_,(hn q hq).next (hs.producing q hq (by rw [hl]; decide))⟩
    simpa [owed,hl,HttpServer.next,hassigned,ThreadPool.next] using hcalls
  have howed := owed_next hs.coherent ha fun he => Bool.eq_false_of_not_eq_true fun h => ho ⟨he,h⟩
  cases a with
  | construct =>
    obtain rfl := ThreadPool.make_eq_some hp
    refine ⟨?_,ThreadPool.numbered_init⟩
    rcases hu (hs.unbuilt (.inr (.inr ha.2.1))) with ⟨hj,-⟩ | hacc
    · rcases hs.attached (.inr (.inl ha.2.1)) with h | h
      · cases hj.symm.trans h
      · rw [show s.main = .construct from ha.2.1] at h
        cases h
    · change 0 + _ = _
      omega
  | pool b =>
    obtain ⟨q,hq,rfl⟩ := Option.map_eq_some_iff.mp hp
    have hb := ha.2.1
    simp only [PoolEnabled,hq] at hb
    rw [calls_next ha.2.2]
    exact ⟨hc q hq,(hn q hq).next hb⟩
  | reset =>
    obtain ⟨q,hq,rfl⟩ := Option.map_eq_some_iff.mp hp
    exact ⟨hc q hq,(hn q hq).next (a:=.destroy) (hs.living q hq (by rw [ha.2.1]; decide))⟩
  | reaped => cases hp
  | offer =>
    have hpool : (s.next .offer).pool = s.pool := if_neg fun h => ho ⟨rfl,h⟩
    have hcalls := hc p (hpool ▸ hp)
    exact ⟨by omega,hn p (hpool ▸ hp)⟩
  | _ =>
    have hcalls := hc p hp
    exact ⟨by omega,hn p hp⟩

end HttpServer

/-! ## One client -/

/-- An accepted connection: the error of the first system call of `Handle` that fails, if one
does, and the stream otherwise. -/
structure Client where
  failure : Option ℕ
  stream : Stream

/-- How the task of a client ended, and the bytes that the client got. -/
abbrev Reply := Except (Stop Exn) Unit × Bytes

variable {σ : Type}

/-- `HttpServer::Handle`, where `SetTimeout` and `fdopen` come first. -/
def handleClient (server : Exec (Conn σ) Exn Unit) (client : Client) : Exec (Conn σ) Exn Unit :=
  match client.failure with
  | some errno => Exec.throw (.systemError errno)
  | none => server

/-- The task that `Accept` offers to the pool; exceptions are logged. -/
def task (server : Exec (Conn σ) Exn Unit) (client : Client) : Exec (Conn σ) Exn Unit :=
  Exec.tryCatch (handleClient server client) fun _ => pure ()

def serveClient (server : Exec (Conn σ) Exn Unit) (app : σ) (client : Client) : Reply × σ :=
  let r := (task server client).run ⟨.init client.stream,app⟩
  ((r.1,r.2.delivered),r.2.app)

/-- Clients that are served one after the other, up to one that ends the process. -/
def serveAll (server : Exec (Conn σ) Exn Unit) : σ → List Client → List Reply × σ
  | app, [] => ([],app)
  | app, c::cs =>
    let r := serveClient server app c
    match r.1.1 with
    | .error _ => ([r.1],r.2)
    | .ok () => (r.1::(serveAll server r.2 cs).1,(serveAll server r.2 cs).2)

def Reply.Done (r : Reply) : Prop := r.1 = .ok ()

theorem serveAll_snoc {server : Exec (Conn σ) Exn Unit} {app app' : σ} {cs : List Client}
    {rs : List Reply} (hs : serveAll server app cs = (rs,app')) (hrs : ∀ r ∈ rs, r.Done)
    (c : Client) : serveAll server app (cs ++ [c]) =
      (rs ++ [(serveClient server app' c).1],(serveClient server app' c).2) := by
  induction cs generalizing app rs with
  | nil =>
    cases hs
    simp only [List.nil_append,serveAll]
    split <;> rfl
  | cons d cs ih =>
    simp only [List.cons_append,serveAll] at hs ⊢
    split at hs
    · rename_i e he
      cases hs
      cases he.symm.trans (hrs _ (by simp))
    · rename_i hok
      cases hs
      have hrest := ih rfl fun r hr => hrs r (List.mem_cons_of_mem _ hr)
      rw [hrest]
      rfl

/-! ## The process -/

/-- The threads, the state of the handlers, and the replies in the order of their tasks' ends. -/
structure Process (num : ℤ) (σ : Type) where
  server : HttpServer num
  app : σ
  replies : List Reply

namespace Process

variable {num : ℤ}

/-- The process steps as its threads do. A worker runs the handler between taking a task and
giving the mutex back, and it is the only thread that touches the handlers' state. -/
def next (handler : Exec (Conn σ) Exn Unit) (clients : Task → Client) (s : Process num σ) :
    HttpServer.Action num → Process num σ
  | .pool (.finish i k) =>
    let r := serveClient handler s.app (clients k)
    ⟨s.server.next (.pool (.finish i k)),r.2,s.replies ++ [r.1]⟩
  | a => { s with server := s.server.next a }

/-- No thread goes on after a task that ended the process. -/
def Enabled (s : Process num σ) (a : HttpServer.Action num) : Prop :=
  (∀ r ∈ s.replies, r.Done) ∧ s.server.Enabled a

/-- `clients k` is the connection that was accepted after `k` others. -/
def system (num : ℤ) (handler : Exec (Conn σ) Exn Unit) (clients : Task → Client) :
    System (Process num σ) (HttpServer.Action num) := ⟨Enabled,next handler clients⟩

def init (num : ℤ) (calls : List Call) (app : σ) : Process num σ :=
  ⟨HttpServer.init num calls,app,[]⟩

variable {handler : Exec (Conn σ) Exn Unit} {clients : Task → Client} {app : σ}
  {s : Process num σ} {a : HttpServer.Action num} {calls : List Call}

theorem server_next (a : HttpServer.Action num) :
    (s.next handler clients a).server = s.server.next a := by
  cases a with
  | pool b => cases b <;> rfl
  | _ => rfl

theorem quiet_next (ha : ∀ i k, a ≠ .pool (.finish i k)) :
    (s.next handler clients a).app = s.app ∧ (s.next handler clients a).replies = s.replies := by
  cases a with
  | pool b =>
    cases b with
    | finish i k => exact absurd rfl (ha i k)
    | _ => exact ⟨rfl,rfl⟩
  | _ => exact ⟨rfl,rfl⟩

/-- The replies so far are those to the first clients, served one after the other. -/
structure Serial (handler : Exec (Conn σ) Exn Unit) (clients : Task → Client) (app : σ)
    (s : Process num σ) : Prop where
  pooled : s.server.Pooled
  counted : s.server.Counted
  unbuilt : s.server.main = .start ∨ s.server.main = .spawn ∨ s.server.main = .construct →
    s.replies = []
  finished : ∀ p, s.server.pool = some p → p.finished.length = s.replies.length
  bounded : s.replies.length ≤ s.server.accepted
  served : serveAll handler app ((List.range s.replies.length).map clients) = (s.replies,s.app)

theorem serial_init : (init num calls app).Serial handler clients app where
  pooled := HttpServer.pooled_init
  counted := HttpServer.counted_init num calls
  unbuilt _ := rfl
  finished := nofun
  bounded := le_rfl
  served := rfl

theorem accepted_le_next (s : HttpServer num) (a : HttpServer.Action num) :
    s.accepted ≤ (s.next a).accepted := by
  cases a with
  | accept => exact Nat.le_succ _
  | _ => exact le_rfl

theorem unbuilt_of_next {s : HttpServer num} (ha : s.Enabled a)
    (hm : (s.next a).main = .start ∨ (s.next a).main = .spawn ∨ (s.next a).main = .construct) :
    s.main = .start ∨ s.main = .spawn ∨ s.main = .construct := by
  cases a with
  | storeRun => exact .inl ha.2.1
  | spawn => exact .inr (.inl ha.2.1)
  | construct => exact .inr (.inr ha.2.1)
  | assign | await | wait | join | reset | reaped | readyNotify c | leaveNotify c | members =>
    simp only [HttpServer.next,HttpServer.notifyOne,HttpServer.onPool,HttpServer.dropMembers] at hm
    grind
  | _ => exact hm

theorem finished_of_next {s : HttpServer num} (ha : ∀ i k, a ≠ .pool (.finish i k))
    (hc : a ≠ .construct) {p : ThreadPool num.toNat Unit} (hp : (s.next a).pool = some p) :
    ∃ q, s.pool = some q ∧ p.finished = q.finished := by
  cases a with
  | construct => exact absurd rfl hc
  | pool b =>
    obtain ⟨q,hq,rfl⟩ := Option.map_eq_some_iff.mp hp
    refine ⟨q,hq,?_⟩
    cases b with
    | finish i k => exact absurd rfl (ha i k)
    | _ => rfl
  | offer =>
    simp only [HttpServer.next,HttpServer.offerClient] at hp
    split at hp
    · obtain ⟨q,hq,rfl⟩ := Option.map_eq_some_iff.mp hp
      exact ⟨q,hq,rfl⟩
    · exact ⟨p,hp,rfl⟩
  | reset =>
    obtain ⟨q,hq,rfl⟩ := Option.map_eq_some_iff.mp hp
    exact ⟨q,hq,rfl⟩
  | reaped => cases hp
  | _ => exact ⟨p,hp,rfl⟩

/-- The end of a task, which is that of the next client. -/
theorem Serial.finish (h : s.Serial handler clients app) {i : Fin num.toNat} {k : Task}
    (ha : s.Enabled (.pool (.finish i k))) :
    (s.next handler clients (.pool (.finish i k))).Serial handler clients app := by
  obtain ⟨hdone,hs⟩ := ha
  obtain ⟨hb,hpermits⟩ := hs.2
  rcases hp : s.server.pool with _ | p
  · simp only [HttpServer.PoolEnabled,hp] at hb
  simp only [HttpServer.PoolEnabled,hp] at hb
  have hacc := (h.pooled.reached p hp).accounted
  obtain ⟨hk,hlt⟩ := (h.counted.numbered p hp).finishing hacc hb
  have hlen := h.finished p hp
  rw [hlen] at hk
  subst hk
  have hcalls := h.counted.calls_le hp
  refine ⟨h.pooled.next hs,h.counted.next h.pooled hs,fun hm => ?_,fun q hq => ?_,?_,?_⟩
  · cases (h.pooled.unbuilt hm).symm.trans hp
  · obtain ⟨p',hp',rfl⟩ := Option.map_eq_some_iff.mp hq
    obtain rfl : p' = p := Option.some.inj (hp'.symm.trans hp)
    change (p'.finished ++ [_]).length = (s.replies ++ [_]).length
    rw [List.length_append,List.length_append,hlen]
    rfl
  · change (s.replies ++ [_]).length ≤ s.server.accepted
    rw [List.length_append,List.length_singleton]
    exact Nat.lt_of_lt_of_le hlt hcalls
  · change serveAll handler app ((List.range (s.replies ++ [_]).length).map clients) = _
    rw [List.length_append,List.length_singleton,List.range_succ,List.map_append,
      List.map_singleton,serveAll_snoc h.served hdone]
    rfl

theorem Serial.next (h : s.Serial handler clients app) (ha : s.Enabled a) :
    (s.next handler clients a).Serial handler clients app := by
  by_cases hf : ∃ i k, a = .pool (.finish i k)
  · obtain ⟨i,k,rfl⟩ := hf
    exact h.finish ha
  have hf : ∀ i k, a ≠ .pool (.finish i k) := fun i k he => hf ⟨i,k,he⟩
  have hquiet : (s.next handler clients a).app = s.app ∧
      (s.next handler clients a).replies = s.replies := quiet_next hf
  obtain ⟨happ,hreplies⟩ := hquiet
  have hserver : (s.next handler clients a).server = s.server.next a := server_next a
  constructor
  · rw [hserver]
    exact h.pooled.next ha.2
  · rw [hserver]
    exact h.counted.next h.pooled ha.2
  · rw [hserver,hreplies]
    exact fun hm => h.unbuilt (unbuilt_of_next ha.2 hm)
  · rw [hserver,hreplies]
    intro p hp
    by_cases hc : a = .construct
    · subst hc
      obtain rfl := ThreadPool.make_eq_some hp
      rw [h.unbuilt (.inr (.inr ha.2.2.1))]
      rfl
    · obtain ⟨q,hq,hpq⟩ := finished_of_next hf hc hp
      rw [hpq]
      exact h.finished q hq
  · rw [hserver,hreplies]
    exact h.bounded.trans (accepted_le_next _ a)
  · rw [happ,hreplies]
    exact h.served

/-- In every state that the threads can reach, each client whose task has ended got what it
would have got had the clients been served one after the other, in the order in which they were
accepted. -/
theorem replies_serial (hr : (system num handler clients).Reachable (init num calls app) s) :
    s.replies.length ≤ s.server.accepted ∧
      serveAll handler app ((List.range s.replies.length).map clients) = (s.replies,s.app) := by
  have h : s.Serial handler clients app :=
    hr.invariant serial_init fun _ _ h ha => h.next ha
  exact ⟨h.bounded,h.served⟩

theorem mem_replies_final {r : Reply} (hr : r ∈ s.replies) (as : List (HttpServer.Action num)) :
    r ∈ ((system num handler clients).final s as).replies := by
  induction as generalizing s with
  | nil => exact hr
  | cons a as ih =>
    refine ih (s:=s.next handler clients a) ?_
    by_cases hf : ∃ i k, a = .pool (.finish i k)
    · obtain ⟨i,k,rfl⟩ := hf
      exact List.mem_append_left _ hr
    · rw [(quiet_next fun i k he => hf ⟨i,k,he⟩).2]
      exact hr

/-- A run of the threads is a run of the process when no task ends it. -/
theorem valid_of_done {as : List (HttpServer.Action num)}
    (hv : (HttpServer.system num).Valid s.server (as ++ [a]))
    (hd : ∀ r ∈ ((system num handler clients).final s as).replies, r.Done) :
    (system num handler clients).Valid s (as ++ [a]) := by
  induction as generalizing s with
  | nil => exact ⟨⟨hd,hv.1⟩,trivial⟩
  | cons b as ih =>
    refine ⟨⟨fun r hr => hd r (mem_replies_final hr (b::as)),hv.1⟩,
      ih (s:=s.next handler clients b) ?_ hd⟩
    rw [server_next]
    exact hv.2

def worker : Fin (Int.toNat 1) := ⟨0,by decide⟩

def oneClient : List (HttpServer.Action 1) := [
  .storeRun,.spawn,.construct,.assign,.bind,.ready,.readyNotify none,.await,.test,.connect,.poll,
  .accept,.offer,.pool (.enter () 0),.pool (.push () 0),.pool (.notify () 0 none),.offered,
  .pool (.lock worker),.pool (.pass worker),.pool (.start worker 0)]

theorem oneClient_valid (handler : Exec (Conn σ) Exn Unit) (clients : Task → Client) (app : σ) :
    (system 1 handler clients).Valid (init 1 [] app)
      (oneClient ++ [.pool (.finish worker 0)]) := by
  have hv : (HttpServer.system 1).Valid (HttpServer.init 1 [])
      (oneClient ++ [.pool (.finish worker 0)]) := by decide
  have hnone : ((system 1 handler clients).final (init 1 [] app) oneClient).replies = [] := rfl
  exact valid_of_done hv (by simp [hnone])

def twoClients (i j : Fin (Int.toNat 2)) : List (HttpServer.Action 2) := [
  .storeRun,.spawn,.construct,.assign,.bind,.ready,.readyNotify none,.await,.connect,.connect,
  .test,.poll,.accept,.offer,.pool (.enter () 0),.pool (.push () 0),.pool (.notify () 0 none),
  .offered,.test,.poll,.accept,.offer,.pool (.enter () 1),.pool (.push () 1),
  .pool (.notify () 1 none),.offered,.pool (.lock i),.pool (.pass i),.pool (.start i 0),
  .pool (.finish i 0),.pool (.lock j),.pool (.pass j),.pool (.start j 1)]

def greetings (k : Task) : Client :=
  ⟨none,.ofBytes (if k = 0 then ascii "GET / HTTP/1.1\r\n\r\n" else ascii "PUT /\r\n")⟩

def greet : Exec (Conn Unit) Exn Unit :=
  handle fun _ => Conn.onWriter (SocketWriter.writeStatus .ok)

theorem done_greet : (serveClient greet () (greetings 0)).1.Done :=
  (by decide +kernel : (serveClient greet () (greetings 0)).1.1 = .ok ())

theorem replies_serial_twoClients :
    let s := (system 2 greet greetings).final (init 2 [] ())
      (twoClients ⟨1,by decide⟩ ⟨0,by decide⟩ ++ [.pool (.finish ⟨0,by decide⟩ 1)])
    s.replies.length ≤ s.server.accepted ∧
      serveAll greet () ((List.range s.replies.length).map greetings) = (s.replies,s.app) := by
  intro s
  have hone : ((system 2 greet greetings).final (init 2 [] ())
      (twoClients ⟨1,by decide⟩ ⟨0,by decide⟩)).replies =
      [(serveClient greet () (greetings 0)).1] := rfl
  refine replies_serial ⟨_,valid_of_done (by decide) fun r hr => ?_,rfl⟩
  rw [hone,List.mem_singleton] at hr
  rw [hr]
  exact done_greet

end Process
end Http
end Gabby
