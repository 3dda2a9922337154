import Gabby.JsonText
import Gabby.Transition

/-! The recursion of `Parser::Value` as a machine with a stack of its own: one frame for each
activation that waits for a value, which is one for each bracket that is open. -/
namespace Gabby.Json

open Exec

namespace Parser

/-- An activation that waits for an element, or for the value of a member. -/
inductive Frame
  | array (values : List Value)
  | object (values : Dict Bytes Value) (key : Bytes)

inductive ValuePc
  | start
  | elements (values : List Value) | endElements (values : List Value)
  | members (values : Dict Bytes Value) | endMembers (values : Dict Bytes Value)
  | done (value : Value)

/-- The activations of `Value`, those that wait from the innermost out. -/
structure Calls where
  stack : List Frame
  pc : ValuePc

variable {σ : Type} [TokenSource σ]

/-! ## The machine -/

/-- What `Value` finds at its start: a value of one token, or the bracket of an array or an
object. -/
inductive Entry
  | scalar (value : Value) | array | object

def Entry.pc : Entry → ValuePc
  | scalar v => .done v
  | array => .elements []
  | object => .members []

/-- From the start of `Value` to its end or to the head of one of its loops. -/
def enter : Exec (Parser σ) Exn Entry := do
  match ← peek with
  | none => Exec.throw unexpectedEof
  | some tok =>
    match tok.type with
    | .num => do
      let d ← (← next).cargo.getDouble
      pure (.scalar (.number d))
    | .str => do
      let s ← (← next).cargo.getString
      pure (.scalar (.string s))
    | .bool => do
      let b ← (← next).cargo.getBool
      pure (.scalar (.boolean b))
    | .nil => do
      let _ ← next
      pure (.scalar .nil)
    | .lbracket => do
      let _ ← eat .lbracket
      pure .array
    | .lbrace => do
      let _ ← next
      pure .object
    | type => Exec.throw (badValue type)

/-- The head of the loop over the elements: whether there is one more to read. -/
def element (values : List Value) : Exec (Parser σ) Exn Bool := do
  match ← peek with
  | none => pure false
  | some next =>
    if next.type = .rbracket then pure false
    else do
      eatSeparator values.isEmpty
      pure true

/-- The head of the loop over the members: the key of the next, if there is one. -/
def member (values : Dict Bytes Value) : Exec (Parser σ) Exn (Option Bytes) := do
  match ← peek with
  | none => pure none
  | some next =>
    if next.type = .rbrace then pure none
    else do
      eatSeparator values.isEmpty
      let key ← (← eat .str).cargo.getString
      let _ ← eat .colon
      pure (some key)

namespace Calls

def start : Calls := ⟨[],.start⟩

def returned (c : Calls) : Option Value :=
  match c.pc, c.stack with
  | .done v, [] => some v
  | _, _ => none

/-- One step of the innermost activation: a call of `Value`, a return from it, or the code
between them. -/
def step : Calls → Exec (Parser σ) Exn Calls
  | ⟨k,.start⟩ => do
    let entry ← enter
    pure ⟨k,entry.pc⟩
  | ⟨k,.elements vs⟩ => do
    let more ← element vs
    pure (if more then ⟨.array vs::k,.start⟩ else ⟨k,.endElements vs⟩)
  | ⟨k,.endElements vs⟩ => do
    let _ ← eat .rbracket
    pure ⟨k,.done (.array vs)⟩
  | ⟨k,.members ms⟩ => do
    let key ← member ms
    pure (match key with
      | some key => ⟨.object ms key::k,.start⟩
      | none => ⟨k,.endMembers ms⟩)
  | ⟨k,.endMembers ms⟩ => do
    let _ ← eat .rbrace
    pure ⟨k,.done (.object ms)⟩
  | ⟨.array vs::k,.done v⟩ => pure ⟨k,.elements (vs ++ [v])⟩
  | ⟨.object ms key::k,.done v⟩ => pure ⟨k,.members (ms.assign key v)⟩
  | ⟨[],.done v⟩ => pure ⟨[],.done v⟩

end Calls

variable (σ) in
/-- The machine stops when the first activation has returned, or at an exception. -/
def machine : System (Calls × Parser σ) Unit where
  enabled s _ := s.1.returned = none ∧ ∃ c q, s.1.step.run s.2 = (.ok c,q)
  next s _ :=
    match s.1.step.run s.2 with
    | (.ok c,q) => (c,q)
    | (.error _,q) => (s.1,q)

/-! ## The recursion runs on it -/

/-- The machine goes where the code ends, to a state that tells what it returned, or it comes
to a step that throws as the code does. -/
def Follows {α : Type} (s : Calls × Parser σ) (r : Except (Stop Exn) α × Parser σ)
    (c : α → Calls) : Prop :=
  match r with
  | (.ok a,q) => (machine σ).Reachable s (c a,q)
  | (.error e,q) => e = .outOfFuel ∨
      ∃ t, (machine σ).Reachable s t ∧ t.1.returned = none ∧ t.1.step.run t.2 = (.error e,q)

section Follows

variable {α β : Type} {s s' : Calls × Parser σ} {p q : Parser σ} {c : Calls}
  {g : α → Calls} {g' : β → Calls}

theorem reachable_step {c' : Calls} (hc : c.returned = none) (hr : c.step.run p = (.ok c',q)) :
    (machine σ).Reachable (c,p) (c',q) := by
  have hen : (machine σ).enabled (c,p) () := ⟨hc,c',q,hr⟩
  have hnext : (machine σ).next (c,p) () = (c',q) := by simp only [machine,hr]
  exact hnext ▸ System.Reachable.single hen

theorem Follows.after {r : Except (Stop Exn) α × Parser σ} (h : Follows s' r g)
    (hs : (machine σ).Reachable s s') : Follows s r g := by
  rcases r with ⟨e | a,q⟩
  · exact h.imp_right fun ⟨t,ht,hrest⟩ => ⟨t,hs.trans ht,hrest⟩
  · exact hs.trans h

theorem Follows.bind {m : Exec (Parser σ) Exn α} {f : α → Exec (Parser σ) Exn β}
    (hm : Follows s (m.run p) g) (hf : ∀ a q, Follows (g a,q) ((f a).run q) g') :
    Follows s ((m >>= f).run p) g' := by
  rcases hr : m.run p with ⟨e | a,q⟩
  · rw [run_bind_error hr]
    rw [hr] at hm
    exact hm
  · rw [run_bind_ok hr]
    rw [hr] at hm
    exact (hf a q).after hm

theorem follows_piece {m : Exec (Parser σ) Exn α} (hc : c.returned = none)
    (hstep : c.step (σ:=σ) = do let a ← m; pure (g a)) (p : Parser σ) :
    Follows (c,p) (m.run p) g := by
  rcases hr : m.run p with ⟨e | a,q⟩
  · exact .inr ⟨(c,p),.refl _,hc,by rw [hstep,run_bind_error hr]⟩
  · exact reachable_step hc (by rw [hstep,run_bind_ok hr]; rfl)

theorem follows_pure (a : α) (p : Parser σ) :
    Follows (g a,p) ((pure a : Exec (Parser σ) Exn α).run p) g := .refl _

theorem follows_return {r : Except (Stop Exn) α × Parser σ} {c' : Calls}
    (hc : c.returned = none) (hstep : c.step (σ:=σ) = pure c') (h : Follows (c',p) r g) :
    Follows (c,p) r g :=
  h.after (reachable_step hc (by rw [hstep]; rfl))

end Follows

theorem run_valueN_succ (n : ℕ) (p : Parser σ) : (valueN (n+1)).run p = (do
    match ← enter with
    | .scalar v => pure v
    | .array => do
      let ws ← elementsN n []
      let _ ← eat .rbracket
      pure (.array ws)
    | .object => do
      let ws ← membersN n []
      let _ ← eat .rbrace
      pure (.object ws) : Exec (Parser σ) Exn Value).run p := by
  rw [valueN,enter,run_bind_assoc]
  refine run_bind_congr _ fun tok q => ?_
  rcases tok with _ | tok
  · rfl
  · dsimp only
    cases tok.type with
    | num | str | bool =>
      rw [run_bind_assoc]
      refine run_bind_congr _ fun _ _ => ?_
      rw [run_bind_assoc]
      rfl
    | nil | lbracket | lbrace =>
      rw [run_bind_assoc]
      rfl
    | _ => rfl

theorem run_elementsN_succ (n : ℕ) (vs : List Value) (p : Parser σ) :
    (elementsN (n+1) vs).run p = (do
      if ← element vs then do
        let v ← valueN n
        elementsN n (vs ++ [v])
      else pure vs : Exec (Parser σ) Exn (List Value)).run p := by
  rw [elementsN,element,run_bind_assoc]
  refine run_bind_congr _ fun tok q => ?_
  rcases tok with _ | tok
  · rfl
  · dsimp only
    split
    · rfl
    · rw [run_bind_assoc]
      rfl

theorem run_membersN_succ (n : ℕ) (ms : Dict Bytes Value) (p : Parser σ) :
    (membersN (n+1) ms).run p = (do
      match ← member ms with
      | some key => do
        let v ← valueN n
        membersN n (ms.assign key v)
      | none => pure ms : Exec (Parser σ) Exn (Dict Bytes Value)).run p := by
  rw [membersN,member,run_bind_assoc]
  refine run_bind_congr _ fun tok q => ?_
  rcases tok with _ | tok
  · rfl
  · dsimp only
    split
    · rfl
    · rw [run_bind_assoc]
      refine run_bind_congr _ fun _ _ => ?_
      rw [run_bind_assoc]
      refine run_bind_congr _ fun _ _ => ?_
      rw [run_bind_assoc]
      refine run_bind_congr _ fun _ _ => ?_
      rw [run_bind_assoc]
      rfl

/-- The recursion and its two loops, on any stack. -/
theorem follows_valueN (n : ℕ) :
    (∀ k (p : Parser σ), Follows (⟨k,.start⟩,p) ((valueN n).run p) fun v => ⟨k,.done v⟩) ∧
    (∀ k vs (p : Parser σ),
      Follows (⟨k,.elements vs⟩,p) ((elementsN n vs).run p) fun ws => ⟨k,.endElements ws⟩) ∧
    ∀ k ms (p : Parser σ),
      Follows (⟨k,.members ms⟩,p) ((membersN n ms).run p) fun ws => ⟨k,.endMembers ws⟩ := by
  induction n with
  | zero => exact ⟨fun _ _ => .inl rfl,fun _ _ _ => .inl rfl,fun _ _ _ => .inl rfl⟩
  | succ n ih =>
    obtain ⟨hv,he,hm⟩ := ih
    refine ⟨fun k p => ?_,fun k vs p => ?_,fun k ms p => ?_⟩
    · rw [run_valueN_succ]
      refine (follows_piece (c:=⟨k,.start⟩) rfl rfl p).bind fun entry q => ?_
      cases entry with
      | scalar v => exact follows_pure (g:=fun v => ⟨k,.done v⟩) v q
      | array =>
        refine (he k [] q).bind fun ws q => ?_
        refine (follows_piece (c:=⟨k,.endElements ws⟩) rfl rfl q).bind fun _ q => ?_
        exact follows_pure (g:=fun v => ⟨k,.done v⟩) (.array ws) q
      | object =>
        refine (hm k [] q).bind fun ws q => ?_
        refine (follows_piece (c:=⟨k,.endMembers ws⟩) rfl rfl q).bind fun _ q => ?_
        exact follows_pure (g:=fun v => ⟨k,.done v⟩) (.object ws) q
    · rw [run_elementsN_succ]
      refine (follows_piece (c:=⟨k,.elements vs⟩) rfl rfl p).bind fun more q => ?_
      cases more with
      | false => exact follows_pure (g:=fun ws => ⟨k,.endElements ws⟩) vs q
      | true =>
        refine (hv (.array vs::k) q).bind fun v q => ?_
        exact follows_return rfl rfl (he k (vs ++ [v]) q)
    · rw [run_membersN_succ]
      refine (follows_piece (c:=⟨k,.members ms⟩) rfl rfl p).bind fun key q => ?_
      cases key with
      | none => exact follows_pure (g:=fun ws => ⟨k,.endMembers ws⟩) ms q
      | some key =>
        refine (hv (.object ms key::k) q).bind fun v q => ?_
        exact follows_return rfl rfl (hm k (ms.assign key v) q)

theorem not_enabled_of_returned {s : Calls × Parser σ} {v : Value} (h : s.1.returned = some v)
    (u : Unit) : ¬(machine σ).enabled s u := fun he => by cases he.1.symm.trans h

theorem not_enabled_of_error {s : Calls × Parser σ} {e : Stop Exn} {q : Parser σ}
    (h : s.1.step.run s.2 = (.error e,q)) (u : Unit) : ¬(machine σ).enabled s u := by
  rintro ⟨-,c,q',hc⟩
  cases hc.symm.trans h

/-- Where the recursion does not run out of fuel, the machine ends as it does. -/
theorem value_iff {p : Parser σ} (hf : (value.run p).1 ≠ .error .outOfFuel) :
    (∀ v q, value.run p = (.ok v,q) ↔ (machine σ).Reachable (.start,p) (⟨[],.done v⟩,q)) ∧
    ∀ e q, value.run p = (.error e,q) ↔
      ∃ t, (machine σ).Reachable (.start,p) t ∧ t.1.step.run t.2 = (.error e,q) := by
  have hfollows := (follows_valueN p.fuel).1 [] p
  rw [← run_value_eq] at hfollows
  rcases hr : value.run p with ⟨e | v,q⟩
  · rw [hr] at hf hfollows
    obtain ⟨t,ht,-,hstep⟩ := hfollows.resolve_left fun he => hf (he ▸ rfl)
    refine ⟨fun v q' => iff_of_false (by simp) fun hd => ?_,fun e' q' => ?_⟩
    · have heq := ht.halted_unique hd (not_enabled_of_error hstep)
        (not_enabled_of_returned (v:=v) rfl)
      subst heq
      cases hstep
    · constructor
      · rintro ⟨⟩
        exact ⟨t,ht,hstep⟩
      · rintro ⟨t',ht',hstep'⟩
        have heq := ht.halted_unique ht' (not_enabled_of_error hstep)
          (not_enabled_of_error hstep')
        subst heq
        cases hstep.symm.trans hstep'
        rfl
  · rw [hr] at hfollows
    refine ⟨fun v' q' => ?_,fun e' q' => iff_of_false (by simp) ?_⟩
    · constructor
      · rintro ⟨⟩
        exact hfollows
      · intro hd
        have heq := hfollows.halted_unique hd (not_enabled_of_returned (v:=v) rfl)
          (not_enabled_of_returned (v:=v') rfl)
        cases heq
        rfl
    · rintro ⟨t,ht,hstep⟩
      have heq := hfollows.halted_unique ht (not_enabled_of_returned (v:=v) rfl)
        (not_enabled_of_error hstep)
      subst heq
      cases hstep

/-! ## Its stack -/

def opens (ts : List Token) : ℕ := ts.countP fun tok => tok.type = .lbracket ∨ tok.type = .lbrace

def closes (ts : List Token) : ℕ := ts.countP fun tok => tok.type = .rbracket ∨ tok.type = .rbrace

theorem opens_append (ts us : List Token) : opens (ts ++ us) = opens ts + opens us :=
  List.countP_append

theorem closes_append (ts us : List Token) : closes (ts ++ us) = closes ts + closes us :=
  List.countP_append

/-- Whether the activation is between the brackets of an array or an object. -/
def ValuePc.depth : ValuePc → ℕ
  | .start | .done _ => 0
  | .elements _ | .endElements _ | .members _ | .endMembers _ => 1

def Calls.depth (c : Calls) : ℕ := c.stack.length + c.pc.depth

section Depth

variable {J : σ → Prop} {A : Exn → Prop} (h : SoundSource J A) {p : Parser σ} (hj : J p.scan)
  (hp : ∀ x ∈ p.lookahead, x.WF)
include h hj hp

/-- What was read brought the stack from one depth to another. -/
def Moves (J : σ → Prop) (p : Parser σ) (m n : ℕ) (q : Parser σ) : Prop :=
  ∃ ts, Advances J p ts q ∧ opens ts + m = closes ts + n

omit h hj hp in
theorem Moves.trans {q r : Parser σ} {l m n : ℕ} (h : Moves J p l m q) (h' : Moves J q m n r) :
    Moves J p l n r := by
  obtain ⟨ts,ha,hc⟩ := h
  obtain ⟨us,ha',hc'⟩ := h'
  refine ⟨ts ++ us,ha.trans ha',?_⟩
  rw [opens_append,closes_append]
  omega

theorem wp_enter : Wp enter (fun entry q => Moves J p 0 entry.pc.depth q)
    (fun e => ∃ x, e = .throw x ∧ A x) p := by
  simp only [enter,wp_bind]
  refine (wp_peek h hj hp).mono ?_ fun _ he => he
  rintro (_ | tok) q ⟨hq,hl⟩
  · exact ⟨_,rfl,h.parsingError _⟩
  have ht : Advances J p [tok] (q.setLookahead none) := hq.trans (.take hq.inv hl)
  cases hq.wf tok (by simp [hl]) with
  | num | str | bool | nil =>
    simp only [wp_bind]
    exact wp_of_ok (run_next hl) ⟨_,ht,rfl⟩
  | lbracket =>
    simp only [wp_bind]
    exact wp_of_ok (run_eat hl) ⟨_,ht,rfl⟩
  | lbrace =>
    simp only [wp_bind]
    exact wp_of_ok (run_next hl) ⟨_,ht,rfl⟩
  | rbrace | rbracket | comma | colon => exact ⟨_,rfl,h.parsingError _⟩

theorem wp_element (vs : List Value) (n : ℕ) : Wp (element vs) (fun _ q => Moves J p n n q)
    (fun e => ∃ x, e = .throw x ∧ A x) p := by
  simp only [element,wp_bind]
  refine (wp_peek h hj hp).mono ?_ fun _ he => he
  rintro (_ | tok) q ⟨hq,hl⟩
  · exact ⟨_,hq,rfl⟩
  dsimp only
  split
  · exact ⟨_,hq,rfl⟩
  simp only [wp_bind]
  refine (wp_eatSeparator h vs.isEmpty hq.inv hq.wf).mono ?_ fun _ he => he
  intro _ q₁ hq₁
  refine ⟨_,hq.trans hq₁,?_⟩
  cases vs <;> rfl

theorem wp_member (ms : Dict Bytes Value) (n : ℕ) : Wp (member ms) (fun _ q => Moves J p n n q)
    (fun e => ∃ x, e = .throw x ∧ A x) p := by
  simp only [member,wp_bind]
  refine (wp_peek h hj hp).mono ?_ fun _ he => he
  rintro (_ | tok) q ⟨hq,hl⟩
  · exact ⟨_,hq,rfl⟩
  dsimp only
  split
  · exact ⟨_,hq,rfl⟩
  simp only [wp_bind]
  refine (wp_eatSeparator h ms.isEmpty hq.inv hq.wf).mono ?_ fun _ he => he
  intro _ q₁ hq₁
  refine (wp_eat h .str hq₁.inv hq₁.wf).mono ?_ fun _ he => he
  rintro tok₁ q₂ ⟨hq₂,hw₁,hty₁,-⟩
  cases hw₁ <;> simp at hty₁
  refine (wp_eat h .colon hq₂.inv hq₂.wf).mono ?_ fun _ he => he
  rintro tok₂ q₃ ⟨hq₃,hw₂,hty₂,-⟩
  cases hw₂ <;> simp at hty₂
  refine ⟨_,((hq.trans hq₁).trans hq₂).trans hq₃,?_⟩
  cases ms <;> rfl

/-- A step that reads an opening bracket comes to stand inside it, one that reads a closing one
comes to stand outside, and no other moves in or out. -/
theorem wp_step (c : Calls) : Wp c.step (fun c' q => Moves J p c.depth c'.depth q)
    (fun e => ∃ x, e = .throw x ∧ A x) p := by
  rcases c with ⟨k,pc⟩
  have hrefl : ∀ {m n : ℕ}, m = n → Moves J p m n p := fun he => ⟨[],.refl hj hp,he ▸ rfl⟩
  cases pc with
  | start =>
    simp only [Calls.step,wp_bind,wp_pure]
    refine (wp_enter h hj hp).mono (fun entry q hq => ?_) fun _ he => he
    obtain ⟨ts,ha,hc⟩ := hq
    refine ⟨ts,ha,?_⟩
    change opens ts + (k.length + 0) = closes ts + (k.length + entry.pc.depth)
    omega
  | elements vs =>
    simp only [Calls.step,wp_bind,wp_pure]
    refine (wp_element h hj hp vs (k.length+1)).mono (fun more q hq => ?_) fun _ he => he
    cases more <;> exact hq
  | members ms =>
    simp only [Calls.step,wp_bind,wp_pure]
    refine (wp_member h hj hp ms (k.length+1)).mono (fun key q hq => ?_) fun _ he => he
    cases key <;> exact hq
  | endElements vs =>
    simp only [Calls.step,wp_bind,wp_pure]
    refine (wp_eat h .rbracket hj hp).mono ?_ fun _ he => he
    rintro tok q ⟨ha,hw,hty,-⟩
    cases hw <;> simp at hty
    exact ⟨_,ha,by simp [opens,closes,Calls.depth,ValuePc.depth,Nat.add_comm]⟩
  | endMembers ms =>
    simp only [Calls.step,wp_bind,wp_pure]
    refine (wp_eat h .rbrace hj hp).mono ?_ fun _ he => he
    rintro tok q ⟨ha,hw,hty,-⟩
    cases hw <;> simp at hty
    exact ⟨_,ha,by simp [opens,closes,Calls.depth,ValuePc.depth,Nat.add_comm]⟩
  | done v =>
    rcases k with _ | ⟨vs | ⟨ms,key⟩,k⟩
    · exact hrefl rfl
    · exact hrefl rfl
    · exact hrefl rfl

/-- In every state of the machine the brackets that were read are as many more opening than
closing ones as the stack is deep. -/
theorem moves_of_reachable {c : Calls} {q : Parser σ}
    (hr : (machine σ).Reachable (.start,p) (c,q)) : Moves J p 0 c.depth q := by
  refine hr.invariant (I:=fun s => Moves J p 0 s.1.depth s.2) ⟨[],.refl hj hp,rfl⟩ ?_
  rintro ⟨c,q⟩ - hm ⟨-,c',q',hstep⟩
  have ⟨_,ha,_⟩ := hm
  have hnext : (machine σ).next (c,q) () = (c',q') := by simp only [machine,hstep]
  rw [hnext]
  exact hm.trans ((wp_step h ha.inv ha.wf c).ok hstep)

end Depth

/-- Each of some opening brackets starts an activation inside the one before. -/
theorem reachable_brackets {s : σ} (d : ℕ) (k : List Frame) {p : Parser σ}
    (hp : Ready p (List.replicate (d+1) .lbracket) s) : ∃ q, (machine σ).Reachable
      (⟨k,.start⟩,p) (⟨List.replicate d (.array []) ++ k,.elements []⟩,q) := by
  induction d generalizing k p with
  | zero =>
    obtain ⟨q₁,hq₁,-,hr₁,-⟩ := run_peek hp
    obtain ⟨q₂,hq₂,-⟩ := run_eat_ready hr₁
    refine ⟨q₂,reachable_step (c:=⟨k,.start⟩) rfl ?_⟩
    simp [Calls.step,enter,run_bind,hq₁,hq₂,Entry.pc]
  | succ d ih =>
    rw [List.replicate_succ] at hp
    obtain ⟨q₁,hq₁,-,hr₁,-⟩ := run_peek hp
    obtain ⟨q₂,hq₂,hr₂⟩ := run_eat_ready hr₁
    have henter : (machine σ).Reachable (⟨k,.start⟩,p) (⟨k,.elements []⟩,q₂) :=
      reachable_step rfl (by simp [Calls.step,enter,run_bind,hq₁,hq₂,Entry.pc])
    have hr₂' := hr₂
    rw [List.replicate_succ] at hr₂'
    obtain ⟨q₃,hq₃,-,hr₃,-⟩ := run_peek hr₂'
    have hcall : (machine σ).Reachable (⟨k,.elements []⟩,q₂) (⟨.array []::k,.start⟩,q₃) :=
      reachable_step rfl (by simp [Calls.step,element,eatSeparator,run_bind,hq₃])
    rw [← List.replicate_succ] at hr₃
    obtain ⟨q,hq⟩ := ih (.array []::k) hr₃
    refine ⟨q,(henter.trans hcall).trans ?_⟩
    rw [List.replicate_succ',List.append_assoc]
    exact hq

end Parser

/-! ## The stack of the program -/

namespace Scanner

theorem soundSource : Parser.SoundSource (σ:=Scanner) (fun _ => True)
    (fun x => (∃ w, x = .parsingError w) ∨ ∃ n, x = .systemError n) where
  scan s _ := by
    have ht := (Tape.soundSource False).scan s.tape False.elim
    obtain ⟨ho,hs⟩ := simReads.scannerRel.scanSkipWhitespace s s.tape s.reads_tape
    change Wp Scan.scanSkipWhitespace _ _ s
    change Wp Scan.scanSkipWhitespace _ _ s.tape at ht
    rcases hr : Scan.scanSkipWhitespace.run s with ⟨r,s'⟩
    rcases hr' : Scan.scanSkipWhitespace.run s.tape with ⟨r',t'⟩
    rw [hr,hr'] at ho hs
    obtain rfl : r = r' := ho
    cases r with
    | error e =>
      obtain ⟨x,rfl,hx⟩ := ht.error hr'
      rw [Wp,hr]
      exact ⟨x,rfl,hx.imp_right And.right⟩
    | ok tok =>
      obtain ⟨-,hle,hwf⟩ := ht.ok hr'
      refine wp_of_ok hr ⟨trivial,?_,hwf⟩
      have hreads := simReads.reads s' t' hs
      have hreads' := simReads.reads s s.tape s.reads_tape
      change CharSource.reads s' + _ ≤ CharSource.reads s
      rw [hreads,hreads']
      exact hle
  parsingError w := .inl ⟨w,rfl⟩

theorem feeds_of_tape {t t' : Tape} {ts : List Token} (h : Parser.Feeds t ts t') {s : Scanner}
    (hs : s.Reads t) : ∃ s', Parser.Feeds s ts s' := by
  induction h generalizing s with
  | nil t => exact ⟨s,.nil s⟩
  | @cons t t₁ t' tok ts hr _ ih =>
    obtain ⟨ho,hs₁⟩ := simReads.scannerRel.scanSkipWhitespace s t hs
    rw [show Scan.scanSkipWhitespace.run t = _ from hr] at ho hs₁
    obtain ⟨s',hf⟩ := ih hs₁
    exact ⟨s',.cons (Prod.ext ho rfl) hf⟩

end Scanner

theorem Tape.apart_brackets (d : ℕ) :
    Apart (List.replicate d (chr '[')) (List.replicate d .lbracket) := by
  induction d with
  | zero => exact .nil rfl
  | succ d ih =>
    rw [List.replicate_succ,List.replicate_succ]
    have hcons : Apart ([] ++ [chr '['] ++ List.replicate d (chr '['))
        (.lbracket :: List.replicate d .lbracket) := .cons rfl .lbracket (fun h => nomatch h) ih
    exact hcons

/-- `Value` returns and throws as its machine does; in every state of the machine there are as
many activations between their brackets as brackets that were read are open, and no more than
there are reads. -/
theorem value_calls (f : Stream) (size : ℤ) :
    let p := Parser.init (Scanner.init f size)
    let R := (Parser.machine Scanner).Reachable (.start,p)
    (∀ v q, Parser.value.run p = (.ok v,q) ↔ R (⟨[],.done v⟩,q)) ∧
    (∀ e q, Parser.value.run p = (.error e,q) ↔ ∃ t, R t ∧ t.1.step.run t.2 = (.error e,q)) ∧
    ∀ c q, R (c,q) → ∃ ts, Parser.Consumes p ts q ∧
      Parser.opens ts = Parser.closes ts + c.depth ∧ c.depth ≤ CharSource.reads p.scan := by
  intro p R
  have hsound := Parser.value_sound Scanner.soundSource (p:=p) trivial (by simp [p,Parser.init])
  have hf : (Parser.value.run p).1 ≠ .error .outOfFuel := by
    intro he
    obtain ⟨x,hx,-⟩ := hsound.error (Prod.ext he rfl)
    cases hx
  obtain ⟨hok,herror⟩ := Parser.value_iff hf
  refine ⟨hok,herror,fun c q hr => ?_⟩
  obtain ⟨ts,ha,hc⟩ := Parser.moves_of_reachable Scanner.soundSource trivial
    (by simp [p,Parser.init]) hr
  refine ⟨ts,ha.consumes,by omega,?_⟩
  have hle := ha.le
  have hopens : Parser.opens ts ≤ ts.length := List.countP_le_length
  have hrem : p.remaining = CharSource.reads p.scan := rfl
  omega

/-- The depth of a run over a text is below what an `int` counts. -/
theorem depth_lt (text : Bytes) {c : Parser.Calls} {q : Parser Scanner}
    (hr : (Parser.machine Scanner).Reachable
      (.start,Parser.init (Scanner.init (.ofBytes text) (toInt32 text.length))) (c,q)) :
    c.depth < 2^31 := by
  obtain ⟨ts,ha,hc⟩ := Parser.moves_of_reachable Scanner.soundSource trivial
    (by simp [Parser.init]) hr
  have hle := ha.le
  have hopens : Parser.opens ts ≤ ts.length := List.countP_le_length
  have hreads : CharSource.reads (Scanner.init (.ofBytes text) (toInt32 text.length)) ≤
      (toInt32 text.length).toNat := by
    have hview := congrArg List.length (Scanner.at_init text (toInt32 text.length)).input
    rw [List.length_map,List.length_take] at hview
    exact hview.le.trans (Nat.min_le_left _ _)
  have hint : toInt32 text.length < (2^32 + 1) / 2 := Int.bmod_lt (by norm_num)
  norm_num at hint
  have hrem : ∀ s : Scanner, (Parser.init s).remaining = CharSource.reads s := fun _ => rfl
  rw [hrem] at hle
  omega

/-- `d` opening brackets bring `d` activations between their brackets, for every `d` that is
the size of a text, and no text brings more. -/
theorem calls_deep :
    (∀ d < 2^31, ∃ c q, (Parser.machine Scanner).Reachable (.start,Parser.init
      (Scanner.init (.ofBytes (List.replicate d (chr '['))) (toInt32 d))) (c,q) ∧ c.depth = d) ∧
    ∀ (text : Bytes) c q, (Parser.machine Scanner).Reachable (.start,Parser.init
      (Scanner.init (.ofBytes text) (toInt32 text.length))) (c,q) → c.depth < 2^31 := by
  refine ⟨fun d hd => ?_,fun text c q => depth_lt text⟩
  rw [toInt32_of_lt hd]
  cases d with
  | zero => exact ⟨_,_,.refl _,rfl⟩
  | succ d =>
    have hat := Scanner.at_init (List.replicate (d+1) (chr '[')) (d+1 : ℕ)
    rw [Int.toNat_natCast,List.take_of_length_le (by simp)] at hat
    obtain ⟨t,hf,-⟩ := Tape.feeds_of_apart (Tape.apart_brackets (d+1)) (by simp) hat
    obtain ⟨s,hfs⟩ := Scanner.feeds_of_tape hf (Scanner.reads_tape _)
    have hready : Parser.Ready (Parser.init (Scanner.init (.ofBytes _) _)) _ s := ⟨_,rfl,hfs⟩
    obtain ⟨q,hq⟩ := Parser.reachable_brackets d [] hready
    exact ⟨_,q,hq,by simp [Parser.Calls.depth,Parser.ValuePc.depth]⟩

end Gabby.Json
