import Gabby.JsonEquality
import Gabby.JsonHeap

/-! Reading, changing and printing values that may be shared: reading a shared value is reading
the tree it stands for, `push_back` on a member changes that member only, and printing ends
unless a value contains itself. -/
namespace Gabby.Json

open Exec

variable {h h' : Heap Cell} {a : Addr} {v : Value} {fp : List Addr}

/-! ## The shapes of cells -/

/-- Members with the same keys in the same order, and related values. -/
def MatchesBy (R : Addr → Value → Prop) (ms : Dict Bytes Addr) (vs : Dict Bytes Value) : Prop :=
  List.Forall₂ (fun m w => m.1 = w.1 ∧ R m.2 w.2) ms vs

abbrev Matches (h : Heap Cell) : Dict Bytes Addr → Dict Bytes Value → Prop :=
  MatchesBy (Cell.layout.Denotes h)

inductive CellOf (h : Heap Cell) : Cell → Value → Prop
  | nil : CellOf h .nil .nil
  | boolean (b : Bool) : CellOf h (.boolean b) (.boolean b)
  | number (d : Double) : CellOf h (.number d) (.number d)
  | string (s : Bytes) : CellOf h (.string s) (.string s)
  | array {as : List Addr} {vs : List Value} (hvs : List.Forall₂ (Cell.layout.Denotes h) as vs) :
      CellOf h (.array as) (.array vs)
  | object {ms : Dict Bytes Addr} {vs : Dict Bytes Value} (hvs : Matches h ms vs) :
      CellOf h (.object ms) (.object vs)

theorem forall₂_of_pairs {P : Addr → Value → Prop} {ps : List (Addr × Value)}
    (hps : ∀ p ∈ ps, P p.1 p.2) : List.Forall₂ P (ps.map Prod.fst) (ps.map Prod.snd) := by
  induction ps with
  | nil => exact .nil
  | cons p ps ih => exact .cons (hps p (by simp)) (ih fun q hq => hps q (by simp [hq]))

theorem matches_of_pairs {R : Addr → Value → Prop} {ms : Dict Bytes Addr}
    {ps : List (Addr × Value)} (hch : ms.map Prod.snd = ps.map Prod.fst)
    (hps : ∀ p ∈ ps, R p.1 p.2) : MatchesBy R ms ((ms.map Prod.fst).zip (ps.map Prod.snd)) := by
  induction ms generalizing ps with
  | nil => exact .nil
  | cons m ms ih =>
    cases ps with
    | nil => simp at hch
    | cons p ps =>
      simp only [List.map_cons,List.cons.injEq] at hch
      refine .cons ⟨rfl,?_⟩ (ih hch.2 fun q hq => hps q (by simp [hq]))
      rw [hch.1]
      exact hps p (by simp)

theorem Denotes.cell (hd : Cell.layout.Denotes h a v) : ∃ c, h[a]? = some c ∧ CellOf h c v := by
  cases hd with
  | @node _ c ps hc hch hps =>
    refine ⟨c,hc,?_⟩
    cases c with
    | array as =>
      obtain rfl : as = ps.map Prod.fst := hch
      exact .array (forall₂_of_pairs hps)
    | object ms => exact .object (matches_of_pairs hch hps)
    | _ => constructor

theorem pairs_of_forall₂ {P : Addr → Value → Prop} {as : List Addr} {vs : List Value}
    (hvs : List.Forall₂ P as vs) : ∃ ps : List (Addr × Value), as = ps.map Prod.fst ∧
      vs = ps.map Prod.snd ∧ ∀ p ∈ ps, P p.1 p.2 := by
  induction hvs with
  | nil => exact ⟨[],rfl,rfl,by simp⟩
  | cons hv _ ih =>
    obtain ⟨ps,rfl,rfl,hps⟩ := ih
    exact ⟨(_,_)::ps,rfl,rfl,List.forall_mem_cons.mpr ⟨hv,hps⟩⟩

theorem pairs_of_matches {R : Addr → Value → Prop} {ms : Dict Bytes Addr} {vs : Dict Bytes Value}
    (hvs : MatchesBy R ms vs) : ∃ ps : List (Addr × Value), ms.map Prod.snd = ps.map Prod.fst ∧
      vs = (ms.map Prod.fst).zip (ps.map Prod.snd) ∧ ∀ p ∈ ps, R p.1 p.2 := by
  induction hvs with
  | nil => exact ⟨[],rfl,rfl,by simp⟩
  | @cons m w ms vs hv _ ih =>
    rcases m with ⟨k,a⟩
    rcases w with ⟨l,v⟩
    obtain ⟨rfl,hv⟩ := hv
    obtain ⟨ps,hfst,rfl,hps⟩ := ih
    exact ⟨(a,v)::ps,by simp [hfst],rfl,List.forall_mem_cons.mpr ⟨hv,hps⟩⟩

theorem CellOf.denotes {c : Cell} (hv : CellOf h c v) (hc : h[a]? = some c) :
    Cell.layout.Denotes h a v := by
  cases hv with
  | array hvs =>
    obtain ⟨ps,rfl,rfl,hps⟩ := pairs_of_forall₂ hvs
    exact .node (L:=Cell.layout) ps hc rfl hps
  | object hvs =>
    obtain ⟨ps,hfst,rfl,hps⟩ := pairs_of_matches hvs
    exact .node (L:=Cell.layout) ps hc hfst hps
  | _ => exact .node (L:=Cell.layout) [] hc rfl (by simp)

abbrev Part := Addr × Value × List Addr

theorem exists_members {ms : Dict Bytes Addr} {ps : List Part}
    (hch : ms.map Prod.snd = ps.map (·.1)) : ∃ qs : Dict Bytes Part,
      ms = qs.map (fun q => (q.1,q.2.1)) ∧ ps = qs.map (·.2) := by
  induction ms generalizing ps with
  | nil =>
    obtain rfl : ps = [] := by simpa using hch.symm
    exact ⟨[],rfl,rfl⟩
  | cons m ms ih =>
    cases ps with
    | nil => simp at hch
    | cons p ps =>
      simp only [List.map_cons,List.cons.injEq] at hch
      obtain ⟨qs,rfl,rfl⟩ := ih hch.2
      exact ⟨(m.1,p)::qs,by simp [← hch.1],rfl⟩

theorem assemble_object (qs : Dict Bytes Part) :
    (Cell.object (qs.map fun q => (q.1,q.2.1))).assemble ((qs.map (·.2)).map (·.2.1)) =
      .object (qs.map fun q => (q.1,q.2.2.1)) := by
  simp [Cell.assemble,List.zip_map',Function.comp_def]

/-! ## Reading -/

/-- The program reads from the cells what the function takes from the value. -/
def ReadsAs {α β : Type} (h : Heap Cell) (x : Except Exn α) (m : Exec (Heap Cell) Exn β)
    (Q : α → β → Prop) : Prop :=
  (m.run h).2 = h ∧ Alike Q (x.mapError .throw) (m.run h).1

section Reading

variable {α β γ δ : Type} {Q : α → β → Prop} {R : γ → δ → Prop}

theorem readsAs_ok {x : α} {y : β} (hq : Q x y) : ReadsAs h (.ok x) (pure y) Q := ⟨rfl,.ok hq⟩

theorem readsAs_error (e : Exn) : ReadsAs h (.error e) (Exec.throw e) Q := ⟨rfl,.error _⟩

theorem ReadsAs.error {e : Exn} {m : Exec (Heap Cell) Exn β} (hm : ReadsAs h (.error e) m Q) :
    m.run h = (.error (.throw e),h) := by
  obtain ⟨hfin,hout⟩ := hm
  rcases hr : m.run h with ⟨r,h₁⟩
  rw [hr] at hfin hout
  cases hfin
  cases hout
  rfl

theorem ReadsAs.ok {x : α} {m : Exec (Heap Cell) Exn β} (hm : ReadsAs h (.ok x) m Q) :
    ∃ y, m.run h = (.ok y,h) ∧ Q x y := by
  obtain ⟨hfin,hout⟩ := hm
  rcases hr : m.run h with ⟨r,h₁⟩
  rw [hr] at hfin hout
  cases hfin
  cases hout with
  | ok hq => exact ⟨_,rfl,hq⟩

theorem ReadsAs.bind {x : Except Exn α} {m : Exec (Heap Cell) Exn β} {f : α → Except Exn γ}
    {g : β → Exec (Heap Cell) Exn δ} (hm : ReadsAs h x m Q)
    (hf : ∀ a b, Q a b → ReadsAs h (f a) (g b) R) : ReadsAs h (x >>= f) (m >>= g) R := by
  obtain ⟨hfin,hout⟩ := hm
  rcases hr : m.run h with ⟨r,h₁⟩
  rw [hr] at hfin hout
  dsimp only at hfin hout
  subst hfin
  cases x with
  | error e =>
    cases hout
    rw [ReadsAs,run_bind_error hr]
    exact ⟨rfl,.error _⟩
  | ok a =>
    cases hout with
    | ok hq =>
      rw [ReadsAs,run_bind_ok hr]
      exact hf _ _ hq

end Reading

theorem run_deref {c : Cell} (hc : h[a]? = some c) : (deref a).run h = (.ok c,h) := by
  rw [deref,run_step,hc]

section Downcasts

variable (hd : Cell.layout.Denotes h a v)
include hd

theorem readsAs_asString : ReadsAs h v.asString (ValuePtr.asString a) Eq := by
  obtain ⟨c,hc,hv⟩ := Denotes.cell hd
  rw [ReadsAs,ValuePtr.asString,run_bind_ok (run_deref hc)]
  cases hv <;> exact ⟨rfl,by first | exact .ok rfl | exact .error _⟩

theorem readsAs_asArray : ReadsAs h v.asArray (ValuePtr.asArray a) fun vs as =>
    List.Forall₂ (Cell.layout.Denotes h) as vs := by
  obtain ⟨c,hc,hv⟩ := Denotes.cell hd
  rw [ReadsAs,ValuePtr.asArray,run_bind_ok (run_deref hc)]
  cases hv with
  | array hvs => exact ⟨rfl,.ok hvs⟩
  | _ => exact ⟨rfl,.error _⟩

theorem readsAs_asObject : ReadsAs h v.asObject (ValuePtr.asObject a) fun vs ms =>
    Matches h ms vs := by
  obtain ⟨c,hc,hv⟩ := Denotes.cell hd
  rw [ReadsAs,ValuePtr.asObject,run_bind_ok (run_deref hc)]
  cases hv with
  | object hvs => exact ⟨rfl,.ok hvs⟩
  | _ => exact ⟨rfl,.error _⟩

end Downcasts

theorem Matches.find {ms : Dict Bytes Addr} {vs : Dict Bytes Value} (hm : Matches h ms vs)
    (k : Bytes) : (ms.find k = none ∧ vs.find k = none) ∨
      ∃ a v, ms.find k = some a ∧ vs.find k = some v ∧ Cell.layout.Denotes h a v := by
  induction hm with
  | nil => exact .inl ⟨rfl,rfl⟩
  | @cons m w ms vs hmw _ ih =>
    rcases m with ⟨k',a⟩
    rcases w with ⟨k'',v⟩
    obtain ⟨rfl,hd⟩ := hmw
    rw [Dict.find_cons,Dict.find_cons]
    split
    · exact .inr ⟨a,v,rfl,rfl,hd⟩
    · exact ih

theorem readsAs_at {ms : Dict Bytes Addr} {vs : Dict Bytes Value} (hm : Matches h ms vs)
    (k : Bytes) : ReadsAs h (ObjectValue.at vs k) (ValuePtr.at ms k) fun v a =>
      Cell.layout.Denotes h a v := by
  rw [ObjectValue.at,ValuePtr.at]
  rcases hm.find k with ⟨h₁,h₂⟩ | ⟨a,v,h₁,h₂,hd⟩
  · rw [h₁,h₂]
    exact readsAs_error _
  · rw [h₁,h₂]
    exact readsAs_ok hd

/-! ## Printing -/

namespace ValuePtr

def printValues (print : Addr → Exec (Heap Cell) Exn Bytes) :
    Bool → List Addr → Exec (Heap Cell) Exn Bytes
  | _, [] => pure []
  | first, a::as => do
    let item ← print a
    let rest ← printValues print false as
    pure (Value.separator first ++ item ++ rest)

def printMembers (print : Addr → Exec (Heap Cell) Exn Bytes) :
    Bool → Dict Bytes Addr → Exec (Heap Cell) Exn Bytes
  | _, [] => pure []
  | first, (k,a)::ms => do
    let item ← print a
    let rest ← printMembers print false ms
    pure (Value.separator first ++ (chr '"' :: k ++ ascii "\": ") ++ item ++ rest)

/-- `print` with a stack for so many calls of itself. -/
def printN : ℕ → Addr → Exec (Heap Cell) Exn Bytes
  | 0, _ => Exec.stop .outOfFuel
  | n+1, a => do
    match ← deref a with
    | .nil => pure (ascii "null")
    | .boolean b => pure (if b then ascii "true" else ascii "false")
    | .number d => pure d.print
    | .string s => pure (chr '"' :: s ++ [chr '"'])
    | .array vs => do
      let items ← printValues (printN n) true vs
      pure (chr '[' :: items ++ [chr ']'])
    | .object ms => do
      let items ← printMembers (printN n) true ms
      pure (chr '{' :: items ++ [chr '}'])

end ValuePtr

open ValuePtr

def Prints (print : Addr → Exec (Heap Cell) Exn Bytes) (h : Heap Cell) (a : Addr) (v : Value) :
    Prop := (print a).run h = (.ok v.print,h)

section Printing

variable {print : Addr → Exec (Heap Cell) Exn Bytes}

theorem run_printValues {as : List Addr} {vs : List Value}
    (hp : List.Forall₂ (Prints print h) as vs) (first : Bool) :
    (printValues print first as).run h = (.ok (Value.printValues first vs),h) := by
  induction hp generalizing first with
  | nil => rfl
  | cons hv _ ih =>
    rw [printValues,run_bind_ok hv,run_bind_ok (ih false),Value.printValues,run_pure]

theorem run_printMembers {ms : Dict Bytes Addr} {vs : Dict Bytes Value}
    (hp : MatchesBy (Prints print h) ms vs) (first : Bool) :
    (printMembers print first ms).run h = (.ok (Value.printMembers first vs),h) := by
  induction hp generalizing first with
  | nil => rfl
  | @cons m w ms vs hv _ ih =>
    rcases m with ⟨k,a⟩
    rcases w with ⟨l,v⟩
    obtain ⟨rfl,hv⟩ := hv
    rw [printMembers,run_bind_ok hv,run_bind_ok (ih false),Value.printMembers,run_pure]

theorem exists_uniform {P : Addr × Value → ℕ → Prop} {ps : List (Addr × Value)}
    (hp : ∀ p ∈ ps, ∃ n, ∀ m ≥ n, P p m) : ∃ n, ∀ m ≥ n, ∀ p ∈ ps, P p m := by
  induction ps with
  | nil => exact ⟨0,by simp⟩
  | cons p ps ih =>
    obtain ⟨n,hn⟩ := hp p (by simp)
    obtain ⟨k,hk⟩ := ih fun q hq => hp q (by simp [hq])
    refine ⟨max n k,fun m hm => List.forall_mem_cons.mpr ⟨hn m ?_,hk m ?_⟩⟩
    · exact (le_max_left n k).trans hm
    · exact (le_max_right n k).trans hm

theorem exists_prints (hd : Cell.layout.Denotes h a v) :
    ∃ n, ∀ m ≥ n, Prints (printN m) h a v := by
  induction hd with
  | @node a c ps hc hch _ ih =>
    obtain ⟨n,hn⟩ := exists_uniform (P:=fun p m => Prints (printN m) h p.1 p.2) ih
    refine ⟨n+1,fun m hm => ?_⟩
    obtain ⟨m,rfl⟩ : ∃ k, m = k+1 := ⟨m-1,by omega⟩
    have hps := hn m (by omega)
    rw [Prints,printN,run_bind_ok (run_deref hc)]
    cases c with
    | array as =>
      obtain rfl : as = ps.map Prod.fst := hch
      dsimp only
      rw [run_bind_ok (run_printValues (forall₂_of_pairs hps) true)]
      rfl
    | object ms =>
      dsimp only
      rw [run_bind_ok (run_printMembers (matches_of_pairs hch hps) true)]
      rfl
    | _ => rfl

variable {s : Bytes}

def PrintsOnly (print : Addr → Exec (Heap Cell) Exn Bytes) (h : Heap Cell) : Prop :=
  ∀ a s h', (print a).run h = (.ok s,h') → h' = h ∧ ∃ v, Cell.layout.Denotes h a v ∧ v.print = s

theorem values_of_printValues (hp : PrintsOnly print h) {first : Bool} {as : List Addr}
    (hr : (printValues print first as).run h = (.ok s,h')) :
    h' = h ∧ ∃ vs, List.Forall₂ (Cell.layout.Denotes h) as vs ∧
      Value.printValues first vs = s := by
  induction as generalizing first s h' with
  | nil =>
    cases hr
    exact ⟨rfl,[],.nil,rfl⟩
  | cons a as ih =>
    rw [printValues] at hr
    obtain ⟨item,h₁,hitem,hr⟩ := run_bind_eq_ok.mp hr
    obtain ⟨rest,h₂,hrest,hr⟩ := run_bind_eq_ok.mp hr
    obtain ⟨rfl,v,hv,rfl⟩ := hp a item h₁ hitem
    obtain ⟨rfl,vs,hvs,rfl⟩ := ih hrest
    cases hr
    exact ⟨rfl,v::vs,.cons hv hvs,by rw [Value.printValues]⟩

theorem values_of_printMembers (hp : PrintsOnly print h) {first : Bool} {ms : Dict Bytes Addr}
    (hr : (printMembers print first ms).run h = (.ok s,h')) :
    h' = h ∧ ∃ vs, Matches h ms vs ∧ Value.printMembers first vs = s := by
  induction ms generalizing first s h' with
  | nil =>
    cases hr
    exact ⟨rfl,[],.nil,rfl⟩
  | cons m ms ih =>
    rcases m with ⟨k,a⟩
    rw [printMembers] at hr
    obtain ⟨item,h₁,hitem,hr⟩ := run_bind_eq_ok.mp hr
    obtain ⟨rest,h₂,hrest,hr⟩ := run_bind_eq_ok.mp hr
    obtain ⟨rfl,v,hv,rfl⟩ := hp a item h₁ hitem
    obtain ⟨rfl,vs,hvs,rfl⟩ := ih hrest
    cases hr
    exact ⟨rfl,(k,v)::vs,.cons ⟨rfl,hv⟩ hvs,by rw [Value.printMembers]⟩

theorem run_deref_eq_ok {c : Cell} (hr : (deref a).run h = (.ok c,h')) :
    h' = h ∧ h[a]? = some c := by
  rw [deref,run_step] at hr
  cases hc : h[a]? with
  | none => rw [hc] at hr; cases hr
  | some d =>
    rw [hc] at hr
    cases hr
    exact ⟨rfl,rfl⟩

theorem printsOnly_printN (n : ℕ) : PrintsOnly (printN n) h := by
  induction n with
  | zero =>
    intro a s h' hr
    cases hr
  | succ n ih =>
    intro a s h' hr
    rw [printN] at hr
    obtain ⟨c,h₁,hc,hr⟩ := run_bind_eq_ok.mp hr
    obtain ⟨rfl,hc⟩ := run_deref_eq_ok hc
    cases c with
    | array as =>
      obtain ⟨items,h₂,hitems,hr⟩ := run_bind_eq_ok.mp hr
      obtain ⟨rfl,vs,hvs,rfl⟩ := values_of_printValues ih hitems
      cases hr
      exact ⟨rfl,_,(CellOf.array hvs).denotes hc,by rw [Value.print]⟩
    | object ms =>
      obtain ⟨items,h₂,hitems,hr⟩ := run_bind_eq_ok.mp hr
      obtain ⟨rfl,vs,hvs,rfl⟩ := values_of_printMembers ih hitems
      cases hr
      exact ⟨rfl,_,(CellOf.object hvs).denotes hc,by rw [Value.print]⟩
    | nil =>
      cases hr
      exact ⟨rfl,_,(CellOf.nil).denotes hc,by rw [Value.print]⟩
    | boolean b =>
      cases hr
      exact ⟨rfl,_,(CellOf.boolean b).denotes hc,by rw [Value.print]⟩
    | number d =>
      cases hr
      exact ⟨rfl,_,(CellOf.number d).denotes hc,by rw [Value.print]⟩
    | string s =>
      cases hr
      exact ⟨rfl,_,(CellOf.string s).denotes hc,by rw [Value.print]⟩

/-- Printing ends exactly for the addresses that stand for a value, with its text. -/
theorem printN_eq_ok : (∃ n, (printN n a).run h = (.ok s,h)) ↔
    ∃ v, Cell.layout.Denotes h a v ∧ v.print = s := by
  constructor
  · rintro ⟨n,hr⟩
    exact (printsOnly_printN n a s h hr).2
  · rintro ⟨v,hd,rfl⟩
    obtain ⟨n,hn⟩ := exists_prints hd
    exact ⟨n,hn n le_rfl⟩

end Printing

/-! ## The order of members -/

/-- The order in which the program enumerates a map that got these keys in this order. -/
structure Enumeration where
  order : List Bytes → List Bytes
  perm : ∀ ks, (order ks).Perm ks

variable {ν ω : Type}

def Dict.arrange (e : Enumeration) (d : Dict Bytes ν) : Dict Bytes ν :=
  (e.order d.keys).filterMap fun k => (d.find k).map fun v => (k,v)

def Cell.arrange (e : Enumeration) : Cell → Cell
  | .object ms => .object (Dict.arrange e ms)
  | c => c

mutual

def Value.arrange (e : Enumeration) : Value → Value
  | .array vs => .array (arrangeValues e vs)
  | .object ms => .object (Dict.arrange e (arrangeMembers e ms))
  | .nil => .nil
  | .boolean b => .boolean b
  | .number d => .number d
  | .string s => .string s

def Value.arrangeValues (e : Enumeration) : List Value → List Value
  | [] => []
  | v::vs => arrange e v :: arrangeValues e vs

def Value.arrangeMembers (e : Enumeration) : List (Bytes × Value) → List (Bytes × Value)
  | [] => []
  | (k,v)::ms => (k,arrange e v) :: arrangeMembers e ms

end

/-- `to_string(const Value&)`. No chain of values that are not shared is longer than the heap. -/
def ValuePtr.toString (e : Enumeration) (a : Addr) : Exec (Heap Cell) Exn Bytes := fun h =>
  Exec.zoom (List.map (Cell.arrange e)) (fun h _ => h) (printN h.length a) h

variable {e : Enumeration}

theorem Value.arrangeValues_eq (vs : List Value) : arrangeValues e vs = vs.map (arrange e) := by
  induction vs with
  | nil => rfl
  | cons v vs ih => rw [arrangeValues,ih,List.map_cons]

theorem Value.arrangeMembers_eq (ms : Dict Bytes Value) :
    arrangeMembers e ms = ms.map fun m => (m.1,m.2.arrange e) := by
  induction ms with
  | nil => rfl
  | cons m ms ih => rw [arrangeMembers,ih,List.map_cons]

theorem Dict.find_map (f : ν → ω) (d : Dict Bytes ν) (k : Bytes) :
    Dict.find k (d.map fun m => (m.1,f m.2)) = (d.find k).map f := by
  induction d with
  | nil => rfl
  | cons m d ih =>
    rcases m with ⟨k',v⟩
    rw [List.map_cons,Dict.find_cons,Dict.find_cons,ih]
    split <;> rfl

theorem Dict.arrange_map (f : ν → ω) (d : Dict Bytes ν) :
    Dict.arrange e (d.map fun m => (m.1,f m.2)) = (Dict.arrange e d).map fun m => (m.1,f m.2) := by
  have hkeys : Dict.keys (d.map fun m => (m.1,f m.2)) = d.keys := by
    simp [Dict.keys,Function.comp_def]
  rw [arrange,arrange,hkeys,List.map_filterMap]
  congr 1
  funext k
  rw [Dict.find_map]
  cases d.find k <;> rfl

theorem Dict.mem_arrange {d : Dict Bytes ν} {m : Bytes × ν} (hm : m ∈ Dict.arrange e d) :
    m ∈ d := by
  obtain ⟨k,-,hk⟩ := List.mem_filterMap.mp hm
  obtain ⟨v,hv,rfl⟩ := Option.map_eq_some_iff.mp hk
  exact Dict.mem_of_find hv

theorem Dict.perm_arrange {d : Dict Bytes ν} (hd : d.WF) : (Dict.arrange e d).Perm d := by
  refine ((e.perm d.keys).filterMap _).trans ?_
  rw [Dict.keys,List.filterMap_map]
  refine .of_eq ?_
  calc d.filterMap _ = d.filterMap some := List.filterMap_congr fun m hm => by
        rw [Function.comp_apply,Dict.find_of_mem hd hm]
        rfl
    _ = d := List.filterMap_some

theorem matchesBy_map {R : Addr → Value → Prop} {f : ν → Addr} {g : ν → Value}
    {d : Dict Bytes ν} (h : ∀ m ∈ d, R (f m.2) (g m.2)) :
    MatchesBy R (d.map fun m => (m.1,f m.2)) (d.map fun m => (m.1,g m.2)) := by
  induction d with
  | nil => exact .nil
  | cons m d ih => exact .cons ⟨rfl,h m (by simp)⟩ (ih fun m hm => h m (by simp [hm]))

/-- A value that is not shared needs a stack of as many calls as it has cells. -/
theorem prints_of_owns (ho : Cell.layout.Owns h a v fp) :
    ∀ n ≥ fp.length, Prints (printN n) (h.map (Cell.arrange e)) a (v.arrange e) := by
  induction ho with
  | @node a c ps hc hch _ hnd ih =>
    intro n hn
    rw [List.length_cons] at hn
    obtain ⟨n,rfl⟩ : ∃ m, n = m+1 := ⟨n-1,by omega⟩
    have hlen : ∀ p ∈ ps, p.2.2.length ≤ n := fun p hp => by
      have := (List.sublist_flatten_of_mem (List.mem_map_of_mem (f:=(·.2.2)) hp)).length_le
      rw [← List.flatMap_def] at this
      omega
    have hps : ∀ p ∈ ps, Prints (printN n) (h.map (Cell.arrange e)) p.1 (p.2.1.arrange e) :=
      fun p hp => ih p hp n (hlen p hp)
    have hc' : (h.map (Cell.arrange e))[a]? = some (c.arrange e) := by
      rw [List.getElem?_map,hc]
      rfl
    rw [Prints,printN,run_bind_ok (run_deref hc')]
    cases c with
    | array as =>
      obtain rfl : as = ps.map (·.1) := hch
      have hvs : List.Forall₂ (Prints (printN n) (h.map (Cell.arrange e))) (ps.map (·.1))
          (Value.arrangeValues e (ps.map (·.2.1))) := by
        rw [Value.arrangeValues_eq,List.map_map,List.forall₂_map_left_iff,
          List.forall₂_map_right_iff]
        exact List.forall₂_same.mpr hps
      dsimp only [Cell.arrange]
      rw [run_bind_ok (run_printValues hvs true)]
      rfl
    | object ms =>
      obtain ⟨qs,rfl,rfl⟩ := exists_members hch
      have hms := matchesBy_map (R:=Prints (printN n) (h.map (Cell.arrange e)))
        (f:=fun p : Part => p.1) (g:=fun p : Part => p.2.1.arrange e) (d:=Dict.arrange e qs)
        fun q hq => hps q.2 (List.mem_map_of_mem (Dict.mem_arrange hq))
      rw [← Dict.arrange_map (fun p : Part => p.1),
        ← Dict.arrange_map (fun p : Part => p.2.1.arrange e)] at hms
      have hobject : (Cell.layout.assemble (.object (qs.map fun q => (q.1,q.2.1)))
          ((qs.map (·.2)).map (·.2.1))).arrange e =
          .object (Dict.arrange e (qs.map fun q => (q.1,q.2.2.1.arrange e))) := by
        refine (congrArg (Value.arrange e) (assemble_object qs)).trans ?_
        rw [Value.arrange,Value.arrangeMembers_eq,List.map_map]
        rfl
      dsimp only [Cell.arrange]
      rw [run_bind_ok (run_printMembers hms true),hobject,Value.print]
      rfl
    | _ => rfl

theorem run_toString (ho : Cell.layout.Owns h a v fp) :
    (ValuePtr.toString e a).run h = (.ok (v.arrange e).toString,h) := by
  have hrun := prints_of_owns (e:=e) ho h.length ho.length_le
  rw [Prints] at hrun
  simp only [Exec.run,Prod.mk.injEq] at hrun
  simp only [Exec.run,ValuePtr.toString,Exec.zoom,Prod.mk.injEq,and_true]
  exact hrun.1

theorem enumerates_arrange {N : Double → Prop} {S : Bytes → Prop} (hv : v.Of N S) :
    v.Enumerates (v.arrange e) := by
  induction hv with
  | array vs _ ih =>
    have := Value.Enumerates.array (vs.map fun v => (v,v.arrange e)) (by simpa using ih)
    simpa [Value.arrange,Value.arrangeValues_eq,Function.comp_def] using this
  | object ms hwf _ _ ih =>
    have hperm : (Dict.arrange e (ms.map fun m => (m.1,m.2.arrange e))).Perm
        (ms.map fun m => (m.1,m.2.arrange e)) := by
      rw [Dict.arrange_map]
      exact (Dict.perm_arrange hwf).map _
    have hall : ∀ p ∈ ms.map (fun m => (m.1,m.2,m.2.arrange e)), p.2.1.Enumerates p.2.2 := by
      intro p hp
      obtain ⟨m,hm,rfl⟩ := List.mem_map.mp hp
      exact ih m hm
    have := Value.Enumerates.object _ _ hall (by simpa [Function.comp_def] using hperm)
    simpa [Value.arrange,Value.arrangeMembers_eq,Function.comp_def] using this
  | number d _ => exact .number d
  | string s _ => exact .string s
  | _ => constructor

end Gabby.Json
