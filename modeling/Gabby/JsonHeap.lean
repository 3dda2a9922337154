import Gabby.JsonParser
import Gabby.SharedHeap

/-! Values as the program holds them: a `ValuePtr` is the address of a cell that others may
share. The parser that builds such cells, and what `push_back` does to them. -/
namespace Gabby.Json

open Exec

/-- What a `ValuePtr` points to. -/
inductive Cell
  | nil
  | boolean (value : Bool)
  | number (value : Double)
  | string (value : Bytes)
  | array (values : List Addr)
  | object (values : Dict Bytes Addr)

namespace Cell

def type : Cell → ValueType
  | nil => .nil
  | boolean _ => .bool
  | number _ => .num
  | string _ => .str
  | array _ => .array
  | object _ => .obj

def children : Cell → List Addr
  | array vs => vs
  | object ms => ms.map Prod.snd
  | _ => []

def assemble : Cell → List Value → Value
  | nil, _ => .nil
  | boolean b, _ => .boolean b
  | number d, _ => .number d
  | string s, _ => .string s
  | array _, vs => .array vs
  | object ms, vs => .object ((ms.map Prod.fst).zip vs)

def layout : Layout Cell Value := ⟨children,assemble⟩

end Cell

def new (c : Cell) : Exec (Heap Cell) Exn Addr := Exec.step fun h => (.ok h.length,h ++ [c])

def deref (a : Addr) : Exec (Heap Cell) Exn Cell := Exec.step fun h =>
  match h[a]? with
  | none => (.error .undefined,h)
  | some c => (.ok c,h)

/-! ## Downcasts and lookups -/

def ValuePtr.asString (a : Addr) : Exec (Heap Cell) Exn Bytes := do
  match ← deref a with
  | .string s => pure s
  | c => Exec.throw (.typeError .str c.type)

/-- The vector of an `ArrayValue&`, as it is now. -/
def ValuePtr.asArray (a : Addr) : Exec (Heap Cell) Exn (List Addr) := do
  match ← deref a with
  | .array vs => pure vs
  | c => Exec.throw (.typeError .array c.type)

def ValuePtr.asObject (a : Addr) : Exec (Heap Cell) Exn (Dict Bytes Addr) := do
  match ← deref a with
  | .object ms => pure ms
  | c => Exec.throw (.typeError .obj c.type)

/-- `ObjectValue::at`, which shares the member. -/
def ValuePtr.at (ms : Dict Bytes Addr) (key : Bytes) : Exec (Heap Cell) Exn Addr :=
  match ms.find key with
  | none => Exec.throw (.keyNotFoundError key)
  | some a => pure a

/-- `as_array().push_back(value)`: everyone who holds the array sees the new element. -/
def ValuePtr.pushBack (a value : Addr) : Exec (Heap Cell) Exn Unit := do
  let vs ← ValuePtr.asArray a
  Exec.modify fun h => h.set a (.array (vs ++ [value]))

/-! ## Parsing -/

structure Builder (σ : Type) where
  parser : Parser σ
  heap : Heap Cell

namespace Builder

variable {σ : Type} {α : Type}

def onParser : Exec (Parser σ) Exn α → Exec (Builder σ) Exn α :=
  Exec.zoom parser fun b p => { b with parser := p }

def onHeap : Exec (Heap Cell) Exn α → Exec (Builder σ) Exn α :=
  Exec.zoom heap fun b h => { b with heap := h }

variable [TokenSource σ]

mutual

def valueN : ℕ → Exec (Builder σ) Exn Addr
  | 0 => Exec.stop .outOfFuel
  | n+1 => do
    match ← onParser Parser.peek with
    | none => Exec.throw Parser.unexpectedEof
    | some tok =>
      match tok.type with
      | .num => do
        let d ← onParser (← onParser Parser.next).cargo.getDouble
        onHeap (new (.number d))
      | .str => do
        let s ← onParser (← onParser Parser.next).cargo.getString
        onHeap (new (.string s))
      | .bool => do
        let b ← onParser (← onParser Parser.next).cargo.getBool
        onHeap (new (.boolean b))
      | .nil => do
        let _ ← onParser Parser.next
        onHeap (new .nil)
      | .lbracket => do
        let _ ← onParser (Parser.eat .lbracket)
        let values ← elementsN n []
        let _ ← onParser (Parser.eat .rbracket)
        onHeap (new (.array values))
      | .lbrace => do
        let _ ← onParser Parser.next
        let values ← membersN n []
        let _ ← onParser (Parser.eat .rbrace)
        onHeap (new (.object values))
      | type => Exec.throw (Parser.badValue type)

def elementsN : ℕ → List Addr → Exec (Builder σ) Exn (List Addr)
  | 0, _ => Exec.stop .outOfFuel
  | n+1, values => do
    match ← onParser Parser.peek with
    | none => pure values
    | some next =>
      if next.type = .rbracket then pure values
      else do
        onParser (Parser.eatSeparator values.isEmpty)
        let v ← valueN n
        elementsN n (values ++ [v])

def membersN : ℕ → Dict Bytes Addr → Exec (Builder σ) Exn (Dict Bytes Addr)
  | 0, _ => Exec.stop .outOfFuel
  | n+1, values => do
    match ← onParser Parser.peek with
    | none => pure values
    | some next =>
      if next.type = .rbrace then pure values
      else do
        onParser (Parser.eatSeparator values.isEmpty)
        let key ← onParser (← onParser (Parser.eat .str)).cargo.getString
        let _ ← onParser (Parser.eat .colon)
        let value ← valueN n
        membersN n (values.assign key value)

end

def value : Exec (Builder σ) Exn Addr := fun b => valueN b.parser.fuel b

def parse {σ : Type} [CharSource σ] (size : ℤ) : Exec (Builder σ) Exn Addr := do
  let value ← value
  if (← onParser (Exec.read fun p : Parser σ => CharSource.pos p.scan)) ≠ size then
    Exec.throw Parser.trailingData
  else pure value

end Builder

def buildRun (f : Stream) (size : ℤ) (h : Heap Cell) : Run (Builder Scanner) Exn Addr :=
  Builder.parse size ⟨Parser.init (Scanner.init f size),h⟩

def parseInto (f : Stream) (size : ℤ) : Exec (Heap Cell) Exn Addr := fun h =>
  let r := buildRun f size h
  ⟨r.visited.map Builder.heap,r.outcome,r.final.heap⟩

/-- `Parse(FILE*, int)` as an operation on the stream and the values. -/
def parseFrom (size : ℤ) : Exec (Stream × Heap Cell) Exn Addr := fun s =>
  let r := buildRun s.1 size s.2
  ⟨r.visited.map (fun b => (b.parser.scan.f,b.heap)),r.outcome,(r.final.parser.scan.f,r.final.heap)⟩

/-! ## The parser builds what it returns -/

/-- The value at an address, built of cells from `lo` on that are not shared. -/
def Fresh (lo : ℕ) (h : Heap Cell) (v : Value) (a : Addr) : Prop :=
  ∃ fp, Cell.layout.Owns h a v fp ∧ ∀ x ∈ fp, lo ≤ x

/-- Two runs fail in the same way, or both return and their results are related. -/
inductive Alike {α β : Type} (Q : α → β → Prop) :
    Except (Stop Exn) α → Except (Stop Exn) β → Prop
  | ok {a : α} {b : β} (h : Q a b) : Alike Q (.ok a) (.ok b)
  | error (e : Stop Exn) : Alike Q (.error e) (.error e)

section Building

variable {ρ τ α β γ δ : Type} {s : ρ} {h : Heap Cell}

/-- The second program, whose state also has the values, does what the first does and only adds
cells. -/
def Builds (mk : ρ → Heap Cell → τ) (s : ρ) (h : Heap Cell) (m : Exec ρ Exn α) (m' : Exec τ Exn β)
    (Q : Heap Cell → α → β → Prop) : Prop :=
  ∃ h', h <+: h' ∧ (m'.run (mk s h)).2 = mk (m.run s).2 h' ∧
    Alike (Q h') (m.run s).1 (m'.run (mk s h)).1

section

variable {mk : ρ → Heap Cell → τ} {Q : Heap Cell → α → β → Prop} {R : Heap Cell → γ → δ → Prop}

theorem builds_pure {a : α} {b : β} (hq : Q h a b) : Builds mk s h (pure a) (pure b) Q :=
  ⟨h,List.prefix_rfl,rfl,.ok hq⟩

theorem builds_stop (e : Stop Exn) : Builds mk s h (Exec.stop e) (Exec.stop e) Q :=
  ⟨h,List.prefix_rfl,rfl,.error e⟩

theorem Builds.bind {m : Exec ρ Exn α} {m' : Exec τ Exn β} {f : α → Exec ρ Exn γ}
    {f' : β → Exec τ Exn δ} (hm : Builds mk s h m m' Q)
    (hf : ∀ s₁ h₁ a b, h <+: h₁ → Q h₁ a b → Builds mk s₁ h₁ (f a) (f' b) R) :
    Builds mk s h (m >>= f) (m' >>= f') R := by
  obtain ⟨h₁,hpre,hfin,hout⟩ := hm
  rcases hr : m.run s with ⟨r,s₁⟩
  rcases hr' : m'.run (mk s h) with ⟨r',t₁⟩
  rw [hr,hr'] at hfin hout
  dsimp only at hfin hout
  subst hfin
  rw [Builds]
  cases hout with
  | error e =>
    rw [run_bind_error hr,run_bind_error hr']
    exact ⟨h₁,hpre,rfl,.error e⟩
  | ok hq =>
    rw [run_bind_ok hr,run_bind_ok hr']
    obtain ⟨h₂,hpre₂,hrest⟩ := hf s₁ h₁ _ _ hpre hq
    exact ⟨h₂,hpre.trans hpre₂,hrest⟩

end

variable {σ : Type} {p : Parser σ}

theorem builds_new {Q : Heap Cell → α → Addr → Prop} {a : α} {c : Cell}
    (hq : Q (h ++ [c]) a h.length) : Builds Builder.mk p h (pure a) (Builder.onHeap (new c)) Q :=
  ⟨h ++ [c],List.prefix_append _ _,rfl,.ok hq⟩

theorem builds_onParser (m : Exec (Parser σ) Exn α) :
    Builds Builder.mk p h m (Builder.onParser m) fun h' a b => h' = h ∧ a = b := by
  refine ⟨h,List.prefix_rfl,rfl,?_⟩
  rw [Builder.onParser,run_zoom]
  dsimp only
  cases (m.run p).1 with
  | error e => exact .error e
  | ok a => exact .ok ⟨rfl,rfl⟩

theorem Builds.step {R : Heap Cell → γ → δ → Prop} {m : Exec (Parser σ) Exn α}
    {f : α → Exec (Parser σ) Exn γ} {f' : α → Exec (Builder σ) Exn δ}
    (hf : ∀ p₁ a, Builds Builder.mk p₁ h (f a) (f' a) R) :
    Builds Builder.mk p h (m >>= f) (Builder.onParser m >>= f') R := by
  refine (builds_onParser m).bind fun p₁ h₁ a b _ hab => ?_
  obtain ⟨rfl,rfl⟩ := hab
  exact hf p₁ a

/-! ### Values that were built one after the other -/

theorem Fresh.scalar {c : Cell} (hc : c.children = []) :
    Fresh h.length (h ++ [c]) (c.assemble []) h.length :=
  ⟨[h.length],.node (L:=Cell.layout) [] (by simp) (by simpa [Cell.layout] using hc) (by simp)
    (by simp),by simp⟩

/-- Values with their addresses and their cells, which are from `lo` on and not shared. -/
structure Group (lo : ℕ) (h : Heap Cell) (ps : List (Addr × Value × List Addr)) : Prop where
  owns : ∀ p ∈ ps, Cell.layout.Owns h p.1 p.2.1 p.2.2
  nodup : (ps.flatMap (·.2.2)).Nodup
  le : ∀ x ∈ ps.flatMap (·.2.2), lo ≤ x

variable {lo : ℕ} {ps : List (Addr × Value × List Addr)} {h₁ : Heap Cell}

theorem group_nil : Group lo h [] := ⟨by simp,by simp,by simp⟩

theorem Group.grow (hg : Group lo h ps) (hpre : h <+: h₁) : Group lo h₁ ps :=
  ⟨fun p hp => (hg.owns p hp).grow hpre,hg.nodup,hg.le⟩

theorem Group.lt_length (hg : Group lo h ps) {x : Addr} (hx : x ∈ ps.flatMap (·.2.2)) :
    x < h.length := by
  obtain ⟨p,hp,hx⟩ := List.mem_flatMap.mp hx
  exact (hg.owns p hp).lt_length hx

/-- What is built later shares nothing with what was built before. -/
theorem Group.disjoint (hg : Group lo h ps) {fp : List Addr} (hfp : ∀ x ∈ fp, h.length ≤ x) :
    ∀ x ∈ ps.flatMap (·.2.2), x ∉ fp := fun _ hx hxf =>
  absurd (hg.lt_length hx) (Nat.not_lt.mpr (hfp _ hxf))

theorem Group.snoc (hg : Group lo h ps) (hlo : lo ≤ h.length) (hpre : h <+: h₁) {v : Value}
    {a : Addr} (hf : Fresh h.length h₁ v a) : ∃ fp, Group lo h₁ (ps ++ [(a,v,fp)]) := by
  obtain ⟨fp,ho,hfp⟩ := hf
  refine ⟨fp,?_,?_,?_⟩
  · intro p hp
    rcases List.mem_append.mp hp with hp | hp
    · exact (hg.owns p hp).grow hpre
    · obtain rfl := List.mem_singleton.mp hp
      exact ho
  · simp only [List.flatMap_append,List.flatMap_cons,List.flatMap_nil,List.append_nil]
    refine List.nodup_append.mpr ⟨hg.nodup,ho.nodup,?_⟩
    rintro x hx y hy rfl
    exact hg.disjoint hfp x hx hy
  · intro x hx
    simp only [List.flatMap_append,List.flatMap_cons,List.flatMap_nil,List.append_nil,
      List.mem_append] at hx
    exact hx.elim (hg.le x) fun hx => hlo.trans (hfp x hx)

/-- A new cell that refers to the values of a group. -/
theorem Group.node (hg : Group lo h ps) (hlo : lo ≤ h.length) {c : Cell}
    (hc : c.children = ps.map (·.1)) :
    Fresh lo (h ++ [c]) (c.assemble (ps.map (·.2.1))) h.length := by
  refine ⟨_,.node (L:=Cell.layout) ps (by simp) hc
    (fun p hp => (hg.owns p hp).grow (List.prefix_append _ _)) ?_,?_⟩
  · exact List.nodup_cons.mpr ⟨fun hm => absurd (hg.lt_length hm) (Nat.lt_irrefl _),hg.nodup⟩
  · intro x hx
    rcases List.mem_cons.mp hx with rfl | hx
    · exact hlo
    · exact hg.le x hx

def Elements (lo : ℕ) (h : Heap Cell) (vs : List Value) (as : List Addr) : Prop :=
  ∃ ps, Group lo h ps ∧ vs = ps.map (·.2.1) ∧ as = ps.map (·.1)

def Members (lo : ℕ) (h : Heap Cell) (vs : Dict Bytes Value) (as : Dict Bytes Addr) : Prop :=
  ∃ qs : Dict Bytes (Addr × Value × List Addr), Group lo h (qs.map (·.2)) ∧
    vs = qs.map (fun q => (q.1,q.2.2.1)) ∧ as = qs.map (fun q => (q.1,q.2.1))

theorem Elements.node {vs : List Value} {as : List Addr} (he : Elements lo h vs as)
    (hlo : lo ≤ h.length) : Fresh lo (h ++ [.array as]) (.array vs) h.length := by
  obtain ⟨ps,hg,rfl,rfl⟩ := he
  exact hg.node hlo (c:=.array (ps.map (·.1))) rfl

theorem Members.node {vs : Dict Bytes Value} {as : Dict Bytes Addr} (hm : Members lo h vs as)
    (hlo : lo ≤ h.length) : Fresh lo (h ++ [.object as]) (.object vs) h.length := by
  obtain ⟨qs,hg,rfl,rfl⟩ := hm
  have := hg.node hlo (c:=.object (qs.map fun q => (q.1,q.2.1))) (by simp [Cell.children])
  simpa [Cell.assemble,List.zip_map',Function.comp_def] using this

theorem Dict.assign_map {ν ω : Type} (f : ν → ω) (d : Dict Bytes ν) (k : Bytes) (v : ν) :
    (d.assign k v).map (fun m => (m.1,f m.2)) =
      Dict.assign (d.map fun m => (m.1,f m.2)) k (f v) := by
  induction d with
  | nil => rfl
  | cons m d ih =>
    rcases m with ⟨k',v'⟩
    simp only [Dict.assign,List.map_cons]
    split <;> simp [ih]

theorem Dict.mem_flatMap_assign {ν : Type} {f : ν → List Addr} {d : Dict Bytes ν} {k : Bytes}
    {v : ν} {x : Addr} (hx : x ∈ (d.assign k v).flatMap fun m => f m.2) :
    x ∈ f v ∨ x ∈ d.flatMap fun m => f m.2 := by
  obtain ⟨m,hm,hx⟩ := List.mem_flatMap.mp hx
  rcases Dict.mem_assign hm with rfl | hm
  · exact .inl hx
  · exact .inr (List.mem_flatMap.mpr ⟨m,hm,hx⟩)

/-- The cells of a value that is replaced are dropped. -/
theorem Dict.nodup_flatMap_assign {ν : Type} {f : ν → List Addr} {d : Dict Bytes ν} {k : Bytes}
    {v : ν} (hd : (d.flatMap fun m => f m.2).Nodup) (hv : (f v).Nodup)
    (hdis : ∀ x ∈ d.flatMap fun m => f m.2, x ∉ f v) :
    ((d.assign k v).flatMap fun m => f m.2).Nodup := by
  induction d with
  | nil => simpa [Dict.assign] using hv
  | cons m d ih =>
    rcases m with ⟨k',v'⟩
    simp only [List.flatMap_cons,List.nodup_append,List.mem_append] at hd hdis
    obtain ⟨hv',hd',hne⟩ := hd
    simp only [Dict.assign]
    split <;> simp only [List.flatMap_cons,List.nodup_append]
    · refine ⟨hv,hd',?_⟩
      rintro x hx y hy rfl
      exact hdis x (.inr hy) hx
    · refine ⟨hv',ih hd' fun x hx => hdis x (.inr hx),?_⟩
      rintro x hx y hy rfl
      rcases Dict.mem_flatMap_assign hy with hy | hy
      · exact hdis x (.inl hx) hy
      · exact hne x hx x hy rfl

theorem Members.assign {vs : Dict Bytes Value} {as : Dict Bytes Addr} (hm : Members lo h vs as)
    (hlo : lo ≤ h.length) (hpre : h <+: h₁) {v : Value} {a : Addr} (hf : Fresh h.length h₁ v a)
    (key : Bytes) : Members lo h₁ (vs.assign key v) (as.assign key a) := by
  obtain ⟨qs,hg,rfl,rfl⟩ := hm
  obtain ⟨fp,ho,hfp⟩ := hf
  have hg₁ := hg.grow hpre
  have hmap : ∀ qs : Dict Bytes (Addr × Value × List Addr),
      (qs.map (·.2)).flatMap (·.2.2) = qs.flatMap fun q => q.2.2.2 := fun qs => by
    rw [List.flatMap_map]
  refine ⟨qs.assign key (a,v,fp),⟨?_,?_,?_⟩,?_,?_⟩
  · intro p hp
    obtain ⟨q,hq,rfl⟩ := List.mem_map.mp hp
    rcases Dict.mem_assign hq with rfl | hq
    · exact ho
    · exact hg₁.owns _ (List.mem_map_of_mem hq)
  · rw [hmap]
    have hnd := hg₁.nodup
    have hdis := hg.disjoint hfp
    rw [hmap] at hnd hdis
    exact Dict.nodup_flatMap_assign (f:=fun v : Addr × Value × List Addr => v.2.2) hnd ho.nodup hdis
  · intro x hx
    rw [hmap] at hx
    rcases Dict.mem_flatMap_assign (f:=fun v : Addr × Value × List Addr => v.2.2) hx with hx | hx
    · exact hlo.trans (hfp x hx)
    · exact hg.le x (by rw [hmap]; exact hx)
  · exact (Dict.assign_map (fun v : Addr × Value × List Addr => v.2.1) qs key (a,v,fp)).symm
  · exact (Dict.assign_map (fun v : Addr × Value × List Addr => v.1) qs key (a,v,fp)).symm

theorem Elements.snoc {vs : List Value} {as : List Addr} (he : Elements lo h vs as)
    (hlo : lo ≤ h.length) (hpre : h <+: h₁) {v : Value} {a : Addr} (hf : Fresh h.length h₁ v a) :
    Elements lo h₁ (vs ++ [v]) (as ++ [a]) := by
  obtain ⟨ps,hg,rfl,rfl⟩ := he
  obtain ⟨fp,hg'⟩ := hg.snoc hlo hpre hf
  exact ⟨_,hg',by simp,by simp⟩

/-! ### The descent -/

variable [TokenSource σ]

structure BuildsN (σ : Type) [TokenSource σ] (n : ℕ) : Prop where
  value : ∀ (p : Parser σ) (h : Heap Cell),
    Builds Builder.mk p h (Parser.valueN n) (Builder.valueN n) (Fresh h.length)
  elements : ∀ (p : Parser σ) (h : Heap Cell) (lo : ℕ) (vs : List Value) (as : List Addr),
    lo ≤ h.length → Elements lo h vs as →
    Builds Builder.mk p h (Parser.elementsN n vs) (Builder.elementsN n as) (Elements lo)
  members : ∀ (p : Parser σ) (h : Heap Cell) (lo : ℕ) (vs : Dict Bytes Value)
    (as : Dict Bytes Addr), lo ≤ h.length → Members lo h vs as →
    Builds Builder.mk p h (Parser.membersN n vs) (Builder.membersN n as) (Members lo)

theorem builds_valueN_succ {n : ℕ} (ih : BuildsN σ n) (p : Parser σ) (h : Heap Cell) :
    Builds Builder.mk p h (Parser.valueN (n+1)) (Builder.valueN (n+1)) (Fresh h.length) := by
  rw [Parser.valueN,Builder.valueN]
  refine .step fun p tok => ?_
  cases tok with
  | none => exact builds_stop _
  | some tok =>
    dsimp only
    cases tok.type with
    | num => exact .step fun p tok => .step fun p d => builds_new (.scalar (c:=.number d) rfl)
    | str => exact .step fun p tok => .step fun p s => builds_new (.scalar (c:=.string s) rfl)
    | bool => exact .step fun p tok => .step fun p b => builds_new (.scalar (c:=.boolean b) rfl)
    | nil => exact .step fun p _ => builds_new (.scalar (c:=.nil) rfl)
    | lbracket =>
      refine .step fun p _ => (ih.elements p h h.length [] [] le_rfl
        ⟨[],group_nil,rfl,rfl⟩).bind fun p h₁ vs as hpre he => .step fun p _ => builds_new ?_
      exact he.node hpre.length_le
    | lbrace =>
      refine .step fun p _ => (ih.members p h h.length [] [] le_rfl
        ⟨[],group_nil,rfl,rfl⟩).bind fun p h₁ vs as hpre hm => .step fun p _ => builds_new ?_
      exact hm.node hpre.length_le
    | _ => exact builds_stop _

theorem builds_elementsN_succ {n : ℕ} (ih : BuildsN σ n) (p : Parser σ) (h : Heap Cell)
    (lo : ℕ) (vs : List Value) (as : List Addr) (hlo : lo ≤ h.length) (he : Elements lo h vs as) :
    Builds Builder.mk p h (Parser.elementsN (n+1) vs) (Builder.elementsN (n+1) as)
      (Elements lo) := by
  rw [Parser.elementsN,Builder.elementsN]
  refine .step fun p tok => ?_
  cases tok with
  | none => exact builds_pure he
  | some tok =>
    dsimp only
    split
    · exact builds_pure he
    · have hempty : as.isEmpty = vs.isEmpty := by
        obtain ⟨ps,-,rfl,rfl⟩ := he
        simp
      rw [hempty]
      refine .step fun p _ => (ih.value p h).bind fun p h₁ v a hpre hv => ?_
      exact ih.elements p h₁ lo _ _ (hlo.trans hpre.length_le) (he.snoc hlo hpre hv)

theorem builds_membersN_succ {n : ℕ} (ih : BuildsN σ n) (p : Parser σ) (h : Heap Cell)
    (lo : ℕ) (vs : Dict Bytes Value) (as : Dict Bytes Addr) (hlo : lo ≤ h.length)
    (hm : Members lo h vs as) :
    Builds Builder.mk p h (Parser.membersN (n+1) vs) (Builder.membersN (n+1) as) (Members lo) := by
  rw [Parser.membersN,Builder.membersN]
  refine .step fun p tok => ?_
  cases tok with
  | none => exact builds_pure hm
  | some tok =>
    dsimp only
    split
    · exact builds_pure hm
    · have hempty : as.isEmpty = vs.isEmpty := by
        obtain ⟨ps,-,rfl,rfl⟩ := hm
        simp
      rw [hempty]
      refine .step fun p _ => .step fun p tok => .step fun p key => .step fun p _ =>
        (ih.value p h).bind fun p h₁ v a hpre hv => ?_
      exact ih.members p h₁ lo _ _ (hlo.trans hpre.length_le) (hm.assign hlo hpre hv key)

theorem buildsN (n : ℕ) : BuildsN σ n := by
  induction n with
  | zero => exact ⟨fun _ _ => builds_stop _,fun _ _ _ _ _ _ _ => builds_stop _,
      fun _ _ _ _ _ _ _ => builds_stop _⟩
  | succ n ih => exact ⟨builds_valueN_succ ih,builds_elementsN_succ ih,builds_membersN_succ ih⟩

theorem builds_value (p : Parser σ) (h : Heap Cell) :
    Builds Builder.mk p h Parser.value Builder.value (Fresh h.length) := by
  have hval : Parser.value p = Parser.valueN p.fuel p := rfl
  have hval' : Builder.value ⟨p,h⟩ = Builder.valueN p.fuel ⟨p,h⟩ := rfl
  have hn := (buildsN p.fuel).value p h
  simp only [Builds,Exec.run] at hn ⊢
  rw [hval,hval']
  exact hn

theorem builds_parse {σ : Type} [CharSource σ] (size : ℤ) (p : Parser σ) (h : Heap Cell) :
    Builds Builder.mk p h (Parser.parse size) (Builder.parse size) (Fresh h.length) := by
  refine (builds_value p h).bind fun p h₁ v a hpre hf => .step fun p pos => ?_
  split
  · exact builds_stop _
  · exact builds_pure hf

end Building

/-- `Parse` in a program with values returns what it returns on its own, as new cells that are
not shared, and leaves every cell that there was as it is. -/
theorem parseInto_fresh (f : Stream) (size : ℤ) (h : Heap Cell) :
    ∃ h', ((parseInto f size).run h).2 = h' ∧ h <+: h' ∧
      Alike (Fresh h.length h') (parseOutcome f size) ((parseInto f size).run h).1 := by
  obtain ⟨h',hpre,hfin,hout⟩ := builds_parse size (Parser.init (Scanner.init f size)) h
  exact ⟨h',congrArg Builder.heap hfin,hpre,hout⟩

theorem builds_parseFrom (size : ℤ) (f : Stream) (h : Heap Cell) :
    Builds Prod.mk f h (parse size) (parseFrom size) (Fresh h.length) := by
  obtain ⟨h',hpre,hfin,hout⟩ := builds_parse size (Parser.init (Scanner.init f size)) h
  refine ⟨h',hpre,?_,hout⟩
  exact congrArg (fun b : Builder Scanner => (b.parser.scan.f,b.heap)) hfin

end Gabby.Json
