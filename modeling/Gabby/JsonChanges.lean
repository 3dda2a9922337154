import Gabby.JsonSharing
import Gabby.Transition

/-! What a program may do with values: make new ones of those it has, and append to arrays
that others may share. -/
namespace Gabby.Json

open Exec ValuePtr

inductive Change
  /-- One of `Value::Nil`, `Value::Array`, `Value::Object` and so on. -/
  | make (c : Cell)
  /-- `a->as_array().push_back(b)`. -/
  | push (a b : Addr)

/-- Programs over values. All pointers they use are those of values that they made. -/
def changes : System (Heap Cell) Change where
  enabled h
    | .make c => ∀ b ∈ c.children, b < h.length
    | .push a b => b < h.length ∧ ∃ vs, h[a]? = some (.array vs)
  next h
    | .make c => ((new c).run h).2
    | .push a b => ((pushBack a b).run h).2

/-- The change puts no array into itself. -/
def Change.Safe (h : Heap Cell) : Change → Prop
  | .make _ => True
  | .push a b => ¬ Cell.layout.Reaches h b a

variable {h : Heap Cell} {a b : Addr} {as : List Addr} {c : Cell}

theorem run_asArray (hc : h[a]? = some (.array as)) : (asArray a).run h = (.ok as,h) := by
  rw [asArray,run_bind_ok (run_deref hc)]
  rfl

theorem run_pushBack (hc : h[a]? = some (.array as)) (b : Addr) :
    (pushBack a b).run h = (.ok (),h.set a (.array (as ++ [b]))) := by
  rw [pushBack,run_bind_ok (run_asArray hc)]
  rfl

@[simp] theorem next_make : changes.next h (.make c) = h ++ [c] := rfl

theorem next_push (hc : h[a]? = some (.array as)) :
    changes.next h (.push a b) = h.set a (.array (as ++ [b])) :=
  congrArg Prod.snd (run_pushBack hc b)

theorem closed_next (hcl : Cell.layout.Closed h) {x : Change} (hx : changes.enabled h x) :
    Cell.layout.Closed (changes.next h x) := by
  cases x with
  | make c => exact hcl.alloc hx
  | push a b =>
    obtain ⟨hb,as,hc⟩ := hx
    rw [next_push hc]
    refine hcl.set fun y hy => ?_
    rcases List.mem_append.mp hy with hy | hy
    · exact hcl a y ⟨_,hc,hy⟩
    · exact List.mem_singleton.mp hy ▸ hb

theorem edge_next {x : Change} (hx : changes.enabled h x) {y z : Addr}
    (he : Cell.layout.Edge h y z) : Cell.layout.Edge (changes.next h x) y z := by
  obtain ⟨d,hd,hz⟩ := he
  cases x with
  | make c =>
    have hlt := (List.getElem?_eq_some_iff.mp hd).1
    exact ⟨d,(List.getElem?_append_left hlt).trans hd,hz⟩
  | push a b =>
    obtain ⟨hb,as,hc⟩ := hx
    rw [next_push hc]
    by_cases hy : a = y
    · subst hy
      obtain rfl : Cell.array as = d := Option.some.inj (hc.symm.trans hd)
      exact ⟨_,Layout.getElem?_set_self_of_cell hc,List.mem_append_left _ hz⟩
    · exact ⟨d,(List.getElem?_set_ne hy).trans hd,hz⟩

/-- All values stay printable exactly when the change is safe. -/
theorem sound_next_iff (hcl : Cell.layout.Closed h) {x : Change} (hx : changes.enabled h x) :
    Cell.layout.Sound (changes.next h x) ↔ Cell.layout.Sound h ∧ x.Safe h := by
  have hback : Cell.layout.Sound (changes.next h x) → Cell.layout.Sound h := by
    refine hcl.sound ?_ fun _ _ => edge_next hx
    cases x with
    | make c => simp
    | push a b => rw [next_push hx.2.choose_spec,List.length_set]
  cases x with
  | make c => exact ⟨fun hs => ⟨hback hs,trivial⟩,fun hs => hs.1.alloc hx⟩
  | push a b =>
    have hs := hback
    obtain ⟨hb,as,hc⟩ := hx
    rw [next_push hc] at hs ⊢
    constructor
    · exact fun h' => ⟨hs h',(Layout.sound_set_iff (hs h') hc hb rfl).mp h'⟩
    · exact fun h' => (Layout.sound_set_iff h'.1 hc hb rfl).mpr h'.2

def Printable (h : Heap Cell) (a : Addr) : Prop := ∃ n s, (printN n a).run h = (.ok s,h)

theorem printable_iff : Printable h a ↔ ∃ v, Cell.layout.Denotes h a v := by
  constructor
  · rintro ⟨n,s,hr⟩
    obtain ⟨v,hd,-⟩ := printN_eq_ok.mp ⟨n,hr⟩
    exact ⟨v,hd⟩
  · rintro ⟨v,hd⟩
    obtain ⟨n,hr⟩ := printN_eq_ok.mpr ⟨v,hd,rfl⟩
    exact ⟨n,_,hr⟩

/-- At the end of a program every value can be printed exactly when no `push_back` put an array
into a value that the array was part of. -/
theorem printable_iff_safe {xs : List Change} (hv : changes.Valid [] xs) :
    (∀ a < (changes.final [] xs).length, Printable (changes.final [] xs) a) ↔
      changes.Along (fun h x => x.Safe h) [] xs := by
  have hrun := System.final_iff_along (J:=Cell.layout.Sound) (C:=fun h x => Change.Safe h x)
    (fun _ _ hcl hx => closed_next hcl hx) (fun _ _ hcl hx => sound_next_iff hcl hx)
    Layout.closed_nil hv
  refine Iff.trans (forall₂_congr fun a _ => printable_iff) ?_
  exact hrun.trans (and_iff_right Layout.sound_nil)

/-- An array that is appended to itself cannot be printed. -/
theorem printable_iff_safe_self : ¬ ∀ a < 1, Printable [.array [0]] a := fun hp =>
  have hv : changes.Valid [] [.make (.array []),.push 0 0] :=
    ⟨fun _ hb => absurd hb List.not_mem_nil,⟨by decide,[],rfl⟩,trivial⟩
  ((printable_iff_safe hv).mp hp).2.1 .refl

/-! ## Changing a part of a value -/

def ArrayValue.index {α : Type} (values : List α) (i : ℕ) : Except Exn α :=
  match values[i]? with
  | none => .error (.outOfRange (ascii "out of range: " ++ decimal i))
  | some v => .ok v

namespace ValuePtr

def get (a : Addr) : Field → Exec (Heap Cell) Exn Addr
  | .key key => do ValuePtr.at (← asObject a) key
  | .index i => do
    match ArrayValue.index (← asArray a) i with
    | .ok b => pure b
    | .error e => Exec.throw e

def walk : List Field → Addr → Exec (Heap Cell) Exn Addr
  | [], a => pure a
  | f::fs, a => do walk fs (← get a f)

end ValuePtr

/-- The value with an element appended to the array at the end of the path. -/
def Value.pushAt : List Field → Value → Value → Except Exn Value
  | [], v, w => do
    let vs ← v.asArray
    pure (.array (vs ++ [w]))
  | .key key::fs, v, w => do
    let ms ← v.asObject
    let u ← pushAt fs (← ObjectValue.at ms key) w
    pure (.object (ms.assign key u))
  | .index i::fs, v, w => do
    let vs ← v.asArray
    let u ← pushAt fs (← ArrayValue.index vs i) w
    pure (.array (vs.set i u))

theorem Dict.split_of_find {ν : Type} {d : Dict Bytes ν} {k : Bytes} {v : ν}
    (hf : d.find k = some v) : ∃ d₁ d₂, d = d₁ ++ (k,v)::d₂ ∧
      ∀ w, d.assign k w = d₁ ++ (k,w)::d₂ := by
  induction d with
  | nil => simp at hf
  | cons m d ih =>
    rcases m with ⟨k',v'⟩
    rw [Dict.find_cons] at hf
    split at hf
    · rename_i hk
      cases hf
      subst hk
      exact ⟨[],d,rfl,fun w => by simp [Dict.assign]⟩
    · rename_i hk
      obtain ⟨d₁,d₂,rfl,hw⟩ := ih hf
      exact ⟨(k',v')::d₁,d₂,rfl,fun w => by simp [Dict.assign,hk,hw]⟩

theorem split_of_getElem? {α : Type} {l : List α} {i : ℕ} {x : α} (hi : l[i]? = some x) :
    ∃ l₁ l₂, l = l₁ ++ x::l₂ ∧ ∀ y, l.set i y = l₁ ++ y::l₂ := by
  obtain ⟨hlt,rfl⟩ := List.getElem?_eq_some_iff.mp hi
  have hset : ∀ y, l.set i y = l.take i ++ y::l.drop (i+1) := fun y => by
    rw [List.set_eq_take_append_cons_drop,if_pos hlt]
  exact ⟨_,_,by rw [← hset,List.set_getElem_self],hset⟩

section Parts

variable {v : Value} {fp : List Addr}

theorem owns_array {vs : List Value} (ho : Cell.layout.Owns h a (.array vs) fp) :
    ∃ ps : List Part, h[a]? = some (.array (ps.map (·.1))) ∧ vs = ps.map (·.2.1) ∧
      fp = a :: ps.flatMap (·.2.2) ∧ fp.Nodup ∧ ∀ p ∈ ps, Cell.layout.Owns h p.1 p.2.1 p.2.2 := by
  obtain ⟨c,ps,hc,hch,hps,hnd,ht,hfp⟩ := ho.inv
  cases c with
  | array as =>
    obtain rfl : as = ps.map (·.1) := hch
    exact ⟨ps,hc,Value.array.inj ht,hfp,hnd,hps⟩
  | _ => cases ht

theorem owns_object {ms : Dict Bytes Value} (ho : Cell.layout.Owns h a (.object ms) fp) :
    ∃ qs : Dict Bytes Part, h[a]? = some (.object (qs.map fun q => (q.1,q.2.1))) ∧
      ms = qs.map (fun q => (q.1,q.2.2.1)) ∧ fp = a :: (qs.map (·.2)).flatMap (·.2.2) ∧
      fp.Nodup ∧ ∀ p ∈ qs.map (·.2), Cell.layout.Owns h p.1 p.2.1 p.2.2 := by
  obtain ⟨c,ps,hc,hch,hps,hnd,ht,hfp⟩ := ho.inv
  cases c with
  | object as =>
    obtain ⟨qs,rfl,rfl⟩ := exists_members hch
    exact ⟨qs,hc,Value.object.inj (ht.trans (assemble_object qs)),hfp,hnd,hps⟩
  | _ => cases ht

/-- What a `push_back` at the end of a path from an unshared value comes to: it fails like the
tree and changes nothing, or the value is the changed tree and no other cell has changed. -/
def PushesTo (h : Heap Cell) (a : Addr) (fp g : List Addr) :
    Except Exn Value → Except (Stop Exn) Unit × Heap Cell → Prop
  | .error e, r => r = (.error (.throw e),h)
  | .ok v, r => r.1 = .ok () ∧ (∀ x ∉ fp, r.2[x]? = h[x]?) ∧
      ∃ fp', Cell.layout.Owns r.2 a v fp' ∧ ∀ x ∈ fp', x ∈ fp ∨ x ∈ g

variable {w : Value} {g : List Addr} {b : Addr}

theorem pushesTo_nil (ho : Cell.layout.Owns h a v fp) (hb : Cell.layout.Owns h b w g)
    (hdis : ∀ x ∈ fp, x ∉ g) : PushesTo h a fp g (v.pushAt [] w) ((pushBack a b).run h) := by
  have hread := readsAs_asArray ho.denotes
  cases v with
  | array vs =>
    obtain ⟨ps,hc,rfl,rfl,hnd,hps⟩ := owns_array ho
    rw [run_pushBack hc]
    have hnot : ∀ {p : Part}, p ∈ ps → a ∉ p.2.2 := fun hp hx =>
      (List.nodup_cons.mp hnd).1 (List.mem_flatMap.mpr ⟨_,hp,hx⟩)
    have hag : a ∉ g := hdis a (by simp)
    have hkeep : ∀ {x : Addr} {c : Cell}, x ≠ a → (h.set a c)[x]? = h[x]? := fun hx =>
      List.getElem?_set_ne (Ne.symm hx)
    refine ⟨rfl,fun x hx => hkeep (List.ne_of_not_mem_cons hx),a :: (ps ++ [(b,w,g)]).flatMap
      (·.2.2),?_,?_⟩
    · have hself : (h.set a (.array (ps.map (·.1) ++ [b])))[a]? =
          some (.array (ps.map (·.1) ++ [b])) := Layout.getElem?_set_self_of_cell hc
      have hown := Layout.Owns.node (L:=Cell.layout) (ps ++ [(b,w,g)]) hself
        (by simp [Cell.layout,Cell.children]) ?_ ?_
      · simpa [Cell.layout,Cell.assemble] using hown
      · intro p hp
        rcases List.mem_append.mp hp with hp | hp
        · exact (hps p hp).frame fun x hx => hkeep fun he => hnot hp (he ▸ hx)
        · obtain rfl := List.mem_singleton.mp hp
          exact hb.frame fun x hx => hkeep fun he => hag (he ▸ hx)
      · simp only [List.flatMap_append,List.flatMap_cons,List.flatMap_nil,List.append_nil]
        rw [← List.cons_append]
        refine List.nodup_append.mpr ⟨hnd,hb.nodup,?_⟩
        rintro x hx y hy rfl
        exact hdis x hx hy
    · intro x hx
      simp only [List.flatMap_append,List.flatMap_cons,List.flatMap_nil,List.append_nil,
        List.mem_cons,List.mem_append] at hx ⊢
      tauto
  | _ =>
    rw [pushBack,run_bind_error hread.error]
    rfl

/-- What happens to one part of a value happens to the value. -/
theorem PushesTo.part {x : Except Exn Value} {r : Except (Stop Exn) Unit × Heap Cell}
    {ps qs : List Part} {b₁ : Addr} {u : Value} {g₁ : List Addr} (hr : PushesTo h b₁ g₁ g x r)
    (hc : h[a]? = some c) (hch : c.children = (ps ++ (b₁,u,g₁)::qs).map (·.1))
    (hps : ∀ p ∈ ps ++ (b₁,u,g₁)::qs, Cell.layout.Owns h p.1 p.2.1 p.2.2)
    (hnd : (a :: (ps ++ (b₁,u,g₁)::qs).flatMap (·.2.2)).Nodup)
    (hdis : ∀ x ∈ a :: (ps ++ (b₁,u,g₁)::qs).flatMap (·.2.2), x ∉ g) {f : Value → Value}
    (hf : ∀ u' g', c.assemble ((ps ++ (b₁,u',g')::qs).map (·.2.1)) = f u') :
    PushesTo h a (a :: (ps ++ (b₁,u,g₁)::qs).flatMap (·.2.2)) g (x.map f) r := by
  have hsub : ∀ x ∈ g₁, x ∈ (ps ++ (b₁,u,g₁)::qs).flatMap (·.2.2) := by
    intro x hx
    simp [hx]
  cases x with
  | error e => exact hr
  | ok u' =>
    obtain ⟨hok,hsame,g',hown,hg'⟩ := hr
    refine ⟨hok,fun x hx => hsame x fun hx' => hx (List.mem_cons_of_mem _ (hsub x hx')),
      a :: (ps ++ (b₁,u',g')::qs).flatMap (·.2.2),?_,?_⟩
    · rw [← hf u' g']
      refine Layout.Owns.replace (L:=Cell.layout) hc hch (fun p hp => hps p ?_) hnd hown
        (fun x hx _ => hsame x hx) fun x hx => (hg' x hx).imp id fun hx hx' => hdis x hx' hx
      simp only [List.mem_append,List.mem_cons] at hp ⊢
      tauto
    · intro x hx
      simp only [List.flatMap_append,List.flatMap_cons,List.mem_cons,List.mem_append] at hx ⊢
      rcases hx with hx | hx | hx | hx
      · exact .inl (.inl hx)
      · exact .inl (.inr (.inl hx))
      · exact (hg' x hx).imp (fun hx => .inr (.inr (.inl hx))) id
      · exact .inl (.inr (.inr (.inr hx)))

theorem run_asObject {ms : Dict Bytes Addr} (hc : h[a]? = some (.object ms)) :
    (asObject a).run h = (.ok ms,h) := by
  rw [asObject,run_bind_ok (run_deref hc)]
  rfl

theorem run_get_key {ms : Dict Bytes Addr} (hc : h[a]? = some (.object ms)) (key : Bytes) :
    (ValuePtr.get a (.key key)).run h = match ms.find key with
      | none => (.error (.throw (.keyNotFoundError key)),h)
      | some b => (.ok b,h) := by
  rw [ValuePtr.get,run_bind_ok (run_asObject hc),ValuePtr.at]
  cases ms.find key <;> rfl

theorem run_get_index (hc : h[a]? = some (.array as)) (i : ℕ) :
    (ValuePtr.get a (.index i)).run h = match as[i]? with
      | none => (.error (.throw (.outOfRange (ascii "out of range: " ++ decimal i))),h)
      | some b => (.ok b,h) := by
  rw [ValuePtr.get,run_bind_ok (run_asArray hc),ArrayValue.index]
  cases as[i]? <;> rfl

/-- The way leads on from a part of the value. -/
theorem run_walk_cons {f : Field} {b₁ : Addr} (hg : (ValuePtr.get a f).run h = (.ok b₁,h))
    (fs : List Field) : (walk (f::fs) a >>= fun p => pushBack p b).run h =
      (walk fs b₁ >>= fun p => pushBack p b).run h := by
  have hw : (walk (f::fs) a).run h = (walk fs b₁).run h := by rw [walk,run_bind_ok hg]
  rw [run_bind,run_bind,hw]

theorem run_walk_error {f : Field} {e : Exn}
    (hg : (ValuePtr.get a f).run h = (.error (.throw e),h)) (fs : List Field) :
    (walk (f::fs) a >>= fun p => pushBack p b).run h = (.error (.throw e),h) := by
  rw [walk]
  exact run_bind_error (run_bind_error hg)

theorem map_pushAt_key (key : Bytes) (fs : List Field) (ms : Dict Bytes Value) (w : Value) :
    Value.pushAt (.key key::fs) (.object ms) w = match ms.find key with
      | none => .error (.keyNotFoundError key)
      | some u => (u.pushAt fs w).map fun u => .object (ms.assign key u) := by
  simp only [Value.pushAt,Value.asObject,ObjectValue.at,bind,Except.bind,pure,Except.pure]
  cases ms.find key with
  | none => rfl
  | some u =>
    dsimp only
    cases u.pushAt fs w <;> rfl

theorem map_pushAt_index (i : ℕ) (fs : List Field) (vs : List Value) (w : Value) :
    Value.pushAt (.index i::fs) (.array vs) w = match vs[i]? with
      | none => .error (.outOfRange (ascii "out of range: " ++ decimal i))
      | some u => (u.pushAt fs w).map fun u => .array (vs.set i u) := by
  simp only [Value.pushAt,Value.asArray,ArrayValue.index,bind,Except.bind,pure,Except.pure]
  cases vs[i]? with
  | none => rfl
  | some u =>
    dsimp only
    cases u.pushAt fs w <;> rfl

/-- `push_back` at the end of any path from an unshared value does to the tree what it would do
to a value that is held by itself, with the same errors, and touches nothing else. -/
theorem pushesTo (hb : Cell.layout.Owns h b w g) (fs : List Field)
    (ho : Cell.layout.Owns h a v fp) (hdis : ∀ x ∈ fp, x ∉ g) :
    PushesTo h a fp g (v.pushAt fs w) ((walk fs a >>= fun p => pushBack p b).run h) := by
  induction fs generalizing a v fp with
  | nil =>
    rw [walk,run_bind_ok (run_pure a h)]
    exact pushesTo_nil ho hb hdis
  | cons f fs ih =>
    cases f with
    | key key =>
      have hread := readsAs_asObject ho.denotes
      cases v with
      | object ms =>
        obtain ⟨qs,hc,rfl,rfl,hnd,hps⟩ := owns_object ho
        have hget := run_get_key hc key
        rw [Dict.find_map (fun p : Part => p.1)] at hget
        rw [map_pushAt_key,Dict.find_map (fun p : Part => p.2.1)]
        cases hf : qs.find key with
        | none =>
          rw [hf] at hget
          rw [run_walk_error hget]
          rfl
        | some part =>
          obtain ⟨b₁,u,g₁⟩ := part
          rw [hf] at hget
          rw [run_walk_cons hget]
          obtain ⟨q₁,q₂,rfl,hassign⟩ := Dict.split_of_find hf
          simp only [List.map_append,List.map_cons] at hps hnd hdis ⊢
          have hchild := ih (hps (b₁,u,g₁) (by simp)) fun x (hx : x ∈ g₁) => hdis x (by simp [hx])
          refine hchild.part hc (by simp [Cell.children,Function.comp_def]) hps hnd hdis
            fun u' g' => ?_
          have hset := Dict.assign_map (fun p : Part => p.2.1) (q₁ ++ (key,b₁,u,g₁)::q₂) key
            (b₁,u',g')
          rw [hassign] at hset
          have hobject := assemble_object (q₁ ++ (key,b₁,u',g')::q₂)
          simp only [List.map_append,List.map_cons] at hset hobject ⊢
          rw [hobject,hset]
      | _ => exact run_walk_error (by rw [ValuePtr.get,run_bind_error hread.error]) fs
    | index i =>
      have hread := readsAs_asArray ho.denotes
      cases v with
      | array vs =>
        obtain ⟨ps,hc,rfl,rfl,hnd,hps⟩ := owns_array ho
        have hget := run_get_index hc i
        rw [List.getElem?_map] at hget
        rw [map_pushAt_index,List.getElem?_map]
        cases hi : ps[i]? with
        | none =>
          rw [hi] at hget
          rw [run_walk_error hget]
          rfl
        | some part =>
          obtain ⟨b₁,u,g₁⟩ := part
          rw [hi] at hget
          rw [run_walk_cons hget]
          have hmem := List.mem_of_getElem? hi
          have hchild := ih (hps _ hmem) fun x (hx : x ∈ g₁) =>
            hdis x (List.mem_cons_of_mem _ (List.mem_flatMap.mpr ⟨_,hmem,hx⟩))
          obtain ⟨ps₁,ps₂,rfl,hset⟩ := split_of_getElem? hi
          refine hchild.part hc rfl hps hnd hdis fun u' g' => congrArg Value.array ?_
          rw [← hset,List.map_set]
      | _ => exact run_walk_error (by rw [ValuePtr.get,run_bind_error hread.error]) fs

def emptyChoices : Heap Cell := [.array [],.object [(ascii "choices",0)],.nil]

theorem pushesTo_member : PushesTo emptyChoices 1 [1,0] [2]
    ((Value.object [(ascii "choices",.array [])]).pushAt [.key (ascii "choices")] .nil)
    ((walk [.key (ascii "choices")] 1 >>= fun p => pushBack p 2).run emptyChoices) := by
  have hnil : Cell.layout.Owns emptyChoices 2 .nil [2] :=
    .node (L:=Cell.layout) (c:=.nil) [] rfl rfl (by simp) (by decide)
  have harray : Cell.layout.Owns emptyChoices 0 (.array []) [0] :=
    .node (L:=Cell.layout) (c:=.array []) [] rfl rfl (by simp) (by decide)
  have hobject : Cell.layout.Owns emptyChoices 1 (.object [(ascii "choices",.array [])]) [1,0] :=
    .node (L:=Cell.layout) (c:=.object [(ascii "choices",0)]) [(0,.array [],[0])] rfl rfl
      (by simpa using harray) (by decide)
  exact pushesTo hnil _ hobject (by decide)

end Parts

end Gabby.Json
