import Mathlib.Data.List.Nodup
import Mathlib.Data.List.Perm.Basic
import Mathlib.Logic.Relation

/-! Heaps of cells that refer to each other by address: what an address stands for, what a
write leaves alone, and when no cell contains itself. -/
namespace Gabby

abbrev Addr := ℕ

/-- The cells by their address; a new cell gets the next one. -/
abbrev Heap (κ : Type) := List κ

/-- The references that a cell holds, and the value it makes up of what they stand for. -/
structure Layout (κ τ : Type) where
  children : κ → List Addr
  assemble : κ → List τ → τ

namespace Layout

variable {κ τ : Type} (L : Layout κ τ)

inductive Denotes (h : Heap κ) : Addr → τ → Prop
  | node {a : Addr} {c : κ} (ps : List (Addr × τ)) (hc : h[a]? = some c)
      (hch : L.children c = ps.map Prod.fst) (hps : ∀ p ∈ ps, Denotes h p.1 p.2) :
      Denotes h a (L.assemble c (ps.map Prod.snd))

def Edge (h : Heap κ) (a b : Addr) : Prop := ∃ c, h[a]? = some c ∧ b ∈ L.children c

abbrev Reaches (h : Heap κ) : Addr → Addr → Prop := Relation.ReflTransGen (L.Edge h)

variable {L} {h h' : Heap κ} {a b : Addr} {c : κ} {t t' : τ}

namespace Denotes

theorem exists_cell (hd : L.Denotes h a t) : ∃ c, h[a]? = some c := by
  cases hd with
  | node ps hc => exact ⟨_,hc⟩

theorem lt_length (hd : L.Denotes h a t) : a < h.length := by
  obtain ⟨c,hc⟩ := hd.exists_cell
  exact (List.getElem?_eq_some_iff.mp hc).1

theorem edge (hd : L.Denotes h a t) (he : L.Edge h a b) : ∃ u, L.Denotes h b u := by
  obtain ⟨c,hc,hb⟩ := he
  cases hd with
  | node ps hc' hch hps =>
    obtain rfl : _ = c := Option.some.inj (hc'.symm.trans hc)
    rw [hch] at hb
    obtain ⟨p,hp,rfl⟩ := List.mem_map.mp hb
    exact ⟨p.2,hps p hp⟩

theorem reaches (hd : L.Denotes h a t) (hr : L.Reaches h a b) : ∃ u, L.Denotes h b u := by
  induction hr with
  | refl => exact ⟨t,hd⟩
  | tail _ he ih => exact ih.elim fun u hu => hu.edge he

theorem unique (hd : L.Denotes h a t) (hd' : L.Denotes h a t') : t = t' := by
  induction hd generalizing t' with
  | @node a c ps hc hch hps ih =>
    cases hd' with
    | @node _ c' ps' hc' hch' hps' =>
      obtain rfl : c = c' := Option.some.inj (hc.symm.trans hc')
      have hfst : ps.map Prod.fst = ps'.map Prod.fst := hch.symm.trans hch'
      have hsnd : ps.map Prod.snd = ps'.map Prod.snd := by
        clear hch hch' hc hc' hps
        induction ps generalizing ps' with
        | nil => simpa using hfst
        | cons p ps ihs =>
          cases ps' with
          | nil => simp at hfst
          | cons p' ps' =>
            simp only [List.map_cons,List.cons.injEq] at hfst ⊢
            have hp := hps' p' (by simp)
            rw [← hfst.1] at hp
            exact ⟨ih p (by simp) hp,ihs (fun q hq => ih q (by simp [hq])) ps'
              (fun q hq => hps' q (by simp [hq])) hfst.2⟩
      rw [hsnd]

/-- A write that changes no cell the address reaches does not change what it stands for. -/
theorem frame (hd : L.Denotes h a t) (hsame : ∀ b, L.Reaches h a b → h'[b]? = h[b]?) :
    L.Denotes h' a t := by
  induction hd with
  | @node a c ps hc hch hps ih =>
    refine .node ps ((hsame a .refl).trans hc) hch fun p hp => ih p hp fun b hb => hsame b ?_
    exact .head ⟨c,hc,by rw [hch]; exact List.mem_map_of_mem hp⟩ hb

theorem grow (hd : L.Denotes h a t) (hpre : h <+: h') : L.Denotes h' a t := by
  obtain ⟨l,rfl⟩ := hpre
  refine hd.frame fun b hb => ?_
  obtain ⟨u,hu⟩ := hd.reaches hb
  exact List.getElem?_append_left hu.lt_length

/-- The references from the address lead nowhere without end. -/
theorem acc (hd : L.Denotes h a t) : Acc (fun x y => L.Edge h y x) a := by
  induction hd with
  | @node a c ps hc hch hps ih =>
    refine .intro a fun b ⟨c',hc',hb⟩ => ?_
    obtain rfl : c = c' := Option.some.inj (hc.symm.trans hc')
    rw [hch] at hb
    obtain ⟨p,hp,rfl⟩ := List.mem_map.mp hb
    exact ih p hp

/-- No value contains itself. -/
theorem not_edge_of_reaches (hd : L.Denotes h a t) (he : L.Edge h a b) : ¬ L.Reaches h b a := by
  have irrefl : ∀ {r : Addr → Addr → Prop} {x : Addr}, Acc r x → ¬ r x x := by
    intro r x hx
    induction hx with
    | intro x _ ih => exact fun hr => ih x hr hr
  intro hr
  exact irrefl hd.acc.transGen (Relation.transGen_swap.mpr (.head' he hr))

end Denotes

theorem exists_pairs {P : Addr → τ → Prop} {as : List Addr} (h : ∀ a ∈ as, ∃ t, P a t) :
    ∃ ps : List (Addr × τ), ps.map Prod.fst = as ∧ ∀ p ∈ ps, P p.1 p.2 := by
  induction as with
  | nil => exact ⟨[],rfl,by simp⟩
  | cons a as ih =>
    obtain ⟨t,ht⟩ := h a (by simp)
    obtain ⟨ps,rfl,hps⟩ := ih fun b hb => h b (by simp [hb])
    exact ⟨(a,t)::ps,rfl,List.forall_mem_cons.mpr ⟨ht,hps⟩⟩

theorem exists_denotes (hc : h[a]? = some c) (hb : ∀ b ∈ L.children c, ∃ t, L.Denotes h b t) :
    ∃ t, L.Denotes h a t := by
  obtain ⟨ps,hch,hps⟩ := exists_pairs hb
  exact ⟨_,.node ps hc hch.symm hps⟩

/-! ## Writing to a cell -/

section Set

variable {x : Addr} {c' : κ}

theorem getElem?_set_self_of_cell (hc : h[x]? = some c) : (h.set x c')[x]? = some c' :=
  List.getElem?_set_self (List.getElem?_eq_some_iff.mp hc).1

/-- A write to a cell is seen only from addresses that reach it. -/
theorem Denotes.set_of_not_reaches (hd : L.Denotes h a t) (hn : ¬ L.Reaches h a x) :
    L.Denotes (h.set x c') a t := by
  refine hd.frame fun b hb => List.getElem?_set_ne ?_
  rintro rfl
  exact hn hb

/-- When the cell that was written to stands for something, so does all that did before. -/
theorem Denotes.set (hd : L.Denotes h a t) (hx : ∃ u, L.Denotes (h.set x c') x u) :
    ∃ u, L.Denotes (h.set x c') a u := by
  induction hd with
  | @node a c ps hc hch hps ih =>
    by_cases ha : a = x
    · exact ha ▸ hx
    · refine exists_denotes ((List.getElem?_set_ne (Ne.symm ha)).trans hc) fun b hb => ?_
      rw [hch] at hb
      obtain ⟨p,hp,rfl⟩ := List.mem_map.mp hb
      exact ih p hp

variable (L) in
def Sound (h : Heap κ) : Prop := ∀ a < h.length, ∃ t, L.Denotes h a t

theorem sound_nil : L.Sound [] := fun _ ha => absurd ha (Nat.not_lt_zero _)

/-- A new cell may refer to all that there are. -/
theorem Sound.alloc (hs : L.Sound h) (hc : ∀ b ∈ L.children c, b < h.length) :
    L.Sound (h ++ [c]) := by
  intro a ha
  rw [List.length_append,List.length_singleton] at ha
  have hold : ∀ b < h.length, ∃ t, L.Denotes (h ++ [c]) b t := fun b hb =>
    (hs b hb).imp fun t ht => ht.grow (List.prefix_append _ _)
  by_cases hlt : a < h.length
  · exact hold a hlt
  · obtain rfl : a = h.length := by omega
    exact exists_denotes (c:=c) (by simp) fun b hb => hold b (hc b hb)

variable (L) in
def Closed (h : Heap κ) : Prop := ∀ a b, L.Edge h a b → b < h.length

theorem closed_nil : L.Closed [] := by
  rintro a b ⟨c,hc,-⟩
  simp at hc

theorem Closed.alloc (hcl : L.Closed h) (hc : ∀ b ∈ L.children c, b < h.length) :
    L.Closed (h ++ [c]) := by
  rintro a b ⟨d,hd,hb⟩
  rw [List.length_append]
  by_cases ha : a < h.length
  · rw [List.getElem?_append_left ha] at hd
    exact Nat.lt_add_right _ (hcl a b ⟨d,hd,hb⟩)
  · obtain rfl : d = c := by
      rw [List.getElem?_append_right (Nat.not_lt.mp ha)] at hd
      exact List.mem_singleton.mp (List.mem_of_getElem? hd)
    exact Nat.lt_add_right _ (hc b hb)

theorem Closed.set (hcl : L.Closed h) (hc : ∀ b ∈ L.children c', b < h.length) :
    L.Closed (h.set x c') := by
  rintro a b ⟨d,hd,hb⟩
  rw [List.length_set]
  by_cases ha : x = a
  · subst ha
    obtain rfl : d = c' := by
      rw [List.getElem?_set_self'] at hd
      obtain ⟨y,-,hy⟩ := Option.map_eq_some_iff.mp hd
      exact hy.symm
    exact hc b hb
  · rw [List.getElem?_set_ne ha] at hd
    exact hcl a b ⟨d,hd,hb⟩

/-- An address from which no way leads on without end stands for something. -/
theorem Closed.exists_denotes (hcl : L.Closed h) (ha : a < h.length)
    (hacc : Acc (fun x y => L.Edge h y x) a) : ∃ t, L.Denotes h a t := by
  induction hacc with
  | intro a _ ih =>
    obtain ⟨c,hc⟩ : ∃ c, h[a]? = some c := ⟨_,List.getElem?_eq_getElem ha⟩
    refine Layout.exists_denotes hc fun b hb => ?_
    have he : L.Edge h a b := ⟨c,hc,hb⟩
    exact ih b he (hcl a b he)

/-- With fewer references there is no new way round. -/
theorem Closed.sound (hcl : L.Closed h) (hlen : h.length ≤ h'.length)
    (hsub : ∀ a b, L.Edge h a b → L.Edge h' a b) (hs : L.Sound h') : L.Sound h := by
  intro a ha
  obtain ⟨t,ht⟩ := hs a (Nat.lt_of_lt_of_le ha hlen)
  exact hcl.exists_denotes ha (Subrelation.accessible (hsub _ _) ht.acc)

/-- A reference added to a cell is harmless exactly when it does not lead back to the cell. -/
theorem sound_set_iff (hs : L.Sound h) (hc : h[x]? = some c) (hb : b < h.length)
    (hch : L.children c' = L.children c ++ [b]) : L.Sound (h.set x c') ↔ ¬ L.Reaches h b x := by
  have hlt : x < h.length := (List.getElem?_eq_some_iff.mp hc).1
  have hedge : ∀ {y z : Addr}, L.Edge h y z → L.Edge (h.set x c') y z := by
    rintro y z ⟨d,hd,hz⟩
    by_cases hy : y = x
    · subst hy
      obtain rfl : c = d := Option.some.inj (hc.symm.trans hd)
      exact ⟨c',getElem?_set_self_of_cell hc,by simp [hch,hz]⟩
    · exact ⟨d,(List.getElem?_set_ne (Ne.symm hy)).trans hd,hz⟩
  constructor
  · intro hs' hr
    obtain ⟨t,ht⟩ := hs' x (by simpa using hlt)
    have hxb : L.Edge (h.set x c') x b := ⟨c',getElem?_set_self_of_cell hc,by simp [hch]⟩
    exact ht.not_edge_of_reaches hxb (Relation.ReflTransGen.mono (fun _ _ => hedge) _ _ hr)
  · intro hn a ha
    rw [List.length_set] at ha
    obtain ⟨t,ht⟩ := hs a ha
    refine ht.set (exists_denotes (getElem?_set_self_of_cell hc) fun y hy => ?_)
    rw [hch,List.mem_append,List.mem_singleton] at hy
    -- neither the old references nor the new one see the write
    rcases hy with hy | rfl
    · obtain ⟨u,hu⟩ := hs x hlt
      have hxy : L.Edge h x y := ⟨c,hc,hy⟩
      obtain ⟨v,hv⟩ := hu.edge hxy
      exact ⟨v,hv.set_of_not_reaches (hu.not_edge_of_reaches hxy)⟩
    · obtain ⟨v,hv⟩ := hs y hb
      exact ⟨v,hv.set_of_not_reaches hn⟩

end Set

/-! ## Values that share no cells -/

variable (L) in
/-- What an address stands for when no cell below it is reached twice, with these cells. -/
inductive Owns (h : Heap κ) : Addr → τ → List Addr → Prop
  | node {a : Addr} {c : κ} (ps : List (Addr × τ × List Addr)) (hc : h[a]? = some c)
      (hch : L.children c = ps.map (·.1)) (hps : ∀ p ∈ ps, Owns h p.1 p.2.1 p.2.2)
      (hnd : (a :: ps.flatMap (·.2.2)).Nodup) :
      Owns h a (L.assemble c (ps.map (·.2.1))) (a :: ps.flatMap (·.2.2))

namespace Owns

variable {fp fp' : List Addr}

theorem inv (ho : L.Owns h a t fp) : ∃ (c : κ) (ps : List (Addr × τ × List Addr)),
    h[a]? = some c ∧ L.children c = ps.map (·.1) ∧ (∀ p ∈ ps, L.Owns h p.1 p.2.1 p.2.2) ∧
    fp.Nodup ∧ t = L.assemble c (ps.map (·.2.1)) ∧ fp = a :: ps.flatMap (·.2.2) := by
  cases ho with
  | node ps hc hch hps hnd => exact ⟨_,ps,hc,hch,hps,hnd,rfl,rfl⟩

theorem denotes (ho : L.Owns h a t fp) : L.Denotes h a t := by
  induction ho with
  | node ps hc hch hps hnd ih =>
    have hsnd : ps.map (·.2.1) = (ps.map fun p => (p.1,p.2.1)).map Prod.snd := by
      rw [List.map_map]
      rfl
    rw [hsnd]
    refine .node _ hc (by rw [hch,List.map_map]; rfl) fun p hp => ?_
    obtain ⟨q,hq,rfl⟩ := List.mem_map.mp hp
    exact ih q hq

theorem nodup (ho : L.Owns h a t fp) : fp.Nodup := by
  cases ho with
  | node ps hc hch hps hnd => exact hnd

/-- The cells of a value are all it depends on. -/
theorem frame (ho : L.Owns h a t fp) (hsame : ∀ b ∈ fp, h'[b]? = h[b]?) : L.Owns h' a t fp := by
  induction ho with
  | node ps hc hch hps hnd ih =>
    refine .node ps ((hsame _ (by simp)).trans hc) hch (fun p hp => ih p hp fun b hb => ?_) hnd
    exact hsame b (List.mem_cons_of_mem _ (List.mem_flatMap.mpr ⟨p,hp,hb⟩))

theorem lt_length (ho : L.Owns h a t fp) (hb : b ∈ fp) : b < h.length := by
  induction ho with
  | node ps hc hch hps hnd ih =>
    rcases List.mem_cons.mp hb with rfl | hb
    · exact (List.getElem?_eq_some_iff.mp hc).1
    · obtain ⟨p,hp,hb⟩ := List.mem_flatMap.mp hb
      exact ih p hp hb

theorem length_le (ho : L.Owns h a t fp) : fp.length ≤ h.length := by
  have hsub : fp ⊆ List.range h.length := fun _ hb => List.mem_range.mpr (ho.lt_length hb)
  simpa using (List.subperm_of_subset ho.nodup hsub).length_le

theorem grow (ho : L.Owns h a t fp) (hpre : h <+: h') : L.Owns h' a t fp := by
  obtain ⟨l,rfl⟩ := hpre
  exact ho.frame fun b hb => List.getElem?_append_left (ho.lt_length hb)

/-- A child that was replaced in place, by cells that the rest does not have. -/
theorem replace {ps qs : List (Addr × τ × List Addr)} {u u' : τ} {g g' : List Addr}
    (hc : h[a]? = some c) (hch : L.children c = (ps ++ (b,u,g)::qs).map (·.1))
    (hps : ∀ p ∈ ps ++ qs, L.Owns h p.1 p.2.1 p.2.2)
    (hnd : (a :: (ps ++ (b,u,g)::qs).flatMap (·.2.2)).Nodup)
    (hb : L.Owns h' b u' g')
    (hsame : ∀ x ∉ g, x < h.length → h'[x]? = h[x]?)
    (hnew : ∀ x ∈ g', x ∈ g ∨ x ∉ a :: (ps ++ (b,u,g)::qs).flatMap (·.2.2)) :
    L.Owns h' a (L.assemble c ((ps ++ (b,u',g')::qs).map (·.2.1)))
      (a :: (ps ++ (b,u',g')::qs).flatMap (·.2.2)) := by
  have hlen : a < h.length := (List.getElem?_eq_some_iff.mp hc).1
  simp only [List.flatMap_append,List.flatMap_cons,List.nodup_cons,List.mem_append,not_or,
    List.nodup_append] at hnd
  obtain ⟨⟨hap,hag,haq⟩,hndp,⟨hndg,hndq,hgq⟩,hpg⟩ := hnd
  have hkeep : ∀ p ∈ ps ++ qs, L.Owns h' p.1 p.2.1 p.2.2 := by
    intro p hp
    refine (hps p hp).frame fun x hx => hsame x (fun hxg => ?_) ((hps p hp).lt_length hx)
    rcases List.mem_append.mp hp with hp | hp
    · exact hpg x (List.mem_flatMap.mpr ⟨p,hp,hx⟩) x (.inl hxg) rfl
    · exact hgq x hxg x (List.mem_flatMap.mpr ⟨p,hp,hx⟩) rfl
  have hout : ∀ x ∈ g', x ≠ a ∧ x ∉ ps.flatMap (·.2.2) ∧ x ∉ qs.flatMap (·.2.2) := by
    intro x hx
    rcases hnew x hx with hxg | hxl
    · exact ⟨fun he => hag (he ▸ hxg),fun hm => hpg x hm x (.inl hxg) rfl,
        fun hm => hgq x hxg x hm rfl⟩
    · simp only [List.flatMap_append,List.flatMap_cons,List.mem_cons,List.mem_append,not_or] at hxl
      exact ⟨hxl.1,hxl.2.1,hxl.2.2.2⟩
  refine .node _ ((hsame a hag hlen).trans hc) (by simpa using hch) ?_ ?_
  · intro p hp
    simp only [List.mem_append,List.mem_cons] at hp
    rcases hp with hp | rfl | hp
    · exact hkeep p (List.mem_append_left _ hp)
    · exact hb
    · exact hkeep p (List.mem_append_right _ hp)
  · simp only [List.flatMap_append,List.flatMap_cons,List.nodup_cons,List.mem_append,not_or,
      List.nodup_append]
    refine ⟨⟨hap,fun h => (hout a h).1 rfl,haq⟩,hndp,⟨hb.nodup,hndq,?_⟩,?_⟩
    · rintro x hx y hy rfl
      exact (hout x hx).2.2 hy
    · rintro x hx y (hy | hy) rfl
      · exact (hout x hy).2.1 hx
      · exact hpg x hx x (.inr hy) rfl

end Owns

end Layout
end Gabby
