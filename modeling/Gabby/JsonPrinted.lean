import Gabby.JsonResync
import Gabby.JsonRoundTrip
import Mathlib.Data.List.Forall2
import Mathlib.Data.List.Permutation

/-! What survives the printing of a value: its lookups, its length, and the two strings of an
inner object, which the printed text shows as they are. -/
namespace Gabby.Json

/-! ## Lookups -/

/-- A relation between values that keeps their shape, up to the order of members. -/
structure Shaped (R : Value → Value → Prop) : Prop where
  string : ∀ {s : Bytes} {w : Value}, R (.string s) w → w = .string s
  array : ∀ {vs : List Value} {w : Value}, R (.array vs) w →
    ∃ ws, w = .array ws ∧ List.Forall₂ R vs ws
  object : ∀ {ms : Dict Bytes Value} {w : Value}, R (.object ms) w →
    ∃ ns ns', w = .object ns ∧ List.Forall₂ (fun m n => n.1 = m.1 ∧ R m.2 n.2) ms ns' ∧
      ns.Perm ns'

theorem shaped_enumerates : Shaped Value.Enumerates where
  string h := by
    cases h
    rfl
  array h := by
    generalize hv : Value.array _ = v at h
    cases h with
    | array ps h =>
      cases hv
      exact ⟨_,rfl,by simpa [List.forall₂_map_left_iff,List.forall₂_map_right_iff,
        List.forall₂_same] using h⟩
    | _ => cases hv
  object h := by
    generalize hv : Value.object _ = v at h
    cases h with
    | object ps ns h hns =>
      cases hv
      exact ⟨ns,_,rfl,by simpa [List.forall₂_map_left_iff,List.forall₂_map_right_iff,
        List.forall₂_same] using h,hns⟩
    | _ => cases hv

theorem shaped_rereads : Shaped Rereads where
  string h := by
    cases h
    rfl
  array h := by
    generalize hv : Value.array _ = v at h
    cases h with
    | array ps h =>
      cases hv
      exact ⟨_,rfl,by simpa [List.forall₂_map_left_iff,List.forall₂_map_right_iff,
        List.forall₂_same] using h⟩
    | _ => cases hv
  object h := by
    generalize hv : Value.object _ = v at h
    cases h with
    | object ps hwf hk h =>
      cases hv
      exact ⟨_,_,rfl,by simpa [List.forall₂_map_left_iff,List.forall₂_map_right_iff,
        List.forall₂_same] using h,.refl _⟩
    | _ => cases hv

theorem find_of_forall₂ {R : Value → Value → Prop} {ms ns : Dict Bytes Value}
    (h : List.Forall₂ (fun m n => n.1 = m.1 ∧ R m.2 n.2) ms ns) {k : Bytes} {v : Value}
    (hv : ms.find k = some v) : ∃ u, Dict.find k ns = some u ∧ R v u := by
  induction h with
  | nil => simp at hv
  | @cons m n ms ns hmn _ ih =>
    rcases m with ⟨k',v'⟩
    rcases n with ⟨l,u⟩
    obtain ⟨rfl,hr⟩ : l = k' ∧ R v' u := hmn
    rw [Dict.find_cons] at hv ⊢
    split at hv
    · cases hv
      exact ⟨u,by simp_all,hr⟩
    · rename_i hne
      obtain ⟨u',hu,hr'⟩ := ih hv
      exact ⟨u',by rw [if_neg hne,hu],hr'⟩

theorem keys_of_forall₂ {R : Value → Value → Prop} {ms ns : Dict Bytes Value}
    (h : List.Forall₂ (fun m n => n.1 = m.1 ∧ R m.2 n.2) ms ns) : ns.keys = ms.keys := by
  induction h with
  | nil => rfl
  | cons hmn _ ih => simpa [Dict.keys] using ⟨hmn.1,by simpa [Dict.keys] using ih⟩

theorem Shaped.find {R : Value → Value → Prop} (hR : Shaped R) {ms : Dict Bytes Value}
    {w : Value} (hwf : ms.WF) (h : R (.object ms) w) : ∃ ns, w = .object ns ∧
      ∀ {k v}, ms.find k = some v → ∃ u, Dict.find k ns = some u ∧ R v u := by
  obtain ⟨ns,ns',rfl,hf,hp⟩ := hR.object h
  have hwf' : Dict.WF ns' := by rwa [Dict.WF,keys_of_forall₂ hf]
  refine ⟨ns,rfl,fun hv => ?_⟩
  rw [← Dict.find_perm hwf' hp.symm]
  exact find_of_forall₂ hf hv

theorem mem_of_forall₂ {α β : Type} {R : α → β → Prop} {as : List α} {bs : List β}
    (h : List.Forall₂ R as bs) {b : β} (hb : b ∈ bs) : ∃ a ∈ as, R a b := by
  induction h with
  | nil => simp at hb
  | @cons a b' as bs hr _ ih =>
    rcases List.mem_cons.mp hb with rfl | hb
    · exact ⟨a,by simp,hr⟩
    · obtain ⟨a',ha,hr'⟩ := ih hb
      exact ⟨a',by simp [ha],hr'⟩

theorem split_of_forall₂ {α β : Type} {R : α → β → Prop} {as as' : List α} {a : α}
    {cs : List β} (h : List.Forall₂ R (as ++ a::as') cs) :
    ∃ bs b bs', cs = bs ++ b::bs' ∧ R a b ∧ ∀ c ∈ bs ++ bs', ∃ a ∈ as ++ as', R a c := by
  induction as generalizing cs with
  | nil =>
    cases h with
    | @cons _ b _ bs hr h => exact ⟨[],b,bs,rfl,hr,fun c => mem_of_forall₂ h⟩
  | cons d as ih =>
    cases h with
    | @cons _ e _ cs hr h =>
      obtain ⟨bs,b,bs',rfl,hab,hm⟩ := ih h
      refine ⟨e::bs,b,bs',rfl,hab,List.forall_mem_cons.mpr ⟨⟨d,by simp,hr⟩,fun c hc => ?_⟩⟩
      obtain ⟨a',ha,hr'⟩ := hm c hc
      exact ⟨a',List.mem_cons_of_mem _ ha,hr'⟩

/-! ## Lengths -/

namespace Value

theorem printMembers_append (first : Bool) (ms ns : List (Bytes × Value)) :
    printMembers first (ms ++ ns) =
      printMembers first ms ++ printMembers (first && ms.isEmpty) ns := by
  induction ms generalizing first with
  | nil => simp [printMembers]
  | cons m ms ih => simp [printMembers,ih false]

def memberLength (m : Bytes × Value) : ℕ := m.1.length + m.2.print.length + 6

theorem length_printMembers (ms : List (Bytes × Value)) :
    (printMembers false ms).length = (ms.map memberLength).sum := by
  induction ms with
  | nil => rfl
  | cons m ms ih =>
    simp only [printMembers,separator,List.length_append,ih,List.map_cons,List.sum_cons,
      memberLength]
    simp [ascii]
    omega

theorem printMembers_false {ms : List (Bytes × Value)} (h : ms ≠ []) :
    printMembers false ms = separator false ++ printMembers true ms := by
  cases ms with
  | nil => exact absurd rfl h
  | cons m ms => simp [printMembers,separator]

theorem length_printMembers_true (ms : List (Bytes × Value)) :
    (printMembers true ms).length = (ms.map memberLength).sum - 2 := by
  cases ms with
  | nil => rfl
  | cons m ms =>
    have := congrArg List.length (printMembers_false (List.cons_ne_nil m ms))
    rw [length_printMembers,List.length_append] at this
    have hs : (separator false).length = 2 := rfl
    omega

theorem length_print_object (ms : List (Bytes × Value)) :
    (print (.object ms)).length = (ms.map memberLength).sum - 2 + 2 := by
  simp [print,length_printMembers_true]

theorem length_print_replace (ms ns : List (Bytes × Value)) (k : Bytes) {v v' : Value} {n : ℕ}
    (h : v'.print.length = v.print.length + n) : (print (.object (ms ++ (k,v')::ns))).length =
      (print (.object (ms ++ (k,v)::ns))).length + n := by
  simp only [length_print_object,List.map_append,List.map_cons,List.sum_append,List.sum_cons,
    memberLength,h]
  omega

theorem length_print_of_enumerates {v w : Value} (h : Enumerates v w) :
    w.print.length = v.print.length := by
  induction h with
  | nil => rfl
  | boolean b => rfl
  | number d => rfl
  | string s => rfl
  | array ps _ ih =>
    have key : ∀ (qs : List (Value × Value)) (first : Bool), (∀ q ∈ qs, q ∈ ps) →
        (printValues first (qs.map Prod.snd)).length =
          (printValues first (qs.map Prod.fst)).length := by
      intro qs
      induction qs with
      | nil => simp [printValues]
      | cons q qs ihq =>
        intro first hqs
        simp [printValues,ih q (hqs q (by simp)),ihq false fun r hr => hqs r (by simp [hr])]
    simp [print,key ps true fun q hq => hq]
  | object ps ms _ hms ih =>
    rw [length_print_object,length_print_object,(hms.map memberLength).sum_eq,List.map_map,
      List.map_map]
    have : ps.map (memberLength ∘ fun p => (p.1,p.2.2)) =
        ps.map (memberLength ∘ fun p => (p.1,p.2.1)) :=
      List.map_congr_left fun p hp => by simp [memberLength,ih p hp]
    rw [this]

end Value

/-! ## Texts that can be read in one way -/

/-- A key that no other token begins with. -/
def Keyword (k : Bytes) : Prop := k.head?.any isalpha ∧ specials k = 0 ∧
  ∀ w ∈ [ascii "true",ascii "false",ascii "null"], ¬ w <+: k ∧ ¬ k <+: w

instance (k : Bytes) : Decidable (Keyword k) :=
  inferInstanceAs (Decidable (k.head?.any isalpha ∧ specials k = 0 ∧
    ∀ w ∈ [ascii "true",ascii "false",ascii "null"], ¬ w <+: k ∧ ¬ k <+: w))

theorem Keyword.bare {k : Bytes} (h : Keyword k) (y : Bytes) : Bare (k ++ y) := by
  obtain ⟨hc,-,hw⟩ := h
  cases k with
  | nil => simp at hc
  | cons c k =>
    refine ⟨c,k ++ y,rfl,by simpa using hc,fun w hm hp => ?_⟩
    rcases List.prefix_or_prefix_of_prefix hp (List.prefix_append (c::k) y) with h | h
    · exact (hw w hm).1 h
    · exact (hw w hm).2 h

theorem isSpecial_of_specials {x : Bytes} (h : specials x = 0) {c : UInt8} (hc : c ∈ x) :
    isSpecial c = false := by
  have := List.countP_eq_zero.mp h c hc
  simpa using this

theorem no_backslash_of_specials {x : Bytes} (h : specials x = 0) : chr '\\' ∉ x := fun hc =>
  absurd (isSpecial_of_specials h hc) (by decide)

theorem unescaped_of_specials {s : Bytes} (h : specials s = 0) (hn : chr '\n' ∉ s) :
    Unescaped s := fun c hc => by
  obtain ⟨hq,hb⟩ := isSpecial_eq_false.mp (isSpecial_of_specials h hc)
  exact ⟨hq,hb,fun he => hn (he ▸ hc)⟩

/-- A text without backslashes, where a key follows the first quote. -/
inductive Tail : Bytes → Prop
  | plain {y : Bytes} (hy : specials y = 0) : Tail y
  | key {x y : Bytes} {c : UInt8} (hx : specials x = 0) (hc : isNeutral c = true) (hy : Bare y)
      (hb : chr '\\' ∉ y) : Tail (x ++ c::chr '"'::y)

theorem isSpecial_of_isNeutral {c : UInt8} (h : isNeutral c = true) : isSpecial c = false := by
  simp only [isNeutral,Bool.and_eq_true,bne_iff_ne] at h
  exact isSpecial_eq_false.mpr ⟨h.1.1.2,h.1.1.1⟩

theorem Tail.cons {c : UInt8} {y : Bytes} (hc : isSpecial c = false) (h : Tail y) :
    Tail (c::y) := by
  cases h with
  | plain hy => exact .plain (by simp [hc,hy])
  | @key x y d hx hd hy hb => exact .key (x:=c::x) (by simp [hc,hx]) hd hy hb

theorem Tail.no_backslash {y : Bytes} (h : Tail y) : chr '\\' ∉ y := by
  cases h with
  | plain hy => exact no_backslash_of_specials hy
  | @key x y c hx hc hy hb =>
    have hc' := (isSpecial_eq_false.mp (isSpecial_of_isNeutral hc)).2
    simpa [hb,Ne.symm hc',no_backslash_of_specials hx] using by decide

/-- Strings before a tail do not reach into it. -/
theorem Tail.specials_le {p y : Bytes} {ts : List Token} (hy : Tail y)
    (h : Spelled (p ++ y) ts) {x : Bytes} (hx : .str x ∈ ts) :
    specials x = 0 ∨ 2 * specials x + 2 ≤ specials p := by
  cases hy with
  | plain hy =>
    have := h.specials_le hx
    simp only [specials_append,hy,Nat.add_zero] at this
    exact .inr this
  | @key z y c hz hc hy hb =>
    rw [← List.append_assoc] at h
    obtain ⟨ts₁,ts₂,rfl,h₁,h₂⟩ := h.resync hc hy
    rcases List.mem_append.mp hx with hx | hx
    · have := h₁.specials_le hx
      simp only [specials_append,hz,specials_cons,isSpecial_of_isNeutral hc,specials_nil] at this
      exact .inr (by simpa using this)
    · exact .inl (h₂.specials_eq_zero (by simpa using ⟨by decide,hb⟩) hx)

def Closes (y : Bytes) : Prop := ∀ z, Tail z → Tail (y ++ z)

theorem Closes.append {y z : Bytes} (hy : Closes y) (hz : Closes z) : Closes (y ++ z) :=
  fun t ht => by
    rw [List.append_assoc]
    exact hy _ (hz _ ht)

theorem closes_singleton {c : UInt8} (h : isSpecial c = false) : Closes [c] :=
  fun _ hz => hz.cons h

theorem Closes.tail {y : Bytes} (h : Closes y) : Tail y := by
  simpa using h [] (.plain rfl)

def Quiet (m : Bytes × Value) : Prop := Keyword m.1 ∧ chr '\\' ∉ m.2.print

theorem Quiet.no_backslash {m : Bytes × Value} (h : Quiet m) :
    chr '\\' ∉ m.1 ∧ chr '\\' ∉ m.2.print := ⟨no_backslash_of_specials h.1.2.1,h.2⟩

theorem no_backslash_printMembers {ms : List (Bytes × Value)}
    (h : ∀ m ∈ ms, chr '\\' ∉ m.1 ∧ chr '\\' ∉ m.2.print) (first : Bool) :
    chr '\\' ∉ Value.printMembers first ms := by
  induction ms generalizing first with
  | nil => simp [Value.printMembers]
  | cons m ms ih =>
    have hs : ∀ first, chr '\\' ∉ Value.separator first := by decide
    have hq : chr '\\' ≠ chr '"' ∧ chr '\\' ∉ ascii "\": " := by decide
    simp [Value.printMembers,hs,hq,h m (by simp),ih (fun n hn => h n (by simp [hn])) false]

theorem no_backslash_printValues {vs : List Value} (h : ∀ v ∈ vs, chr '\\' ∉ v.print)
    (first : Bool) : chr '\\' ∉ Value.printValues first vs := by
  induction vs generalizing first with
  | nil => simp [Value.printValues]
  | cons v vs ih =>
    have hs : ∀ first, chr '\\' ∉ Value.separator first := by decide
    simp [Value.printValues,hs,h v (by simp),ih (fun w hw => h w (by simp [hw])) false]

/-- The printer adds no backslashes. -/
theorem no_backslash_print {v : Value}
    (h : v.Of (fun d => chr '\\' ∉ d.print) fun s => chr '\\' ∉ s) : chr '\\' ∉ v.print := by
  have hc : ∀ c ∈ [chr '"',chr '[',chr ']',chr '{',chr '}'], chr '\\' ≠ c := by decide +kernel
  induction h with
  | nil => decide
  | boolean b => cases b <;> decide
  | number d h => exact h
  | string s h => simpa [Value.print,hc] using h
  | array vs _ ih => simpa [Value.print,hc] using no_backslash_printValues ih true
  | object ms _ hk _ ih =>
    simpa [Value.print,hc] using no_backslash_printMembers (fun m hm => ⟨hk m hm,ih m hm⟩) true

theorem closes_printMembers {ms : List (Bytes × Value)} (h : ∀ m ∈ ms, Quiet m) :
    Closes (Value.printMembers false ms) := by
  intro z hz
  cases ms with
  | nil => simpa [Value.printMembers] using hz
  | cons m ms =>
    have hb := no_backslash_printMembers (fun n hn => (h n hn).no_backslash) true
    have := Tail.key (x:=[chr ',']) (c:=chr ' ')
      (y:=m.1 ++ ascii "\": " ++ m.2.print ++ Value.printMembers false ms ++ z) (by decide)
      (by decide) (by simpa using (h m (by simp)).1.bare _) (by
        simp only [Value.printMembers,Value.separator] at hb
        simp at hb ⊢
        exact ⟨hb.2.1,hb.2.2.1,hb.2.2.2.1,hb.2.2.2.2,hz.no_backslash⟩)
    simpa [Value.printMembers,Value.separator,ascii] using this

/-! ## Strings shown by a text -/

/-- The text of an object of two strings, in text whose tokens begin where they should. -/
inductive Shows (a b : Bytes) : Bytes → Prop
  | mk {p k x l z y : Bytes} (hp : chr '\\' ∉ p) (hk : Keyword k) (hl : Keyword l)
      (hxz : x = a ∧ z = b ∨ x = b ∧ z = a) (hy : Closes y) :
      Shows a b (p ++ chr '{'::chr '"'::(k ++ chr '"'::chr ':'::chr ' '::chr '"'::(x ++
        chr '"'::chr ','::chr ' '::chr '"'::(l ++ chr '"'::chr ':'::chr ' '::chr '"'::(z ++
          chr '"'::y)))))

namespace Shows

variable {a b text : Bytes}

/-- A string that the text shows has nothing to escape if it is read back at all: every
string of the text has at most half as many special characters as one of the two. -/
theorem specials_eq_zero (h : Shows a b text) {ts : List Token} (hs : Spelled text ts)
    (ha : .str a ∈ ts) (hb : .str b ∈ ts) : specials a = 0 ∧ specials b = 0 := by
  obtain ⟨hp,hk,hl,hxz,hy⟩ := h
  rename_i p k x l z y
  obtain ⟨ts₁,ts₂,rfl,h₁,h₂⟩ := hs.resync (by decide) (hk.bare _)
  obtain ⟨ts₃,rfl,h₃⟩ := h₂.first_str hk.2.1
  have h₃' : Spelled ((chr ':'::chr ' '::chr '"'::x ++ [chr '"',chr ',']) ++ chr ' '::chr '"'::(l ++
      chr '"'::chr ':'::chr ' '::chr '"'::(z ++ chr '"'::y))) ts₃ := by simpa using h₃
  obtain ⟨ts₄,ts₅,rfl,h₄,h₅⟩ := h₃'.resync (by decide) (hl.bare _)
  obtain ⟨ts₆,rfl,h₆⟩ := h₅.first_str hl.2.1
  have h₆' : Spelled ((chr ':'::chr ' '::chr '"'::z ++ [chr '"']) ++ y) ts₆ := by simpa using h₆
  have hq : ∀ c ∈ [chr ':',chr ' ',chr ',',chr '{'], isSpecial c = false := by decide +kernel
  have key : ∀ s, .str s ∈ ts₁ ++ .str k::(ts₄ ++ .str l::ts₆) →
      specials s = 0 ∨ 2 * specials s ≤ specials x ∨ 2 * specials s ≤ specials z := by
    intro s hs
    simp only [List.mem_append,List.mem_cons,Token.mk.injEq,Cargo.string.injEq,true_and] at hs
    rcases hs with hs | rfl | hs | rfl | hs
    · exact .inl (h₁.specials_eq_zero (by simpa [hp] using by decide) hs)
    · exact .inl hk.2.1
    · have := h₄.specials_le hs
      simp [hq,isSpecial_quote] at this
      exact .inr (.inl (by omega))
    · exact .inl hl.2.1
    · rcases hy.tail.specials_le h₆' hs with hs | hs
      · exact .inl hs
      · simp [hq,isSpecial_quote] at hs
        exact .inr (.inr (by omega))
  have h₁ := key a ha
  have h₂ := key b hb
  rcases hxz with ⟨rfl,rfl⟩ | ⟨rfl,rfl⟩ <;> omega

theorem append (h : Shows a b text) {p y : Bytes} (hp : chr '\\' ∉ p) (hy : Closes y) :
    Shows a b (p ++ text ++ y) := by
  obtain ⟨hq,hk,hl,hxz,hz⟩ := h
  rename_i q k x l z y'
  have := Shows.mk (a:=a) (b:=b) (p:=p ++ q) (y:=y' ++ y) (by simp [hp,hq]) hk hl hxz (hz.append hy)
  simpa using this

theorem array {v : Value} (h : Shows a b v.print) : Shows a b (Value.print (.array [v])) := by
  have := h.append (p:=[chr '[']) (y:=[chr ']']) (by decide) (closes_singleton (by decide))
  simpa [Value.print,Value.printValues,Value.separator] using this

theorem object {k : Bytes} {v : Value} {ms ns : List (Bytes × Value)} (h : Shows a b v.print)
    (hk : Keyword k) (hm : ∀ m ∈ ms, Quiet m) (hn : ∀ m ∈ ns, Quiet m) :
    Shows a b (Value.print (.object (ms ++ (k,v)::ns))) := by
  have hcl := (closes_printMembers hn).append (closes_singleton (c:=chr '}') (by decide))
  have hsep : ∀ first, chr '\\' ∉ Value.separator first := by decide
  have hq : chr '\\' ≠ chr '"' ∧ chr '\\' ≠ chr '{' ∧ chr '\\' ∉ ascii "\": " := by decide
  have := h.append (p:=chr '{'::Value.printMembers true ms ++
    (Value.separator (true && ms.isEmpty) ++ (chr '"'::k ++ ascii "\": ")))
    (by
      have hms := no_backslash_printMembers (fun m h => (hm m h).no_backslash) true
      simpa [hsep,hq,hms] using no_backslash_of_specials hk.2.1) hcl
  simpa [Value.print,Value.printMembers_append,Value.printMembers] using this

theorem pair {k l x z : Bytes} (hk : Keyword k) (hl : Keyword l)
    (hxz : x = a ∧ z = b ∨ x = b ∧ z = a) :
    Shows a b (Value.print (.object [(k,.string x),(l,.string z)])) := by
  have := Shows.mk (p:=[]) (y:=[chr '}']) (by simp) hk hl hxz (closes_singleton (by decide))
  simpa [Value.print,Value.printMembers,Value.separator,ascii] using this

/-! However the members are enumerated. -/

theorem enumerates_pair {k l : Bytes} {w : Value} (hk : Keyword k) (hl : Keyword l)
    (h : Value.Enumerates (.object [(k,.string a),(l,.string b)]) w) : Shows a b w.print := by
  obtain ⟨ns,ns',rfl,hf,hp⟩ := shaped_enumerates.object h
  have hns' : ns' = [(k,.string a),(l,.string b)] := by
    rcases hf with _ | ⟨⟨h₁,h₂⟩,_ | ⟨⟨h₃,h₄⟩,⟨⟩⟩⟩
    exact congrArg₂ _ (Prod.ext h₁ (shaped_enumerates.string h₂))
      (congrArg₂ _ (Prod.ext h₃ (shaped_enumerates.string h₄)) rfl)
  rw [hns'] at hp
  rcases List.perm_pair.mp hp with rfl | rfl
  · exact pair hk hl (.inl ⟨rfl,rfl⟩)
  · exact pair hl hk (.inr ⟨rfl,rfl⟩)

theorem enumerates_array {v w : Value} (hs : ∀ u, v.Enumerates u → Shows a b u.print)
    (h : Value.Enumerates (.array [v]) w) : Shows a b w.print := by
  obtain ⟨ws,rfl,hf⟩ := shaped_enumerates.array h
  rcases hf with _ | ⟨hu,⟨⟩⟩
  exact (hs _ hu).array

theorem enumerates_object {k : Bytes} {v w : Value} {ms ns : List (Bytes × Value)}
    (hs : ∀ u, v.Enumerates u → Shows a b u.print) (hk : Keyword k)
    (hq : ∀ m ∈ ms ++ ns, ∀ u, m.2.Enumerates u → Quiet (m.1,u))
    (h : Value.Enumerates (.object (ms ++ (k,v)::ns)) w) : Shows a b w.print := by
  obtain ⟨us,us',rfl,hf,hp⟩ := shaped_enumerates.object h
  obtain ⟨ms',⟨k',u⟩,ns',rfl,⟨hk',hu⟩,hm⟩ := split_of_forall₂ hf
  obtain rfl : k' = k := hk'
  obtain ⟨ps,qs,rfl⟩ := List.append_of_mem (hp.mem_iff.mpr (by simp) : (k',u) ∈ us)
  have hp' : (ps ++ qs).Perm (ms' ++ ns') :=
    (List.perm_middle.symm.trans (hp.trans List.perm_middle)).cons_inv
  have hquiet : ∀ m ∈ ps ++ qs, Quiet m := by
    rintro ⟨l,x⟩ hx
    obtain ⟨⟨l',v'⟩,hm,h₁,h₂⟩ := hm (l,x) (hp'.mem_iff.mp hx)
    obtain rfl : l = l' := h₁
    exact hq _ hm x h₂
  exact (hs u hu).object hk (fun m hm => hquiet m (by simp [hm]))
    fun m hm => hquiet m (by simp [hm])

end Shows

end Gabby.Json
