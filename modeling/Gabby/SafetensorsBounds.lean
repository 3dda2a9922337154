import Gabby.JsonText
import Gabby.Safetensors

/-! Which files `LoadFile` stays inside of. It compares no index with the size of the file, so
the length of the header decides, which the file itself declares. -/
namespace Gabby.Inference

def Machine.Holds (env : Machine) (n : ℕ) : Prop := n ≤ env.maxSize ∧ env.allocates n = true

/-- Every read is inside the file, a result has its data inside the file without a wrap of the
offset, and anything else is an exception. -/
structure StaysInside (env : Machine) (file : Bytes) : Prop where
  inside : ∀ i ∈ ((loadFile env file).run .init).2.reads, i < file.length
  offset : ∀ t, ((loadFile env file).run .init).1 = .ok t →
    t.dataOffset.toNat = 8 + ((loadFile env file).run .init).2.headerSize.toNat ∧
      t.dataOffset.toNat ≤ file.length
  raised : ∀ e, ((loadFile env file).run .init).1 = .error e → ∃ x, e = .throw x

/-- The file is mapped, it has the eight bytes of the size, and the header that they declare is
in the file too, or it is too long for a string. -/
def InBounds (env : Machine) (file : Bytes) : Prop := env.maps = true ∧ 8 ≤ file.length ∧
  (8 + (declared env file).toNat ≤ file.length ∨ ¬ env.Holds (declared env file).toNat)

variable {env : Machine} {file mem : Bytes} {s t : Loading} {i n start : ℕ}

/-! ## Reads -/

/-- Rounds that each read the next index come to the end of the mapping. -/
theorem exists_read_end {α : Type} {rounds : ℕ → ℕ → Exec Loading Exn α}
    (hnext : ∀ n i s, i < mem.length → ∃ s', ∀ t,
      (rounds n (i+1)).run s' = (.error .undefined,t) →
        (rounds (n+1) i).run s = (.error .undefined,t))
    (hend : ∀ n s, (rounds (n+1) mem.length).run s =
      (.error .undefined,{ s with reads := s.reads ++ [mem.length] }))
    (hi : i ≤ mem.length) (h : mem.length < i + n) :
    ∃ t, (rounds n i).run s = (.error .undefined,t) ∧ mem.length ∈ t.reads := by
  induction n generalizing i s with
  | zero => omega
  | succ n ih =>
    rcases hi.lt_or_eq with hlt | rfl
    · obtain ⟨s',hs⟩ := hnext n i s hlt
      obtain ⟨t,ht,hmem⟩ := ih (s:=s') hlt (by omega)
      exact ⟨t,hs t ht,hmem⟩
    · exact ⟨_,hend n s,by simp⟩

theorem run_headerRounds_of_lt (env : Machine) (s : Loading) (hi : i ≤ mem.length)
    (h : mem.length < i + n) :
    ∃ t, (headerRounds env mem n i).run s = (.error .undefined,t) ∧ mem.length ∈ t.reads := by
  refine exists_read_end (fun n i s hlt => ?_) (fun n s => ?_) hi h
  · rw [headerRounds,Exec.run_bind_ok (run_byteAt hlt),Exec.run_bind_ok (Exec.run_modify _ _)]
    exact ⟨_,fun t ht => ht⟩
  · rw [headerRounds,Exec.run_bind_error (run_byteAt_of_le le_rfl)]

theorem run_copyFrom (h : i + n ≤ mem.length) : (copyFrom mem n i).run s =
    (.ok ((mem.drop i).take n),{ s with reads := s.reads ++ List.range' i n }) := by
  induction n generalizing i s with
  | zero => simp [copyFrom]
  | succ n ih =>
    rw [copyFrom,Exec.run_bind_ok (run_byteAt (by omega)),Exec.run_bind_ok (ih (by omega)),
      take_drop_succ h]
    simp [List.range'_succ]

theorem run_copyFrom_of_lt (s : Loading) (hi : i ≤ mem.length) (h : mem.length < i + n) :
    ∃ t, (copyFrom mem n i).run s = (.error .undefined,t) ∧ mem.length ∈ t.reads := by
  refine exists_read_end (fun n i s hlt => ?_) (fun n s => ?_) hi h
  · rw [copyFrom,Exec.run_bind_ok (run_byteAt hlt)]
    exact ⟨_,fun t ht => Exec.run_bind_error ht⟩
  · rw [copyFrom,Exec.run_bind_error (run_byteAt_of_le le_rfl)]

theorem makeString_of_holds (h : env.Holds n) :
    makeString env mem start n = copyFrom mem n start := by
  rw [makeString,if_neg (not_lt.mpr h.1),if_neg (by simp [h.2])]

theorem run_makeString_of_not_holds (mem : Bytes) (start : ℕ) (s : Loading) (h : ¬ env.Holds n) :
    ∃ x, (makeString env mem start n).run s = (.error (.throw x),s) := by
  rw [makeString]
  split
  · exact ⟨_,rfl⟩
  · rename_i hmax
    have hall : env.allocates n = false := by
      by_contra ha
      exact h ⟨not_lt.mp hmax,by simpa using ha⟩
    rw [if_pos hall]
    exact ⟨_,rfl⟩

theorem parseString_raises {text : Bytes} {e : Stop Exn} (h : Json.parseString text = .error e) :
    ∃ x, e = .throw x := by
  rw [Json.parseString,Json.parseOutcome] at h
  obtain ⟨w,rfl⟩ := Json.parseRun_fails rfl (by simp [Stream.ofBytes,Stream.ofInput]) h
  exact ⟨_,rfl⟩

/-! ## Files -/

theorem mmap_of_maps (h : env.maps = true) : mmap env file = file := if_pos h

theorem mmap_of_not_maps (h : env.maps = false) : mmap env file = [] := by simp [mmap,h]

/-- The size is read, and the rest of the run goes on with it. -/
theorem run_loadFile (hmaps : env.maps = true) (hlen : 8 ≤ file.length) :
    (loadFile env file).run .init =
      (makeString env file 8 (declared env file).toNat >>= fun text =>
        ofOutcome (Json.parseString text) >>= fun header =>
          pure ⟨file,header,8 + declared env file⟩).run (decoded env file) := by
  rw [loadFile,mmap_of_maps hmaps,Exec.run_bind_ok (run_headerRounds_init hlen),
    Exec.run_bind_ok (Exec.run_read _ _),decoded_headerSize]

theorem run_header {outcome : Except (Stop Exn) Json.Value} {offset : BitVec 64} :
    (ofOutcome outcome >>= fun header => pure (⟨file,header,offset⟩ : Safetensors)).run s =
      (outcome.map fun header => ⟨file,header,offset⟩,s) := by
  cases outcome <;> rfl

theorem run_loadFile_of_fits (hmaps : env.maps = true)
    (hfits : 8 + (declared env file).toNat ≤ file.length)
    (hh : env.Holds (declared env file).toNat) :
    (loadFile env file).run .init =
      ((Json.parseString ((file.drop 8).take (declared env file).toNat)).map fun header =>
          ⟨file,header,8 + declared env file⟩,
        { decoded env file with reads := List.range' 0 (8 + (declared env file).toNat) }) := by
  rw [run_loadFile hmaps ((Nat.le_add_right 8 _).trans hfits),makeString_of_holds hh,
    Exec.run_bind_ok (run_copyFrom hfits),← List.range'_append_1]
  exact run_header

/-- A length that no string can have is refused after the eight bytes of the size. -/
theorem run_loadFile_of_not_holds (hmaps : env.maps = true) (hlen : 8 ≤ file.length)
    (hh : ¬ env.Holds (declared env file).toNat) :
    ∃ x, (loadFile env file).run .init = (.error (.throw x),decoded env file) := by
  obtain ⟨x,hx⟩ := run_makeString_of_not_holds file 8 (decoded env file) hh
  exact ⟨x,by rw [run_loadFile hmaps hlen,Exec.run_bind_error hx]⟩

theorem run_loadFile_of_lt (hmaps : env.maps = true) (hlen : 8 ≤ file.length)
    (hh : env.Holds (declared env file).toNat)
    (hlt : file.length < 8 + (declared env file).toNat) :
    ∃ t, (loadFile env file).run .init = (.error .undefined,t) ∧ file.length ∈ t.reads := by
  obtain ⟨t,ht,hmem⟩ := run_copyFrom_of_lt (decoded env file) hlen hlt
  exact ⟨t,by rw [run_loadFile hmaps hlen,makeString_of_holds hh,Exec.run_bind_error ht],hmem⟩

/-- Without eight bytes the size is read past the end of the mapping. -/
theorem run_loadFile_of_short (env : Machine) (file : Bytes) (hlen : (mmap env file).length < 8) :
    ∃ t, (loadFile env file).run .init = (.error .undefined,t) ∧
      (mmap env file).length ∈ t.reads := by
  have hlt : (mmap env file).length < 0 + 8 := by omega
  obtain ⟨t,ht,hmem⟩ := run_headerRounds_of_lt env .init (Nat.zero_le _) hlt
  exact ⟨t,by rw [loadFile,Exec.run_bind_error ht],hmem⟩

/-- A run either reads past the end of the mapping, or refuses the length of the header, or
gives the header to `Parse`. -/
theorem run_loadFile_cases (env : Machine) (file : Bytes) :
    (∃ t, (loadFile env file).run .init = (.error .undefined,t) ∧
      (mmap env file).length ∈ t.reads ∧ ¬ InBounds env file) ∨
    (∃ x, (loadFile env file).run .init = (.error (.throw x),decoded env file) ∧
      env.maps = true ∧ 8 ≤ file.length ∧ ¬ env.Holds (declared env file).toNat) ∨
    env.maps = true ∧ 8 + (declared env file).toNat ≤ file.length ∧
      env.Holds (declared env file).toNat := by
  cases hmaps : env.maps with
  | false =>
    obtain ⟨t,ht,hmem⟩ := run_loadFile_of_short env file
      (by rw [mmap_of_not_maps hmaps]; decide)
    exact Or.inl ⟨t,ht,hmem,fun h => nomatch hmaps.symm.trans h.1⟩
  | true =>
    have hmap : mmap env file = file := mmap_of_maps hmaps
    by_cases hlen : 8 ≤ file.length
    · by_cases hh : env.Holds (declared env file).toNat
      · by_cases hfits : 8 + (declared env file).toNat ≤ file.length
        · exact Or.inr (Or.inr ⟨rfl,hfits,hh⟩)
        · obtain ⟨t,ht,hmem⟩ := run_loadFile_of_lt hmaps hlen hh (not_le.mp hfits)
          exact Or.inl ⟨t,ht,hmap.symm ▸ hmem,fun h => h.2.2.elim hfits (absurd hh)⟩
      · obtain ⟨x,hx⟩ := run_loadFile_of_not_holds hmaps hlen hh
        exact Or.inr (Or.inl ⟨x,hx,rfl,hlen,hh⟩)
    · obtain ⟨t,ht,hmem⟩ := run_loadFile_of_short env file
        (by rw [hmap]; exact not_le.mp hlen)
      exact Or.inl ⟨t,ht,hmem,fun h => hlen h.2.1⟩

/-- `LoadFile` returns exactly when the header is in the file, a string can hold it, and `Parse`
returns its value. -/
theorem loadFile_eq_ok {r : Safetensors} : ((loadFile env file).run .init).1 = .ok r ↔
    (env.maps = true ∧ 8 + (declared env file).toNat ≤ file.length ∧
      env.Holds (declared env file).toNat) ∧
    Json.parseString ((file.drop 8).take (declared env file).toNat) = .ok r.header ∧
    r.mem = file ∧ r.dataOffset = 8 + declared env file := by
  obtain ⟨t,ht,-,hb⟩ | ⟨x,hx,-,-,hh⟩ | h := run_loadFile_cases env file
  · rw [ht]
    exact iff_of_false (fun h => nomatch h) fun h =>
      hb ⟨h.1.1,(Nat.le_add_right 8 _).trans h.1.2.1,Or.inl h.1.2.1⟩
  · rw [hx]
    exact iff_of_false (fun h => nomatch h) fun h => hh h.1.2.2
  · rw [run_loadFile_of_fits h.1 h.2.1 h.2.2,and_iff_right h]
    generalize Json.parseString _ = outcome
    cases outcome with
    | error e => exact iff_of_false (fun h => nomatch h) fun h => nomatch h.1
    | ok header =>
      constructor
      · rintro ⟨⟩
        exact ⟨rfl,rfl,rfl⟩
      · obtain ⟨mem,header',offset⟩ := r
        rintro ⟨hv,hm,ho⟩
        dsimp only at hv hm ho
        cases hv
        subst hm ho
        rfl

theorem toNat_dataOffset {d : BitVec 64} {n : ℕ} (h : 8 + d.toNat ≤ n) (hn : n < 2^64) :
    (8 + d).toNat = 8 + d.toNat := by
  rw [BitVec.toNat_add]
  exact Nat.mod_eq_of_lt (by simp; omega)

/-- `LoadFile` stays inside a file exactly when it is mapped, has eight bytes, and the header
that they declare is in the file or cannot be made a string. -/
theorem loadFile_staysInside_iff (env : Machine) (file : Bytes) (hfile : file.length < 2^64) :
    StaysInside env file ↔ InBounds env file := by
  obtain ⟨t,ht,-,hb⟩ | ⟨x,hx,hmaps,hlen,hh⟩ | ⟨hmaps,hfits,hh⟩ := run_loadFile_cases env file
  · refine iff_of_false (fun h => ?_) hb
    obtain ⟨x,hx⟩ := h.raised .undefined (by rw [ht])
    cases hx
  · refine iff_of_true ⟨?_,?_,?_⟩ ⟨hmaps,hlen,Or.inr hh⟩
    · rw [hx]
      intro i hi
      have hlt := (List.mem_range'_1.mp hi).2
      omega
    · rw [hx]
      exact fun r hr => nomatch hr
    · rw [hx]
      rintro e ⟨⟩
      exact ⟨x,rfl⟩
  · have hrun := run_loadFile_of_fits hmaps hfits hh
    generalize hp : Json.parseString _ = outcome at hrun
    refine iff_of_true ⟨?_,?_,?_⟩ ⟨hmaps,(Nat.le_add_right 8 _).trans hfits,Or.inl hfits⟩
    · rw [hrun]
      intro i hi
      have hlt := (List.mem_range'_1.mp hi).2
      omega
    · rw [hrun]
      cases outcome with
      | error e => exact fun r hr => nomatch hr
      | ok header =>
        rintro r ⟨⟩
        have hoff := toNat_dataOffset hfits hfile
        exact ⟨hoff,hoff.trans_le hfits⟩
    · rw [hrun]
      cases outcome with
      | ok header => exact fun e he => nomatch he
      | error e =>
        rintro e' ⟨⟩
        exact parseString_raises hp

def emptyHeader : Bytes := [2,0,0,0,0,0,0,0] ++ ascii "{}"

def x86 : Machine := ⟨true,fun x k => x <<< (k % 32),2^62,fun _ => true⟩

theorem loadFile_staysInside_iff_empty : StaysInside x86 emptyHeader :=
  (loadFile_staysInside_iff x86 emptyHeader (by decide)).mpr ⟨rfl,by decide,Or.inl (by decide)⟩

/-- The empty file has no byte to read a size from. -/
theorem not_exists_staysInside :
    ¬ ∃ env, ∀ file : Bytes, file.length < 2^64 → StaysInside env file := by
  rintro ⟨env,h⟩
  have hnil : mmap env [] = [] := by simp [mmap]
  obtain ⟨t,ht,hmem⟩ := run_loadFile_of_short env [] (by rw [hnil]; decide)
  have hin := (h [] (by decide)).inside _ (by rw [ht]; exact hmem)
  exact absurd hin (by simp)

end Gabby.Inference
