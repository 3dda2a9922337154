import Gabby.HttpRequest

/-! The lines of a request head: which bytes `ReadLine` accepts as a line, and which make its
assertion fail. -/
namespace Gabby.Http

open Exec
open Gabby.Stream (holding getLine_line getLine_full getLine_short)

/-! ## Checking a stored line -/

theorem charAt_append {u w : Bytes} {c : UInt8} {i : ℤ} (hi : i = u.length) :
    charAt (u ++ c::w) i = pure c := by
  subst hi
  simp [charAt]

theorem takeWhile_of_not_mem {u w : Bytes} (h : 0 ∉ u) :
    (u ++ w).takeWhile (· != 0) = u ++ w.takeWhile (· != 0) := by
  rw [List.takeWhile_append_of_pos]
  intro c hc
  simp only [bne_iff_ne,ne_eq]
  rintro rfl
  exact h hc

theorem check_line {line : Bytes} (h : 0 ∉ line) (hlen : line.length ≤ 253) (s : Stream) :
    (ReadLine.check (line ++ crlf)).run s = (.ok line,s) := by
  have hz : strnlen (line ++ crlf) kMaxLineLen = line.length + 2 := by
    rw [strnlen,takeWhile_of_not_mem h]
    simp [crlf,kMaxLineLen]
    omega
  have h₁ : charAt (line ++ crlf) ((line.length + 2 : ℕ) - 1) = pure 10 := by
    have := charAt_append (u:=line ++ [13]) (w:=[]) (c:=10) (i:=((line.length + 2 : ℕ) : ℤ) - 1)
      (by simp; omega)
    simpa [crlf] using this
  have h₂ : charAt (line ++ crlf) ((line.length + 2 : ℕ) - 2) = pure 13 := by
    have := charAt_append (u:=line) (w:=[10]) (c:=13) (i:=((line.length + 2 : ℕ) : ℤ) - 2)
      (by simp)
    simpa [crlf] using this
  have h₃ : (endsInCr (line ++ crlf) ((line.length + 2 : ℕ) : ℤ)).run s = (.ok true,s) := by
    rw [endsInCr,if_pos (by omega),h₂]
    rfl
  simp only [ReadLine.check,hz]
  rw [if_neg (by omega),h₁,run_bind_ok (run_pure _ _)]
  rw [if_neg (by decide),run_bind_ok h₃,if_pos rfl,run_pure]
  simp

theorem check_nul (t : Bytes) (s : Stream) :
    (ReadLine.check (0::t)).run s = (.error .assertion,s) := by
  simp [ReadLine.check,strnlen]

theorem strnlen_append {z w : Bytes} (h : 0 ∉ z) (hw : ∀ c ∈ w.head?, c = 0)
    (hlen : z.length ≤ 255) : strnlen (z ++ w) kMaxLineLen = z.length := by
  have hw' : w.takeWhile (· != 0) = [] := by
    cases w with
    | nil => rfl
    | cons c w => simp [hw c rfl]
  rw [strnlen,takeWhile_of_not_mem h,hw',List.append_nil]
  simp only [kMaxLineLen]
  omega

/-- The text before the first NUL must end with a line feed. -/
theorem check_too_long {z w : Bytes} {c : UInt8} (h : 0 ∉ z ++ [c]) (hw : ∀ c ∈ w.head?, c = 0)
    (hlen : (z ++ [c]).length ≤ 255) (hc : c ≠ 10) (s : Stream) :
    ∃ m, (ReadLine.check (z ++ [c] ++ w)).run s = (.error (.throw (.badRequestException m)),s) := by
  have hat : charAt (z ++ [c] ++ w) (((z ++ [c]).length : ℤ) - 1) = pure c := by
    rw [List.append_assoc,List.singleton_append]
    exact charAt_append (by simp)
  simp only [ReadLine.check,strnlen_append h hw hlen]
  rw [if_neg (by simp),hat,run_bind_ok (run_pure _ _),if_pos hc]
  exact ⟨_,run_throw _ _⟩

/-- A line feed needs a carriage return before it. -/
theorem check_ending {z : Bytes} (h : 0 ∉ z ++ [10]) (hlen : (z ++ [10]).length ≤ 255)
    (hz : ∀ c ∈ z.getLast?, c ≠ 13) (s : Stream) :
    ∃ m, (ReadLine.check (z ++ [10])).run s = (.error (.throw (.badRequestException m)),s) := by
  have hread := strnlen_append (w:=[]) h (by simp) hlen
  rw [List.append_nil] at hread
  have h₁ : charAt (z ++ [10]) (((z ++ [10]).length : ℤ) - 1) = pure 10 :=
    charAt_append (by simp)
  have h₂ : (endsInCr (z ++ [10]) ((z ++ [10]).length : ℤ)).run s = (.ok false,s) := by
    rcases List.eq_nil_or_concat' z with rfl | ⟨z,d,rfl⟩
    · simp [endsInCr]
    · have hd : d ≠ 13 := hz d (by simp)
      have hat : charAt (z ++ [d] ++ [10]) (((z ++ [d] ++ [10]).length : ℤ) - 2) = pure d := by
        rw [List.append_assoc,List.singleton_append]
        exact charAt_append (by simp)
      have hlen : 2 ≤ ((z ++ [d] ++ [10]).length : ℤ) := by
        simp only [List.length_append,List.length_singleton]
        omega
      rw [endsInCr,if_pos hlen,hat]
      simp [hd,run_bind]
  simp only [ReadLine.check,hread]
  rw [if_neg (by simp),h₁,run_bind_ok (run_pure _ _),if_neg (by decide),run_bind_ok h₂]
  exact ⟨_,run_throw _ _⟩

/-- A stored line that is neither is rejected. -/
theorem check_cases {buf : Bytes} (hne : buf ≠ []) (hlen : buf.length ≤ 255)
    (hlf : 10 ∉ buf.dropLast) (s : Stream) :
    (∃ line, buf = line ++ crlf ∧ 0 ∉ line ∧ line.length ≤ 253) ∨ (∃ t, buf = 0::t) ∨
      ∃ m, (ReadLine.check buf).run s = (.error (.throw (.badRequestException m)),s) := by
  by_cases h0 : 0 ∈ buf
  · obtain ⟨z,w,rfl,hz⟩ := List.eq_append_cons_of_mem h0
    rcases List.eq_nil_or_concat' z with rfl | ⟨z,c,rfl⟩
    · exact .inr (.inl ⟨w,rfl⟩)
    · have hc : c ≠ 10 := by
        rintro rfl
        apply hlf
        rw [List.dropLast_append_cons]
        simp
      rw [List.length_append] at hlen
      right; right
      exact check_too_long (w:=0::w) hz (by simp) (by omega) hc s
  · rcases List.eq_nil_or_concat' buf with rfl | ⟨z,c,rfl⟩
    · exact absurd rfl hne
    by_cases hc : c = 10
    · subst hc
      by_cases hz : ∀ c ∈ z.getLast?, c ≠ 13
      · exact .inr (.inr (check_ending h0 hlen hz s))
      · push Not at hz
        obtain ⟨c,hz,rfl⟩ := hz
        obtain ⟨z,rfl⟩ := List.getLast?_eq_some_iff.mp hz
        refine .inl ⟨z,by simp [crlf],fun h => h0 (by simp [h]),?_⟩
        simp only [List.length_append,List.length_singleton] at hlen
        omega
    · have := check_too_long (w:=[]) h0 (by simp) hlen hc s
      rw [List.append_nil] at this
      exact .inr (.inr this)

/-! ## Lines -/

structure LineText (line : Bytes) : Prop where
  no_lf : 10 ∉ line
  no_nul : 0 ∉ line
  length_le : line.length ≤ 253

/-- The chunk at the start of these bytes begins with a NUL and is stored whole: it has a
line feed, or it fills the buffer. -/
def NulChunk (b : Bytes) : Prop :=
  ∃ t, b = 0::t ∧ (10 ∈ t.take 254 ∨ 254 ≤ t.length)

/-- Unless the bytes run out, a read stores a nonempty chunk in which a line feed can only be
the last byte. -/
theorem getLine_cases (f : Stream) (b : Bytes) : (10 ∉ b ∧ b.length < 255) ∨
    ∃ buf rest, b = buf ++ rest ∧ buf ≠ [] ∧ buf.length ≤ 255 ∧ 10 ∉ buf.dropLast ∧
      (10 ∈ buf ∨ buf.length = 255) ∧
      Stream.getLine 255 (f.holding b) = (buf,f.holding rest) := by
  by_cases h : 10 ∈ b.take 255
  · obtain ⟨line,w,hb,hline⟩ := List.eq_append_cons_of_mem h
    have hlen : line.length < 255 := by
      have := congrArg List.length hb
      simp only [List.length_take,List.length_append,List.length_cons] at this
      omega
    have hb' : b = line ++ 10::(w ++ b.drop 255) := by
      conv_lhs => rw [← List.take_append_drop 255 b,hb]
      simp
    refine .inr ⟨line ++ [10],w ++ b.drop 255,by simpa using hb',by simp,by simp; omega,
      by simpa using hline,by simp,?_⟩
    conv_lhs => rw [hb']
    exact getLine_line hline hlen f _
  · by_cases hlen : b.length < 255
    · rw [List.take_of_length_le hlen.le] at h
      exact .inl ⟨h,hlen⟩
    · have hlen : 255 ≤ b.length := not_lt.mp hlen
      have htake : (b.take 255).length = 255 := by simp [hlen]
      refine .inr ⟨b.take 255,b.drop 255,(List.take_append_drop 255 b).symm,?_,htake.le,
        fun h' => h (List.mem_of_mem_dropLast h'),.inr htake,getLine_full h hlen f⟩
      rintro h'
      simp [h'] at htake

section ReadLine

variable {f : Stream} (herr : f.err = false) (heof : f.eof = false)
include herr heof

theorem run_readLine_stored {b buf rest : Bytes}
    (h : Stream.getLine 255 (f.holding b) = (buf,f.holding rest)) :
    readLine.run (f.holding b) = (ReadLine.check buf).run (f.holding rest) := by
  have hf : (fgets kMaxLineLen).run (f.holding b) = (.ok buf,f.holding rest) := by
    simp only [fgets,run_step,Stream.fgets,kMaxLineLen,h]
  rw [readLine,run_bind_ok hf]
  simp [run_bind,herr,heof]

theorem run_readLine {line : Bytes} (h : LineText line) (rest : Bytes) :
    readLine.run (f.holding (line ++ crlf ++ rest)) = (.ok line,f.holding rest) := by
  have hget : Stream.getLine 255 (f.holding (line ++ crlf ++ rest)) =
      (line ++ crlf,f.holding rest) := by
    have hlen : (line ++ [13]).length < 255 := by
      have := h.length_le
      rw [List.length_append,List.length_singleton]
      omega
    have := getLine_line (by simpa using h.no_lf) hlen f rest
    simpa [crlf] using this
  rw [run_readLine_stored herr heof hget,check_line h.no_nul h.length_le]

omit heof in
theorem run_readLine_short {b : Bytes} (h : 10 ∉ b) (hlen : b.length < 255) :
    ∃ x s, readLine.run (f.holding b) = (.error (.throw x),s) ∧ x.status.isSome ∧
      (f.ending = .eof → ∃ w, x = .badRequestException w) := by
  have hf : (fgets kMaxLineLen).run (f.holding b) = (.ok b,(f.holding []).fgetc.2) := by
    simp only [fgets,run_step,Stream.fgets,kMaxLineLen,getLine_short h hlen]
  rw [readLine,run_bind_ok hf]
  cases he : f.ending with
  | eof => simp [Stream.fgetc,Stream.holding,he,herr,run_bind,Exn.status]
  | fail e => by_cases h : e = EAGAIN <;>
      simp [Stream.fgetc,Stream.holding,he,run_bind,h,Exn.status]

/-- What a line reader meets: a line, a chunk that starts with a NUL, or an exception. -/
theorem readLine_cases (b : Bytes) :
    (∃ line rest, b = line ++ crlf ++ rest ∧ LineText line) ∨
      (NulChunk b ∧ ∃ s, readLine.run (f.holding b) = (.error .assertion,s)) ∨
      ∃ x s, readLine.run (f.holding b) = (.error (.throw x),s) ∧ x.status.isSome ∧
        (f.ending = .eof → ∃ w, x = .badRequestException w) := by
  rcases getLine_cases f b with ⟨h,hlen⟩ | ⟨buf,rest,hb,hne,hlen,hlf,hfull,hget⟩
  · exact .inr (.inr (run_readLine_short herr h hlen))
  rw [run_readLine_stored herr heof hget]
  rcases check_cases hne hlen hlf (f.holding rest) with ⟨line,hbuf,hz,hle⟩ | ⟨t,rfl⟩ | ⟨w,hw⟩
  · subst hbuf
    refine .inl ⟨line,rest,hb,?_,hz,hle⟩
    intro h
    apply hlf
    rw [crlf,List.dropLast_append_of_ne_nil (by simp)]
    simp [h]
  · refine .inr (.inl ⟨⟨t ++ rest,hb,?_⟩,_,check_nul t _⟩)
    simp only [List.length_cons] at hlen hfull
    rw [List.take_append,List.mem_append,List.length_append]
    rcases hfull with h | h
    · rw [List.mem_cons] at h
      exact .inl (.inl (by
        rw [List.take_of_length_le (by omega)]
        exact h.resolve_left (by decide)))
    · exact .inr (by omega)
  · exact .inr (.inr ⟨_,_,hw,rfl,fun _ => ⟨w,rfl⟩⟩)

theorem run_readLine_nul {b : Bytes} (h : NulChunk b) :
    ∃ s, readLine.run (f.holding b) = (.error .assertion,s) := by
  obtain ⟨t,rfl,ht⟩ := h
  rcases getLine_cases f (0::t) with ⟨h,hlen⟩ | ⟨buf,rest,hb,hne,-,-,-,hget⟩
  · rcases ht with ht | ht
    · exact absurd (List.mem_cons_of_mem 0 (List.mem_of_mem_take ht)) h
    · simp at hlen
      omega
  · obtain ⟨c,buf,rfl⟩ := List.exists_cons_of_ne_nil hne
    obtain ⟨rfl,-⟩ : 0 = c ∧ t = buf ++ rest := by simpa using hb
    exact ⟨_,by rw [run_readLine_stored herr heof hget,check_nul]⟩

end ReadLine

/-! ## Texts of lines -/

def lines (ls : List Bytes) : Bytes := (ls.map (· ++ crlf)).flatten

@[simp] theorem lines_nil : lines [] = [] := rfl
@[simp] theorem lines_cons (l : Bytes) (ls : List Bytes) : lines (l::ls) = l ++ crlf ++ lines ls :=
  rfl

theorem length_le_length_lines (ls : List Bytes) : ls.length ≤ (lines ls).length := by
  induction ls with
  | nil => simp
  | cons l ls ih =>
    simp only [lines_cons,List.length_cons,List.length_append,crlf]
    simp only [List.length_nil]
    omega

theorem append_lf_inj {u u' v v' : Bytes} (hu : 10 ∉ u) (hu' : 10 ∉ u')
    (h : u ++ 10::v = u' ++ 10::v') : u = u' ∧ v = v' := by
  induction u generalizing u' with
  | nil =>
    cases u' with
    | nil => exact ⟨rfl,by simpa using h⟩
    | cons c u' =>
      obtain ⟨rfl,-⟩ : 10 = c ∧ _ := by simpa using h
      simp at hu'
  | cons d u ih =>
    cases u' with
    | nil =>
      obtain ⟨rfl,-⟩ : d = 10 ∧ _ := by simpa using h
      simp at hu
    | cons c u' =>
      obtain ⟨rfl,ht⟩ : d = c ∧ u ++ 10::v = u' ++ 10::v' := by simpa using h
      rw [List.mem_cons,not_or] at hu hu'
      obtain ⟨rfl,rfl⟩ := ih hu.2 hu'.2 ht
      exact ⟨rfl,rfl⟩

theorem line_inj {l l' u u' : Bytes} (hl : 10 ∉ l) (hl' : 10 ∉ l')
    (h : l ++ crlf ++ u = l' ++ crlf ++ u') : l = l' ∧ u = u' := by
  have h' : (l ++ [13]) ++ 10::u = (l' ++ [13]) ++ 10::u' := by simpa [crlf] using h
  obtain ⟨h₁,h₂⟩ := append_lf_inj (by simpa using hl) (by simpa using hl') h'
  exact ⟨List.append_cancel_right h₁,h₂⟩

end Gabby.Http
