import Gabby.HttpLines
import Mathlib.Data.List.Forall2

/-! The grammar of request heads: which bytes are accepted, what they mean, and which inputs
make the assertion in `ReadLine` fail. -/
namespace Gabby.Http

open Exec

/-! ## Request lines and header lines -/

/-- A method, a path without spaces and anything else. -/
def RequestLine (line : Bytes) (method : Method) (path : Bytes) : Prop :=
  ∃ version, line = method.toString ++ 32::path ++ 32::version ∧ 32 ∉ path

/-- A name, the first `": "` of the line and a value. -/
def HeaderLine (line : Bytes) (h : Bytes × Bytes) : Prop :=
  line = h.1 ++ ascii ": " ++ h.2 ∧ ¬ ascii ": " <:+: h.1

theorem ascii_space : ascii " " = [32] := by decide
theorem ascii_colon : ascii ": " = [58,32] := by decide

theorem not_mem_method (m : Method) : 32 ∉ m.toString := by cases m <;> decide

theorem RequestLine.ne_nil {line path : Bytes} {method : Method}
    (h : RequestLine line method path) : line ≠ [] := by
  obtain ⟨version,rfl,-⟩ := h
  simp

theorem parseMethod_eq_ok (method : Method) (w : Bytes) :
    parseMethod (method.toString ++ 32::w) = .ok method := by
  simp only [parseMethod,ascii_space,find_singleton (not_mem_method method),toInt]
  cases method <;> simp [Method.toString,ascii,chr]

theorem parsePath_eq_ok {u path : Bytes} (hu : 32 ∉ u) (hp : 32 ∉ path) (version : Bytes) :
    parsePath (u ++ 32::path ++ 32::version) = .ok path := by
  have h₁ : find [32] (u ++ 32::path ++ 32::version) = some u.length := by
    rw [List.append_assoc]
    exact find_singleton hu
  have hd : (u ++ 32::path ++ 32::version).drop (u.length+1) = path ++ 32::version := by
    rw [← List.drop_drop,List.append_assoc,List.drop_left]
    simp
  have h₂ : findFrom [32] (u ++ 32::path ++ 32::version) (u.length+1) =
      some (path.length + (u.length+1)) := by
    rw [findFrom,if_pos (by simp),hd,find_singleton hp]
    rfl
  have hto : ((u.length : ℤ) + 1).toNat = u.length + 1 := by omega
  simp only [parsePath,ascii_space,h₁,toInt,hto,h₂,Int.toNat_natCast]
  rw [if_neg (by omega),List.drop_take,hd]
  simp

/-- A request line gives its method and path; from any other line one of the two is missing. -/
theorem RequestLine.parse {line path : Bytes} {method : Method}
    (h : RequestLine line method path) :
    parseMethod line = .ok method ∧ parsePath line = .ok path := by
  obtain ⟨version,rfl,hp⟩ := h
  refine ⟨?_,parsePath_eq_ok (not_mem_method method) hp version⟩
  rw [List.append_assoc]
  exact parseMethod_eq_ok method _

theorem parseMethod_cases (line : Bytes) :
    (∃ (method : Method) (w : Bytes), line = method.toString ++ 32::w) ∨
    ∃ m, parseMethod line = .error (.badRequestException m) := by
  simp only [parseMethod,ascii_space]
  cases h : find [32] line with
  | none => exact .inr ⟨_,rfl⟩
  | some i =>
    obtain ⟨hs,-,-⟩ := find_split (by simp) h
    simp only [List.append_assoc,List.singleton_append] at hs
    have hto : (toInt (some i)).toNat = i := rfl
    rw [if_neg (by simp),hto]
    split
    · rename_i hm
      exact .inl ⟨.get,_,hm ▸ hs⟩
    split
    · rename_i hm
      exact .inl ⟨.post,_,hm ▸ hs⟩
    · exact .inr ⟨_,rfl⟩

theorem parsePath_cases {u : Bytes} (hu : 32 ∉ u) (w : Bytes) :
    (∃ path version, w = path ++ 32::version ∧ 32 ∉ path) ∨
      ∃ m, parsePath (u ++ 32::w) = .error (.badRequestException m) := by
  by_cases h : 32 ∈ w
  · obtain ⟨path,version,hw,hp⟩ := List.eq_append_cons_of_mem h
    exact .inl ⟨path,version,hw,hp⟩
  · have hto : ((u.length : ℤ) + 1).toNat = u.length + 1 := by omega
    have hd : (u ++ 32::w).drop (u.length+1) = w := by
      rw [← List.drop_drop,List.drop_left]
      simp
    have hn : find [32] w = none := by
      rw [find_eq_none,List.singleton_infix_iff]
      exact h
    simp only [parsePath,ascii_space,find_singleton hu,toInt,hto,findFrom,hd,hn]
    rw [if_pos (by simp)]
    exact .inr ⟨_,rfl⟩

theorem not_infix_colon {k : Bytes} (h : ¬ ascii ": " <:+: k) : ¬ ascii ": " <:+: k ++ [58] := by
  rw [List.infix_concat_iff,not_or]
  refine ⟨?_,h⟩
  rintro ⟨w,hw⟩
  have := congrArg List.getLast? hw
  simp [ascii_colon] at this

theorem HeaderLine.parse {line : Bytes} {h : Bytes × Bytes} (hl : HeaderLine line h) :
    parseHeader line = .ok h := by
  obtain ⟨rfl,hk⟩ := hl
  have hf : find (ascii ": ") (h.1 ++ ascii ": " ++ h.2) = some h.1.length :=
    find_append (by simp [ascii_colon]) (not_infix_colon hk) h.2
  have hto : ((h.1.length : ℤ) + 2).toNat = h.1.length + 2 := by omega
  simp only [parseHeader,hf,toInt,Int.toNat_natCast,hto]
  rw [if_neg (by omega)]
  have hd : (h.1 ++ ascii ": " ++ h.2).drop (h.1.length + 2) = h.2 := by simp [ascii_colon]
  rw [hd,List.append_assoc,List.take_left]

/-- A header line without `": "` is rejected; every other has a name and a value. -/
theorem parseHeader_cases (line : Bytes) : (∃ h, HeaderLine line h) ∨
    (¬ ascii ": " <:+: line ∧ ∃ m, parseHeader line = .error (.badRequestException m)) := by
  cases hf : find (ascii ": ") line with
  | none =>
    refine .inr ⟨find_eq_none.mp hf,?_⟩
    simp [parseHeader,hf,toInt]
  | some i =>
    obtain ⟨hs,-,hn⟩ := find_split (by simp [ascii_colon]) hf
    exact .inl ⟨(_,_),hs,hn⟩

theorem HeaderLine.ne_nil {line : Bytes} {h : Bytes × Bytes} (hl : HeaderLine line h) :
    line ≠ [] := by
  rintro rfl
  simpa [ascii_colon] using hl.1

theorem HeaderLine.has_colon {line : Bytes} {h : Bytes × Bytes} (hl : HeaderLine line h) :
    ascii ": " <:+: line :=
  ⟨h.1,h.2,hl.1.symm⟩

/-! ## Header sections -/

def HeaderLines (ls : List Bytes) (hs : List (Bytes × Bytes)) : Prop :=
  List.Forall₂ (fun l h => LineText l ∧ HeaderLine l h) ls hs

/-- Any bytes begin with as many header lines as possible. -/
theorem exists_headerLines (b : Bytes) : ∃ ls hs c, b = lines ls ++ c ∧ HeaderLines ls hs ∧
    ¬ ∃ l h c', c = l ++ crlf ++ c' ∧ LineText l ∧ HeaderLine l h := by
  by_cases hb : ∃ l h c', b = l ++ crlf ++ c' ∧ LineText l ∧ HeaderLine l h
  · obtain ⟨l,h,c',rfl,hl,hh⟩ := hb
    obtain ⟨ls,hs,c,hc,hls,hmax⟩ := exists_headerLines c'
    exact ⟨l::ls,h::hs,c,by simp [hc],.cons ⟨hl,hh⟩ hls,hmax⟩
  · exact ⟨[],[],b,rfl,.nil,hb⟩
termination_by b.length
decreasing_by
  subst_vars
  simp [crlf]
  omega

section Loop

variable {f : Stream} (herr : f.err = false) (heof : f.eof = false)
include herr heof

theorem run_iterate_headers {ls : List Bytes} {hs : List (Bytes × Bytes)} (h : HeaderLines ls hs)
    (d : Dict Bytes Bytes) (n : ℕ) (c : Bytes) :
    (iterate readHeader (ls.length+n) d).run (f.holding (lines ls ++ c)) =
      (iterate readHeader n (d.insertAll hs)).run (f.holding c) := by
  induction h generalizing d with
  | nil => simp
  | @cons l h ls hs hl _ ih =>
    have hround : (readHeader d).run (f.holding (lines (l::ls) ++ c)) =
        (.ok (.inl (d.insert h.1 h.2)),f.holding (lines ls ++ c)) := by
      rw [lines_cons,List.append_assoc,readHeader,run_bind_ok (run_readLine herr heof hl.1 _)]
      rw [if_neg (by simpa using hl.2.ne_nil),hl.2.parse]
      rfl
    rw [List.length_cons,Nat.add_right_comm,run_iterate_inl hround,ih,Dict.insertAll_cons]

/-- The loop gets through the header lines to what follows them. -/
theorem run_readHeaders {ls : List Bytes} {hs : List (Bytes × Bytes)} (h : HeaderLines ls hs)
    (d : Dict Bytes Bytes) (c : Bytes) :
    ∃ n, (readHeaders d).run (f.holding (lines ls ++ c)) =
      (iterate readHeader (n+1) (d.insertAll hs)).run (f.holding c) := by
  refine ⟨(lines ls ++ c).length - ls.length,?_⟩
  have hle : ls.length ≤ (lines ls ++ c).length := by
    have := length_le_length_lines ls
    simp only [List.length_append]
    omega
  rw [← run_iterate_headers herr heof h,readHeaders,run_loop]
  simp only [Stream.holding_pending,List.length_map]
  congr 2
  omega

theorem run_readHeaders_ok {ls : List Bytes} {hs : List (Bytes × Bytes)} (h : HeaderLines ls hs)
    (d : Dict Bytes Bytes) (rest : Bytes) :
    (readHeaders d).run (f.holding (lines ls ++ (crlf ++ rest))) =
      (.ok (d.insertAll hs),f.holding rest) := by
  obtain ⟨n,hn⟩ := run_readHeaders herr heof h d (crlf ++ rest)
  have hline : readLine.run (f.holding (crlf ++ rest)) = (.ok [],f.holding rest) :=
    run_readLine herr heof (⟨by simp,by simp,by simp⟩ : LineText []) rest
  have hround : (readHeader (d.insertAll hs)).run (f.holding (crlf ++ rest)) =
      (.ok (.inr (d.insertAll hs)),f.holding rest) := by
    rw [readHeader,run_bind_ok hline]
    rfl
  rw [hn,run_iterate_inr hround]

theorem run_readHeaders_nul {ls : List Bytes} {hs : List (Bytes × Bytes)} (h : HeaderLines ls hs)
    (d : Dict Bytes Bytes) {c : Bytes} (hc : NulChunk c) :
    ∃ s, (readHeaders d).run (f.holding (lines ls ++ c)) = (.error .assertion,s) := by
  obtain ⟨n,hn⟩ := run_readHeaders herr heof h d c
  obtain ⟨s,hs⟩ := run_readLine_nul herr heof hc
  exact ⟨s,by rw [hn,run_iterate_error (run_bind_error hs)]⟩

theorem readHeaders_cases (d : Dict Bytes Bytes) (b : Bytes) :
    (∃ ls hs rest, b = lines ls ++ (crlf ++ rest) ∧ HeaderLines ls hs) ∨
      (∃ ls hs c, b = lines ls ++ c ∧ HeaderLines ls hs ∧ NulChunk c) ∨
      ∃ x s, (readHeaders d).run (f.holding b) = (.error (.throw x),s) ∧ x.status.isSome ∧
        (f.ending = .eof → ∃ w, x = .badRequestException w) := by
  obtain ⟨ls,hs,c,rfl,hls,hmax⟩ := exists_headerLines b
  obtain ⟨n,hn⟩ := run_readHeaders herr heof hls d c
  rcases readLine_cases herr heof c with ⟨line,rest,rfl,hline⟩ | ⟨hc,-⟩ | ⟨x,s,hx,hst,hw⟩
  · rcases parseHeader_cases line with ⟨h,hh⟩ | ⟨-,m,hm⟩
    · exact absurd ⟨line,h,rest,rfl,hline,hh⟩ hmax
    · by_cases hnil : line = []
      · subst hnil
        exact .inl ⟨ls,hs,rest,rfl,hls⟩
      · have hround : (readHeader (d.insertAll hs)).run (f.holding (line ++ crlf ++ rest)) =
            (.error (.throw (.badRequestException m)),f.holding rest) := by
          rw [readHeader,run_bind_ok (run_readLine herr heof hline rest)]
          rw [if_neg (by simpa using hnil),hm]
          rfl
        exact .inr (.inr ⟨_,_,by rw [hn,run_iterate_error hround],rfl,fun _ => ⟨m,rfl⟩⟩)
  · exact .inr (.inl ⟨ls,hs,c,rfl,hls,hc⟩)
  · exact .inr (.inr ⟨x,s,by rw [hn,run_iterate_error (run_bind_error hx)],hst,hw⟩)

end Loop

/-! ## Request heads -/

theorem requestLine_cases (line : Bytes) : (∃ method path, RequestLine line method path) ∨
    (∃ m, parseMethod line = .error (.badRequestException m)) ∨
    ∃ method m, parseMethod line = .ok method ∧
      parsePath line = .error (.badRequestException m) := by
  rcases parseMethod_cases line with ⟨method,w,rfl⟩ | hm
  · rcases parsePath_cases (not_mem_method method) w with ⟨path,version,rfl,hp⟩ | ⟨m,hm⟩
    · exact .inl ⟨method,path,version,by simp,hp⟩
    · exact .inr (.inr ⟨method,m,parseMethod_eq_ok method w,hm⟩)
  · exact .inr (.inl hm)

def HeadLines : List Bytes → Prop
  | [] => True
  | l::ls => (LineText l ∧ ∃ method path, RequestLine l method path) ∧
    ∀ l' ∈ ls, LineText l' ∧ ascii ": " <:+: l'

/-- Where the head is read up to a chunk that starts with a NUL, the process aborts. -/
def Aborts (b : Bytes) : Prop := ∃ ls c, b = lines ls ++ c ∧ HeadLines ls ∧ NulChunk c

theorem exists_fields {ls : List Bytes} (h : ∀ l ∈ ls, LineText l ∧ ascii ": " <:+: l) :
    ∃ hs, HeaderLines ls hs := by
  induction ls with
  | nil => exact ⟨[],.nil⟩
  | cons l ls ih =>
    obtain ⟨hs,hls⟩ := ih fun l' hl' => h l' (by simp [hl'])
    obtain ⟨hl,hc⟩ := h l (by simp)
    rcases parseHeader_cases l with ⟨hd,hh⟩ | ⟨hn,-⟩
    · exact ⟨hd::hs,.cons ⟨hl,hh⟩ hls⟩
    · exact absurd hc hn

theorem HeaderLines.forall {ls : List Bytes} {hs : List (Bytes × Bytes)}
    (h : HeaderLines ls hs) : ∀ l ∈ ls, LineText l ∧ ascii ": " <:+: l := by
  induction h with
  | nil => simp
  | cons hl _ ih =>
    intro l' hl'
    rcases List.mem_cons.mp hl' with rfl | hl'
    · exact ⟨hl.1,hl.2.has_colon⟩
    · exact ih l' hl'

section ParseRequest

variable {f : Stream} (herr : f.err = false) (heof : f.eof = false)
include herr heof

theorem run_parseRequest_first {l path : Bytes} {method : Method} (hl : LineText l)
    (hr : RequestLine l method path) (c : Bytes) :
    parseRequest.run (f.holding (l ++ crlf ++ c)) =
      (readHeaders [] >>= fun headers => pure ⟨method,path,headers⟩).run (f.holding c) := by
  rw [parseRequest,run_bind_ok (run_readLine herr heof hl c)]
  rw [if_neg (by simpa using hr.ne_nil),hr.parse.1,hr.parse.2]
  rfl

theorem run_parseRequest_reject {l : Bytes} (hl : LineText l)
    (hr : ¬ ∃ method path, RequestLine l method path) (c : Bytes) :
    ∃ m, parseRequest.run (f.holding (l ++ crlf ++ c)) =
      (.error (.throw (.badRequestException m)),f.holding c) := by
  rw [parseRequest,run_bind_ok (run_readLine herr heof hl c)]
  split
  · exact ⟨_,run_throw _ _⟩
  rcases requestLine_cases l with hr' | ⟨m,hm⟩ | ⟨method,m,hm,hp⟩
  · exact absurd hr' hr
  · rw [hm]
    exact ⟨m,rfl⟩
  · rw [hm,hp]
    exact ⟨m,rfl⟩

theorem run_parseRequest_ok {l path : Bytes} {method : Method} {ls : List Bytes}
    {hs : List (Bytes × Bytes)} (hl : LineText l) (hr : RequestLine l method path)
    (h : HeaderLines ls hs) (rest : Bytes) :
    parseRequest.run (f.holding (lines (l::ls) ++ (crlf ++ rest))) =
      (.ok ⟨method,path,Dict.insertAll [] hs⟩,f.holding rest) := by
  rw [lines_cons,List.append_assoc _ (lines ls),run_parseRequest_first herr heof hl hr]
  rw [run_bind_ok (run_readHeaders_ok herr heof h [] rest),run_pure]

theorem run_parseRequest_nul {b : Bytes} (h : Aborts b) :
    ∃ s, parseRequest.run (f.holding b) = (.error .assertion,s) := by
  obtain ⟨ls,c,rfl,hls,hc⟩ := h
  cases ls with
  | nil =>
    obtain ⟨s,hs⟩ := run_readLine_nul herr heof hc
    exact ⟨s,run_bind_error hs⟩
  | cons l ls =>
    obtain ⟨⟨hl,method,path,hr⟩,hls⟩ := hls
    obtain ⟨hs,hls⟩ := exists_fields hls
    obtain ⟨s,hs⟩ := run_readHeaders_nul herr heof hls [] hc
    refine ⟨s,?_⟩
    rw [lines_cons,List.append_assoc _ (lines ls),run_parseRequest_first herr heof hl hr]
    exact run_bind_error hs

theorem parseRequest_cases (b : Bytes) :
    (∃ l method path ls hs rest, b = lines (l::ls) ++ (crlf ++ rest) ∧ LineText l ∧
      RequestLine l method path ∧ HeaderLines ls hs) ∨ Aborts b ∨
      ∃ x s, parseRequest.run (f.holding b) = (.error (.throw x),s) ∧ x.status.isSome ∧
        (f.ending = .eof → ∃ w, x = .badRequestException w) := by
  rcases readLine_cases herr heof b with ⟨l,c,rfl,hl⟩ | ⟨hb,-⟩ | ⟨x,s,hx,hst,hw⟩
  · have hread := run_readLine herr heof hl c
    by_cases hl' : ∃ method path, RequestLine l method path
    · obtain ⟨method,path,hr⟩ := hl'
      rcases readHeaders_cases herr heof [] c with
        ⟨ls,hs,rest,rfl,h⟩ | ⟨ls,hs,c,rfl,h,hc⟩ | ⟨x,s,hx,hst,hw⟩
      · exact .inl ⟨l,method,path,ls,hs,rest,by simp,hl,hr,h⟩
      · exact .inr (.inl ⟨l::ls,c,by simp,⟨⟨hl,method,path,hr⟩,h.forall⟩,hc⟩)
      · refine .inr (.inr ⟨x,s,?_,hst,hw⟩)
        rw [run_parseRequest_first herr heof hl hr]
        exact run_bind_error hx
    · obtain ⟨m,hm⟩ := run_parseRequest_reject herr heof hl hl' c
      exact .inr (.inr ⟨_,_,hm,rfl,fun _ => ⟨m,rfl⟩⟩)
  · exact .inr (.inl ⟨[],b,rfl,trivial,hb⟩)
  · exact .inr (.inr ⟨x,s,run_bind_error hx,hst,hw⟩)

end ParseRequest

/-- On a stream of bytes a request leaves a stream of bytes. -/
theorem parseRequest_holding {f : Stream} (herr : f.err = false) (heof : f.eof = false)
    (hend : f.ending = .eof) {b : Bytes} (h : ¬ Aborts b) :
    (∃ req rest, parseRequest.run (f.holding b) = (.ok req,f.holding rest)) ∨
      ∃ m s, parseRequest.run (f.holding b) = (.error (.throw (.badRequestException m)),s) := by
  rcases parseRequest_cases herr heof b with
    ⟨l,method,path,ls,hs,rest,rfl,hl,hr,hls⟩ | hb | ⟨x,s,hx,-,hw⟩
  · exact .inl ⟨_,rest,run_parseRequest_ok herr heof hl hr hls rest⟩
  · exact absurd hb h
  · obtain ⟨m,rfl⟩ := hw hend
    exact .inr ⟨m,s,hx⟩

/-! ### Heads without NUL -/

/-- An empty line: a line feed at the start of a line, with at most a carriage return before. -/
def HasEmptyLine (u : Bytes) : Prop :=
  ∃ p q, u = p ++ q ∧ (p = [] ∨ ∃ p', p = p' ++ [10]) ∧ ∃ q', q = crlf ++ q' ∨ q = 10::q'

/-- Before every NUL there is an empty line. -/
def NoNulInHead (b : Bytes) : Prop := ∀ u w, b = u ++ 0::w → HasEmptyLine u

/-- What follows a line feed within lines is lines. -/
theorem lines_suffix {ls : List Bytes} (hls : ∀ l ∈ ls, l ≠ [] ∧ 10 ∉ l) {p q : Bytes}
    (h : lines ls = p ++ q) (hp : p = [] ∨ ∃ p', p = p' ++ [10]) :
    ∃ ls', q = lines ls' ∧ ∀ l ∈ ls', l ≠ [] ∧ 10 ∉ l := by
  induction ls generalizing p with
  | nil =>
    obtain ⟨rfl,rfl⟩ : p = [] ∧ q = [] := by simpa using h
    exact ⟨[],rfl,by simp⟩
  | cons l ls ih =>
    rcases hp with rfl | ⟨p',rfl⟩
    · exact ⟨l::ls,by simpa using h.symm,hls⟩
    rw [lines_cons] at h
    rcases List.append_eq_append_iff.mp h with ⟨a,ha,hq⟩ | ⟨a,ha,hq⟩
    · refine ih (fun l' hl' => hls l' (by simp [hl'])) hq ?_
      rcases List.eq_nil_or_concat' a with rfl | ⟨a,c,rfl⟩
      · exact .inl rfl
      · refine .inr ⟨a,?_⟩
        have := congrArg List.getLast? ha
        simp at this
        rw [this]
    · rcases List.eq_nil_or_concat' a with rfl | ⟨a,c,rfl⟩
      · exact ⟨ls,hq,fun l' hl' => hls l' (by simp [hl'])⟩
      · have hl : l ++ [13] = p' ++ [10] ++ a := by
          have := congrArg List.dropLast ha
          rw [← List.append_assoc _ a,List.dropLast_concat,crlf] at this
          rw [← this,List.dropLast_append_of_ne_nil (by simp)]
          rfl
        have hmem : (10 : UInt8) ∈ l ++ [13] := by
          rw [hl]
          simp
        exact absurd (by simpa using hmem) (hls l (by simp)).2

theorem not_aborts {b : Bytes} (h : NoNulInHead b) : ¬ Aborts b := by
  rintro ⟨ls,c,rfl,hls,t,rfl,-⟩
  obtain ⟨p,q,hu,hp,q',hq⟩ := h (lines ls) t rfl
  have hls' : ∀ l ∈ ls, l ≠ [] ∧ 10 ∉ l := by
    cases ls with
    | nil => simp
    | cons l ls =>
      obtain ⟨⟨hl,method,path,hr⟩,hls⟩ := hls
      refine List.forall_mem_cons.mpr ⟨⟨hr.ne_nil,hl.no_lf⟩,fun l' hl' => ⟨?_,(hls l' hl').1.no_lf⟩⟩
      rintro rfl
      simpa [ascii_colon] using (hls [] hl').2
  obtain ⟨ls',rfl,hls'⟩ := lines_suffix hls' hu hp
  cases ls' with
  | nil => simp [crlf] at hq
  | cons l ls' =>
    obtain ⟨hne,hlf⟩ := hls' l (by simp)
    obtain ⟨c,l,rfl⟩ := List.exists_cons_of_ne_nil hne
    rw [lines_cons] at hq
    simp only [crlf,List.cons_append,List.nil_append,List.append_assoc,List.cons.injEq] at hq
    rcases hq with ⟨rfl,hq⟩ | ⟨rfl,-⟩
    · cases l with
      | nil => simp at hq
      | cons d l =>
        obtain ⟨rfl,-⟩ : d = 10 ∧ _ := by simpa using hq
        exact hlf (by simp)
    · exact hlf (by simp)

def Answered : Except (Stop Exn) Request → Prop
  | .ok _ => True
  | .error (.throw x) => x.status.isSome
  | .error _ => False

/-- Reading a request never aborts the server but where a NUL starts a chunk of the head. -/
theorem parseRequest_answered (b : Bytes) (ending : Ending) :
    Answered (parseRequest.run (.ofInput (b.map .byte) ending)).1 ↔ ¬ Aborts b := by
  have hrun : Stream.ofInput (b.map .byte) ending = (Stream.ofInput [] ending).holding b := rfl
  rw [hrun]
  constructor
  · intro h hb
    obtain ⟨s,hs⟩ := run_parseRequest_nul (f:=Stream.ofInput [] ending) rfl rfl hb
    rw [hs] at h
    exact h
  · intro h
    rcases parseRequest_cases (f:=Stream.ofInput [] ending) rfl rfl b with
      ⟨l,method,path,ls,hs,rest,rfl,hl,hr,hls⟩ | hb | ⟨x,s,hx,hst,-⟩
    · rw [run_parseRequest_ok rfl rfl hl hr hls rest]
      trivial
    · exact absurd hb h
    · rw [hx]
      exact hst

theorem parseRequest_answered_nul :
    ¬ Answered (parseRequest.run (.ofInput ([0,10].map .byte) .eof)).1 := by
  intro h
  exact (parseRequest_answered [0,10] .eof).mp h
    ⟨[],[0,10],rfl,trivial,[10],rfl,.inl (by decide)⟩

/-- `L0 CRLF L1 CRLF … CRLF rest`. -/
structure Accepted (b l : Bytes) (ls : List Bytes) (rest : Bytes) : Prop where
  text : b = lines (l::ls) ++ crlf ++ rest
  line : ∀ l' ∈ l::ls, l' ≠ [] ∧ 10 ∉ l' ∧ l'.length ≤ 253
  header : ∀ l' ∈ ls, ascii ": " <:+: l'

/-- The request heads that are accepted, and what is taken from them. -/
theorem parseRequest_grammar {b : Bytes} (h : 0 ∉ b) :
    (∀ l ls rest method path, Accepted b l ls rest → RequestLine l method path →
      ∃ headers hs, parseRequest.run (.ofBytes b) = (.ok ⟨method,path,headers⟩,.ofBytes rest) ∧
        List.Forall₂ HeaderLine ls hs ∧ headers.WF ∧ ∀ k, headers.find k = Dict.find k hs) ∧
    ((¬ ∃ l ls rest method path, Accepted b l ls rest ∧ RequestLine l method path) →
      ∃ m s, parseRequest.run (.ofBytes b) = (.error (.throw (.badRequestException m)),s)) := by
  have hof (b : Bytes) : Stream.ofBytes b = (Stream.ofInput [] .eof).holding b := rfl
  simp only [hof]
  constructor
  · intro l ls rest method path ha hr
    have htext : ∀ l' ∈ l::ls, LineText l' := by
      intro l' hl'
      refine ⟨(ha.line l' hl').2.1,fun h0 => h ?_,(ha.line l' hl').2.2⟩
      rw [ha.text]
      simp only [List.mem_append,lines,List.mem_flatten,List.mem_map]
      exact .inl (.inl ⟨l' ++ crlf,⟨l',hl',rfl⟩,by simp [h0]⟩)
    obtain ⟨hs,hls⟩ := exists_fields fun l' hl' => ⟨htext l' (by simp [hl']),ha.header l' hl'⟩
    refine ⟨Dict.insertAll [] hs,hs,?_,hls.imp fun _ _ h => h.2,
      Dict.wf_insertAll (by simp [Dict.WF,Dict.keys]) hs,?_⟩
    · rw [ha.text,List.append_assoc]
      exact run_parseRequest_ok rfl rfl (htext l (by simp)) hr hls rest
    · intro k
      rw [Dict.find_insertAll]
      simp
  · intro hn
    rcases parseRequest_cases (f:=Stream.ofInput [] .eof) rfl rfl b with
      ⟨l,method,path,ls,hs,rest,rfl,hl,hr,hls⟩ | ⟨ls,c,rfl,-,t,rfl,-⟩ | ⟨x,s,hx,-,hw⟩
    · refine absurd ⟨l,ls,rest,method,path,⟨by simp,?_,fun l' hl' => (hls.forall l' hl').2⟩,hr⟩ hn
      intro l' hl'
      rcases List.mem_cons.mp hl' with rfl | hl'
      · exact ⟨hr.ne_nil,hl.no_lf,hl.length_le⟩
      · obtain ⟨ht,hc⟩ := hls.forall l' hl'
        refine ⟨?_,ht.no_lf,ht.length_le⟩
        rintro rfl
        simp [ascii_colon] at hc
    · simp at h
    · obtain ⟨w,rfl⟩ := hw rfl
      exact ⟨w,s,hx⟩

theorem parseRequest_grammar_get : ∃ headers hs,
    parseRequest.run (.ofBytes (ascii "GET / V\r\nA: b\r\n\r\nxyz")) =
      (.ok ⟨.get,ascii "/",headers⟩,.ofBytes (ascii "xyz")) ∧
    List.Forall₂ HeaderLine [ascii "A: b"] hs ∧ headers.WF ∧
    ∀ k, headers.find k = Dict.find k hs :=
  (parseRequest_grammar (by decide)).1 (ascii "GET / V") [ascii "A: b"] (ascii "xyz") .get
    (ascii "/") ⟨by decide,by decide,by decide⟩ ⟨ascii "V",by decide,by decide⟩

end Gabby.Http
