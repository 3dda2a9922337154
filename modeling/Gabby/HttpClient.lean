import Gabby.HttpGrammar
import Gabby.ServiceRequest

/-! The test client. What it writes is read back by the server: its method, its path, its
headers and its body. -/
namespace Gabby.Http

open Exec

namespace Client

/-- `UnbufferedClientSocket::Write`; the state is what has been written to the socket. -/
def write (data : Bytes) : Exec Bytes Exn Unit :=
  if data.isEmpty then pure () else Exec.modify (· ++ data)

def headerLine (key value : Bytes) : Bytes := key ++ ascii ": " ++ value ++ crlf

def writeHeader (key value : Bytes) : Exec Bytes Exn Unit := write (headerLine key value)

/-- The loop over the headers; every line is written twice. -/
def writeHeaders : Dict Bytes Bytes → Exec Bytes Exn Unit
  | [] => pure ()
  | (key,value)::headers => do
    writeHeader key value
    write (headerLine key value)
    writeHeaders headers

/-- One attempt of `http::Call`, up to the point where it reads the response. The order of
`headers` is the one in which the map is enumerated. -/
def call (method : Method) (path : Bytes) (headers : Dict Bytes Bytes) (data : Bytes) :
    Exec Bytes Exn Unit := do
  write (method.toString ++ ascii " " ++ path ++ ascii " HTTP/1.1\r\n")
  writeHeaders headers
  if !data.isEmpty then
    writeHeader (ascii "Content-Length") (decimal data.length)
    write (headerLine (ascii "Content-Length") (decimal data.length))
  write crlf
  if !data.isEmpty then write data

def sent (method : Method) (path : Bytes) (headers : Dict Bytes Bytes) (data : Bytes) : Bytes :=
  ((call method path headers data).run []).2

@[simp] theorem run_write (data s : Bytes) : (write data).run s = (.ok (),s ++ data) := by
  unfold write
  split
  · simp_all
  · rfl

def fieldLine (h : Bytes × Bytes) : Bytes := h.1 ++ ascii ": " ++ h.2

def fields (headers : Dict Bytes Bytes) (data : Bytes) : Dict Bytes Bytes :=
  headers.flatMap (fun h => [h,h]) ++
    if data.isEmpty then [] else List.replicate 2 (ascii "Content-Length",decimal data.length)

def requestLine (method : Method) (path : Bytes) : Bytes :=
  method.toString ++ ascii " " ++ path ++ ascii " HTTP/1.1"

theorem run_writeHeaders (headers : Dict Bytes Bytes) (s : Bytes) :
    (writeHeaders headers).run s =
      (.ok (),s ++ lines ((headers.flatMap fun h => [h,h]).map fieldLine)) := by
  induction headers generalizing s with
  | nil => simp [writeHeaders]
  | cons h headers ih =>
    rw [writeHeaders,writeHeader,run_bind_ok (run_write _ _),run_bind_ok (run_write _ _),ih]
    simp [headerLine,fieldLine]

theorem sent_eq (method : Method) (path : Bytes) (headers : Dict Bytes Bytes) (data : Bytes) :
    sent method path headers data =
      lines (requestLine method path :: (fields headers data).map fieldLine) ++ (crlf ++ data) := by
  have hcrlf : ascii " HTTP/1.1\r\n" = ascii " HTTP/1.1" ++ crlf := by decide
  rw [sent,call,run_bind_ok (run_write _ _),run_bind_ok (run_writeHeaders _ _)]
  by_cases hd : data = []
  · subst hd
    simp [run_bind,fields,requestLine,hcrlf]
  · simp [run_bind,fields,requestLine,hcrlf,hd,writeHeader,headerLine,fieldLine,lines]

/-! ## Reading back -/

theorem mem_fields {headers : Dict Bytes Bytes} {data : Bytes} {h : Bytes × Bytes}
    (hm : h ∈ fields headers data) :
    h ∈ headers ∨ h = (ascii "Content-Length",decimal data.length) := by
  rcases List.mem_append.mp hm with hm | hm
  · obtain ⟨h',hm,heq⟩ := List.mem_flatMap.mp hm
    obtain rfl : h = h' := by simpa using heq
    exact .inl hm
  · split at hm
    · simp at hm
    · exact .inr (List.eq_of_mem_replicate hm)

theorem find_fields {headers : Dict Bytes Bytes} (data : Bytes)
    (hcl : ∀ h ∈ headers, h.1 ≠ ascii "Content-Length") (k : Bytes) :
    (fields headers data).find k =
      if data ≠ [] ∧ k = ascii "Content-Length" then some (decimal data.length)
      else headers.find k := by
  have hnone : headers.find (ascii "Content-Length") = none := by
    rw [Dict.find_eq_none]
    intro hm
    obtain ⟨h,hm,heq⟩ := List.mem_map.mp hm
    exact hcl h hm heq
  rw [fields,Dict.find_append,Dict.find_flatMap_twice]
  by_cases hd : data = []
  · simp [hd]
  · by_cases hk : k = ascii "Content-Length"
    · subst hk
      simp [hd,hnone,List.replicate,Dict.find_cons]
    · simp [hd,hk,List.replicate,Dict.find_cons,Ne.symm hk]

theorem not_mem_decimal {c : UInt8} (hc : isdigit c = false) (n : ℕ) : c ∉ decimal n := by
  intro hm
  rw [List.all_eq_true.mp (isdigit_decimal n) c hm] at hc
  cases hc

/-- A key and a value that the server reads back from their line. -/
structure Sendable (h : Bytes × Bytes) : Prop where
  key : ¬ ascii ": " <:+: h.1 ∧ 10 ∉ h.1 ∧ 0 ∉ h.1
  value : 10 ∉ h.2 ∧ 0 ∉ h.2
  length_le : (fieldLine h).length ≤ 253

theorem Sendable.line {h : Bytes × Bytes} (hs : Sendable h) :
    LineText (fieldLine h) ∧ HeaderLine (fieldLine h) h := by
  obtain ⟨⟨hc,hl,hn⟩,⟨hl',hn'⟩,hlen⟩ := hs
  refine ⟨⟨?_,?_,hlen⟩,rfl,hc⟩ <;>
    simp only [fieldLine,List.mem_append,not_or] <;>
    exact ⟨⟨by assumption,by decide⟩,by assumption⟩

theorem sendable_contentLength {n : ℕ} (h : n < 2147483648) :
    Sendable (ascii "Content-Length",decimal n) := by
  have hkey : ¬ ascii ": " <:+: ascii "Content-Length" ∧ 10 ∉ ascii "Content-Length" ∧
      0 ∉ ascii "Content-Length" := by decide
  refine ⟨hkey,⟨not_mem_decimal (by decide) n,not_mem_decimal (by decide) n⟩,?_⟩
  have hlen : (decimal n).length ≤ 10 := (length_decimal_le (by decide)).mpr (by omega)
  have h₁ : (ascii "Content-Length" ++ ascii ": ").length = 16 := by decide
  rw [fieldLine,List.length_append,h₁]
  simp only
  omega

theorem headerLines_fields {hs : List (Bytes × Bytes)} (h : ∀ m ∈ hs, Sendable m) :
    HeaderLines (hs.map fieldLine) hs := by
  induction hs with
  | nil => exact .nil
  | cons m hs ih => exact .cons (h m (by simp)).line (ih fun m' hm' => h m' (by simp [hm']))

end Client

open Client in
theorem run_parseRequest_sent {f : Stream} (herr : f.err = false) (heof : f.eof = false)
    (method : Method) {path : Bytes} {headers : Dict Bytes Bytes} {data : Bytes}
    (hpath : ∀ c ∈ path, c ≠ 32 ∧ c ≠ 10 ∧ c ≠ 0)
    (hheaders : ∀ h ∈ headers, Sendable h ∧ h.1 ≠ ascii "Content-Length")
    (hline : (requestLine method path).length ≤ 253) (hdata : data.length < 2^31) :
    ∃ req, parseRequest.run (f.holding (sent method path headers data)) =
        (.ok req,f.holding data) ∧ req.method = method ∧ req.path = path ∧ req.headers.WF ∧
      (∀ k, req.headers.find k =
        if data ≠ [] ∧ k = ascii "Content-Length" then some (decimal data.length)
        else headers.find k) ∧
      (data ≠ [] → Service.getIntHeader req (ascii "Content-Length") = .ok (data.length : ℤ)) := by
  have hdata' : data.length < 2147483648 := lt_of_lt_of_le hdata (by norm_num)
  have hfields : ∀ h ∈ fields headers data, Sendable h := by
    intro h hm
    rcases mem_fields hm with hm | rfl
    · exact (hheaders h hm).1
    · exact sendable_contentLength hdata'
  have htext : LineText (requestLine method path) := by
    refine ⟨?_,?_,hline⟩ <;>
      simp only [requestLine,List.mem_append,not_or] <;>
      refine ⟨⟨⟨by cases method <;> decide,by decide⟩,fun h => ?_⟩,by decide⟩
    · exact (hpath _ h).2.1 rfl
    · exact (hpath _ h).2.2 rfl
  have hreq : RequestLine (requestLine method path) method path :=
    ⟨ascii "HTTP/1.1",by simp [requestLine,ascii,chr],fun h => (hpath _ h).1 rfl⟩
  have hfind : ∀ k, Dict.find k (Dict.insertAll [] (fields headers data)) =
      if data ≠ [] ∧ k = ascii "Content-Length" then some (decimal data.length)
      else headers.find k := by
    intro k
    rw [Dict.find_insertAll,← find_fields data (fun h hm => (hheaders h hm).2)]
    simp
  refine ⟨⟨method,path,Dict.insertAll [] (fields headers data)⟩,?_,rfl,rfl,
    Dict.wf_insertAll (by simp [Dict.WF,Dict.keys]) _,hfind,?_⟩
  · rw [sent_eq]
    exact run_parseRequest_ok herr heof htext hreq (headerLines_fields hfields) data
  · intro hd
    have := hfind (ascii "Content-Length")
    rw [if_pos ⟨hd,rfl⟩] at this
    exact Service.getIntHeader_eq_ok this (stoi_decimal hdata')

open Client in
/-- What the client sends, the server reads. -/
theorem parseRequest_sent (method : Method) (path : Bytes) (headers : Dict Bytes Bytes)
    (data : Bytes) (hpath : ∀ c ∈ path, c ≠ 32 ∧ c ≠ 10 ∧ c ≠ 0)
    (hheaders : ∀ h ∈ headers, Sendable h ∧ h.1 ≠ ascii "Content-Length")
    (hline : (requestLine method path).length ≤ 253) (hdata : data.length < 2^31) :
    ∃ req, parseRequest.run (.ofBytes (sent method path headers data)) =
        (.ok req,.ofBytes data) ∧ req.method = method ∧ req.path = path ∧ req.headers.WF ∧
      (∀ k, req.headers.find k =
        if data ≠ [] ∧ k = ascii "Content-Length" then some (decimal data.length)
        else headers.find k) ∧
      (data ≠ [] → Service.getIntHeader req (ascii "Content-Length") = .ok (data.length : ℤ)) :=
  run_parseRequest_sent (f:=Stream.ofInput [] .eof) rfl rfl method hpath hheaders hline hdata

open Client in
theorem parseRequest_sent_post : ∃ req,
    parseRequest.run (.ofBytes (sent .post (ascii "/x") [(ascii "a:",ascii "b: c")]
      (ascii "hi"))) = (.ok req,.ofBytes (ascii "hi")) ∧
    req.method = .post ∧ req.path = ascii "/x" ∧ req.headers.WF ∧
    (∀ k, req.headers.find k =
      if ascii "hi" ≠ [] ∧ k = ascii "Content-Length" then some (decimal (ascii "hi").length)
      else Dict.find k [(ascii "a:",ascii "b: c")]) ∧
    (ascii "hi" ≠ [] → Service.getIntHeader req (ascii "Content-Length") =
      .ok ((ascii "hi").length : ℤ)) :=
  parseRequest_sent .post (ascii "/x") [(ascii "a:",ascii "b: c")] (ascii "hi") (by decide +kernel)
    (List.forall_mem_singleton.mpr ⟨⟨by decide +kernel,by decide +kernel,by decide +kernel⟩,
      by decide +kernel⟩) (by decide +kernel) (by decide +kernel)

end Gabby.Http
