import Gabby.Bytes

/-! A C stream over a socket. The peer's bytes arrive in order; in between, and after the
last of them, a read may fail with an error number. Writes may be cut short. Input and output
share one buffer, and output that follows unread input in it cannot be flushed. -/
namespace Gabby

/-- `EAGAIN`, the error of a read or write that timed out, equals `EWOULDBLOCK` on Linux. -/
def EAGAIN : ℕ := 11

/-- What one read meets: a byte of the peer, or a failure after which reading goes on. -/
inductive Input
  | byte (b : UInt8) | fail (errno : ℕ)
  deriving DecidableEq

/-- What every read meets after the last input: end of file, or a failure each time. -/
inductive Ending
  | eof | fail (errno : ℕ)
  deriving DecidableEq

/-- How many bytes one `fwrite` accepts at most, and `errno` when that is too few. -/
structure WriteResult where
  count : ℕ
  errno : ℕ
  deriving DecidableEq

/-- A `FILE` open for reading and writing. `pending` and `ending` are what the program still
reads, `plan` what the next writes meet (past its end they succeed), `sent` the bytes that
each write accepted, `delivered` what has left the buffer. `reads` tells where the reads of the
descriptor end: each number counts the inputs that come after one. Every read also ends before
a failure and at the end of the input. -/
structure Stream where
  pending : List Input
  ending : Ending
  err : Bool
  eof : Bool
  errno : ℕ
  plan : List WriteResult
  sent : List Bytes
  reads : List ℕ
  delivered : Bytes
  deriving DecidableEq

namespace Stream

def ofInput (pending : List Input) (ending : Ending) : Stream :=
  ⟨pending,ending,false,false,0,[],[],[],[]⟩

def ofBytes (bytes : Bytes) : Stream := ofInput (bytes.map Input.byte) .eof

def cutAt (s : Stream) (reads : List ℕ) : Stream := { s with reads := reads }

def ends : List Bytes → List ℕ
  | [] => []
  | _::chunks => chunks.flatten.length :: ends chunks

/-- A peer whose bytes are brought in chunk by chunk. -/
def ofReads (chunks : List Bytes) : Stream := (ofBytes chunks.flatten).cutAt (ends chunks)

def bytesOf : List Input → Bytes
  | [] => []
  | .byte b :: l => b :: bytesOf l
  | .fail _ :: l => bytesOf l

@[simp] theorem bytesOf_nil : bytesOf [] = [] := rfl
@[simp] theorem bytesOf_byte (b : UInt8) (l : List Input) :
    bytesOf (.byte b :: l) = b :: bytesOf l := rfl
@[simp] theorem bytesOf_fail (e : ℕ) (l : List Input) : bytesOf (.fail e :: l) = bytesOf l := rfl
@[simp] theorem bytesOf_append (l l' : List Input) :
    bytesOf (l ++ l') = bytesOf l ++ bytesOf l' := by
  induction l with
  | nil => rfl
  | cons i l ih => cases i <;> simp [ih]
@[simp] theorem bytesOf_map (s : Bytes) : bytesOf (s.map Input.byte) = s := by
  induction s <;> simp_all

def clearerr (s : Stream) : Stream := { s with err := false, eof := false }

/-- `fgetc`; none stands for `EOF`. -/
def fgetc (s : Stream) : Option UInt8 × Stream :=
  match s.pending with
  | .byte b :: l => (some b,{ s with pending := l })
  | .fail e :: l => (none,{ s with pending := l, err := true, errno := e })
  | [] => match s.ending with
    | .eof => (none,{ s with eof := true })
    | .fail e => (none,{ s with err := true, errno := e })

/-- The bytes `fgets` stores when its buffer has room for `n` of them. -/
def getLine : ℕ → Stream → Bytes × Stream
  | 0, s => ([],s)
  | n+1, s => match s.fgetc with
    | (none,t) => ([],t)
    | (some b,t) => if b = 10 then ([b],t) else (b :: (getLine n t).1,(getLine n t).2)

/-- `fgets`: the bytes stored before the terminating NUL. -/
def fgets (size : ℕ) (s : Stream) : Bytes × Stream := getLine (size-1) s

/-- `fwrite` of single bytes; the number accepted. -/
def fwrite (data : Bytes) (s : Stream) : ℕ × Stream :=
  match s.plan with
  | [] => (data.length,{ s with sent := s.sent ++ [data] })
  | r :: plan =>
    if r.count < data.length then
      (r.count,{ s with
        plan := plan, sent := s.sent ++ [data.take r.count], err := true, errno := r.errno })
    else (data.length,{ s with plan := plan, sent := s.sent ++ [data] })

def output (s : Stream) : Bytes := s.sent.flatten

/-- The last read brought in more than the program has taken. -/
def unread (s : Stream) : Bool := match s.pending with
  | .byte _ :: _ => !s.reads.contains s.pending.length
  | _ => false

theorem unread_of_bytesOf {s : Stream} (h : bytesOf s.pending = []) : s.unread = false := by
  unfold unread
  split
  · rename_i hp
    simp [hp] at h
  · rfl

/-- `fflush`, whose result the program ignores. Output is written to the descriptor from behind
the input that was taken. With unread input in the buffer the position of the descriptor would
have to be set back first, which fails on a socket. -/
def fflush (s : Stream) : Stream := if s.unread then s else { s with delivered := s.output }

@[simp] theorem fflush_plan (s : Stream) : s.fflush.plan = s.plan := by
  unfold fflush
  split <;> rfl

@[simp] theorem fflush_sent (s : Stream) : s.fflush.sent = s.sent := by
  unfold fflush
  split <;> rfl

@[simp] theorem fflush_output (s : Stream) : s.fflush.output = s.output := by
  rw [output,fflush_sent,output]

/-- Nothing was written since the stream was `f₀`. -/
structure Unsent (f₀ f : Stream) : Prop where
  plan : f.plan = f₀.plan
  sent : f.sent = f₀.sent
  delivered : f.delivered = f₀.delivered

theorem Unsent.refl (f : Stream) : Unsent f f := ⟨rfl,rfl,rfl⟩

theorem Unsent.fgetc {f₀ f : Stream} (h : Unsent f₀ f) : Unsent f₀ f.fgetc.2 := by
  rcases f with ⟨pending,ending,err,eof,errno,plan,sent,reads,delivered⟩
  obtain ⟨hp,hs,hd⟩ := h
  rcases pending with _ | ⟨b | e,l⟩
  · cases ending <;> exact ⟨hp,hs,hd⟩
  · exact ⟨hp,hs,hd⟩
  · exact ⟨hp,hs,hd⟩

theorem Unsent.getLine {f₀ f : Stream} (h : Unsent f₀ f) (n : ℕ) :
    Unsent f₀ (getLine n f).2 := by
  induction n generalizing f with
  | zero => exact h
  | succ n ih =>
    have hc := h.fgetc
    revert hc
    simp only [Stream.getLine]
    rcases f.fgetc with ⟨_ | b,t⟩
    · exact id
    · intro hc
      dsimp only
      split
      · exact hc
      · exact ih hc

/-- Nothing was read since the stream was `f`, and with unread input nothing has left. -/
structure Over (f g : Stream) : Prop where
  pending : g.pending = f.pending
  reads : g.reads = f.reads
  delivered : f.unread = true → g.delivered = f.delivered

namespace Over

variable {f g : Stream}

theorem refl (f : Stream) : Over f f := ⟨rfl,rfl,fun _ => rfl⟩

theorem unread (h : Over f g) : g.unread = f.unread := by
  simp only [Stream.unread,h.pending,h.reads]

theorem fwrite (h : Over f g) (data : Bytes) : Over f (g.fwrite data).2 := by
  obtain ⟨hp,hr,hd⟩ := h
  unfold Stream.fwrite
  split
  · exact ⟨hp,hr,hd⟩
  · split <;> exact ⟨hp,hr,hd⟩

theorem fflush (h : Over f g) : Over f g.fflush := by
  unfold Stream.fflush
  split
  · exact h
  · rename_i hu
    exact ⟨h.pending,h.reads,fun hf => absurd (h.unread.trans hf) hu⟩

/-- After a flush everything has left, or nothing since the stream was `f`. -/
theorem delivered_fflush (h : Over f g) :
    g.fflush.delivered = if f.unread then f.delivered else g.output := by
  have hu := h.unread
  cases hf : f.unread with
  | true => simp [Stream.fflush,hu.trans hf,h.delivered hf]
  | false => simp [Stream.fflush,hu.trans hf]

end Over

/-! ## Streams of bytes -/

def holding (f : Stream) (b : Bytes) : Stream := { f with pending := b.map Input.byte }

@[simp] theorem holding_err (f : Stream) (b : Bytes) : (f.holding b).err = f.err := rfl
@[simp] theorem holding_eof (f : Stream) (b : Bytes) : (f.holding b).eof = f.eof := rfl
@[simp] theorem holding_pending (f : Stream) (b : Bytes) :
    (f.holding b).pending = b.map Input.byte := rfl
@[simp] theorem holding_holding (f : Stream) (b b' : Bytes) :
    (f.holding b).holding b' = f.holding b' := rfl
@[simp] theorem fgetc_holding (f : Stream) (c : UInt8) (b : Bytes) :
    (f.holding (c::b)).fgetc = (some c,f.holding b) := rfl

/-- A line that fits into the buffer is stored with its line feed. -/
theorem getLine_line {n : ℕ} {line : Bytes} (h : 10 ∉ line) (hn : line.length < n) (f : Stream)
    (rest : Bytes) : getLine n (f.holding (line ++ 10::rest)) = (line ++ [10],f.holding rest) := by
  induction line generalizing n with
  | nil =>
    cases n with
    | zero => simp at hn
    | succ n => simp [getLine]
  | cons c line ih =>
    cases n with
    | zero => simp at hn
    | succ n =>
      simp only [List.mem_cons,not_or] at h
      simp only [List.length_cons,Nat.add_lt_add_iff_right] at hn
      simp [getLine,Ne.symm h.1,ih h.2 hn]

/-- Without a line feed the buffer is filled. -/
theorem getLine_full {n : ℕ} {b : Bytes} (h : 10 ∉ b.take n) (hn : n ≤ b.length) (f : Stream) :
    getLine n (f.holding b) = (b.take n,f.holding (b.drop n)) := by
  induction n generalizing b with
  | zero => simp [getLine]
  | succ n ih =>
    cases b with
    | nil => simp at hn
    | cons c b =>
      simp only [List.take_succ_cons,List.mem_cons,not_or] at h
      simp only [List.length_cons,Nat.add_le_add_iff_right] at hn
      simp [getLine,Ne.symm h.1,ih h.2 hn]

/-- Where the bytes run out first, the read after them is the last. -/
theorem getLine_short {n : ℕ} {b : Bytes} (h : 10 ∉ b) (hn : b.length < n) (f : Stream) :
    getLine n (f.holding b) = (b,(f.holding []).fgetc.2) := by
  induction b generalizing n with
  | nil =>
    cases n with
    | zero => simp at hn
    | succ n =>
      rcases f with ⟨pending,ending,err,eof,errno,plan,sent,reads,delivered⟩
      cases ending <;> simp [getLine,holding,fgetc]
  | cons c b ih =>
    cases n with
    | zero => simp at hn
    | succ n =>
      simp only [List.mem_cons,not_or] at h
      simp only [List.length_cons,Nat.add_lt_add_iff_right] at hn
      simp [getLine,Ne.symm h.1,ih h.2 hn]

end Stream
end Gabby
