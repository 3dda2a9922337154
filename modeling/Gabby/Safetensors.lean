import Gabby.Exec
import Gabby.JsonParser
import Gabby.Promotion
import Mathlib.Data.Nat.Digits.Defs

/-! `Safetensors::LoadFile` on a mapped file. A run keeps the local `header_size`, and as history
the indices that it reads from the mapping and the amounts that it shifts by. -/
namespace Gabby.Inference

/-- What `LoadFile` depends on: whether `mmap` of a file succeeds, what an `int` shifted by its
width or more gives, and which lengths a `std::string` can have. -/
structure Machine where
  maps : Bool
  wide : BitVec 32 → ℕ → BitVec 32
  maxSize : ℕ
  allocates : ℕ → Bool

structure Loading where
  headerSize : BitVec 64
  reads : List ℕ
  shifts : List ℕ
  deriving DecidableEq

structure Safetensors where
  mem : Bytes
  header : Json.Value
  dataOffset : BitVec 64

def Loading.init : Loading := ⟨0,[],[]⟩

variable (env : Machine)

/-- A failed mapping has no bytes; `Mmap` does not look at the result. -/
def mmap (file : Bytes) : Bytes := if env.maps then file else []

/-- Past the end of the mapping a read is undefined. -/
def byteAt (mem : Bytes) (i : ℕ) : Exec Loading Exn UInt8 := Exec.step fun s =>
  (match mem[i]? with
    | some b => .ok b
    | none => .error .undefined,
  { s with reads := s.reads ++ [i] })

/-- `data.get()[i] << (8 * i)` as the operand of `|=`. -/
def shifted (b : UInt8) (i : ℕ) : BitVec 64 := promotedShl 64 env.wide b.toBitVec (8*i)

def headerRounds (mem : Bytes) : ℕ → ℕ → Exec Loading Exn Unit
  | 0, _ => pure ()
  | n+1, i => do
    let b ← byteAt mem i
    Exec.modify fun s =>
      { s with headerSize := s.headerSize ||| shifted env b i, shifts := s.shifts ++ [8*i] }
    headerRounds mem n (i+1)

def copyFrom (mem : Bytes) : ℕ → ℕ → Exec Loading Exn Bytes
  | 0, _ => pure []
  | n+1, i => do
    let b ← byteAt mem i
    let bs ← copyFrom mem n (i+1)
    pure (b::bs)

/-- The constructor of `std::string` from two pointers: it makes room for all the characters
before it reads the first. -/
def makeString (mem : Bytes) (start n : ℕ) : Exec Loading Exn Bytes :=
  if env.maxSize < n then Exec.throw .lengthError
  else if env.allocates n = false then Exec.throw .badAlloc
  else copyFrom mem n start

def ofOutcome {α : Type} : Except (Stop Exn) α → Exec Loading Exn α
  | .ok a => pure a
  | .error e => Exec.stop e

def loadFile (file : Bytes) : Exec Loading Exn Safetensors := do
  let data := mmap env file
  headerRounds env data 8 0
  let headerSize ← Exec.read Loading.headerSize
  let s ← makeString env data 8 headerSize.toNat
  let header ← ofOutcome (Json.parseString s)
  pure ⟨data,header,8 + headerSize⟩

/-! ## The loop -/

def orShifted : List UInt8 → ℕ → BitVec 64 → BitVec 64
  | [], _, acc => acc
  | b::bs, i, acc => orShifted bs (i+1) (acc ||| shifted env b i)

variable {env} {mem : Bytes} {s : Loading} {i n : ℕ} {b : UInt8} {bs cs : List UInt8}
  {acc : BitVec 64}

theorem run_byteAt (h : i < mem.length) :
    (byteAt mem i).run s = (.ok mem[i],{ s with reads := s.reads ++ [i] }) := by
  rw [byteAt,Exec.run_step,List.getElem?_eq_getElem h]

theorem run_byteAt_of_le (h : mem.length ≤ i) :
    (byteAt mem i).run s = (.error .undefined,{ s with reads := s.reads ++ [i] }) := by
  rw [byteAt,Exec.run_step,List.getElem?_eq_none h]

theorem take_drop_succ (h : i + (n+1) ≤ mem.length) :
    (mem.drop i).take (n+1) = mem[i] :: (mem.drop (i+1)).take n := by
  rw [List.drop_eq_getElem_cons (by omega),List.take_succ_cons]

theorem run_headerRounds (h : i + n ≤ mem.length) : (headerRounds env mem n i).run s =
    (.ok (),⟨orShifted env ((mem.drop i).take n) i s.headerSize,s.reads ++ List.range' i n,
      s.shifts ++ (List.range' i n).map (8*·)⟩) := by
  induction n generalizing i s with
  | zero => simp [headerRounds,orShifted]
  | succ n ih =>
    rw [headerRounds,Exec.run_bind_ok (run_byteAt (by omega)),
      Exec.run_bind_ok (Exec.run_modify _ _),ih (by omega),take_drop_succ h]
    simp [orShifted,List.range'_succ]

theorem orShifted_append :
    orShifted env (bs ++ cs) i acc = orShifted env cs (i + bs.length) (orShifted env bs i acc) := by
  induction bs generalizing i acc with
  | nil => rfl
  | cons b bs ih =>
    rw [List.cons_append,orShifted,ih,orShifted,List.length_cons,Nat.add_right_comm,Nat.add_assoc]

theorem le_orShifted : acc.toNat ≤ (orShifted env bs i acc).toNat := by
  induction bs generalizing i acc with
  | nil => exact le_rfl
  | cons b bs ih => exact (le_toNat_or acc _).trans ih

/-! ## The value -/

def littleEndian (bs : List UInt8) : ℕ := Nat.ofDigits 256 (bs.map UInt8.toNat)

theorem littleEndian_cons : littleEndian (b::bs) = b.toNat + 256 * littleEndian bs := by
  simp [littleEndian,Nat.ofDigits_cons]

theorem littleEndian_append :
    littleEndian (bs ++ cs) = littleEndian bs + 2^(8*bs.length) * littleEndian cs := by
  simp [littleEndian,Nat.ofDigits_append,pow_mul]

theorem littleEndian_lt : littleEndian bs < 2^(8*bs.length) := by
  induction bs with
  | nil => simp [littleEndian]
  | cons b bs ih =>
    have hb := b.toNat_lt
    rw [littleEndian_cons,List.length_cons,Nat.mul_add_one,pow_add]
    omega

theorem toNat_shifted (hi : i < 4) (h : b.toNat * 2^(8*i) < 2^31) :
    (shifted env b i).toNat = b.toNat * 2^(8*i) :=
  toNat_promotedShl (by norm_num) (by norm_num) (by omega) h

theorem toNat_shifted_neg (h : 128 ≤ b.toNat) :
    (shifted env b 3).toNat = b.toNat * 2^(8*3) + (2^64 - 2^32) := by
  have hb := b.toNat_lt
  refine (toNat_promotedShl_neg (by norm_num) (by norm_num) (by norm_num) ?_ ?_).trans ?_
  · rw [UInt8.toNat_toBitVec]
    norm_num
    omega
  · rw [UInt8.toNat_toBitVec]
    norm_num
    omega
  · rw [UInt8.toNat_toBitVec]

/-- The first three bytes stay below the sign bit. -/
theorem toNat_orShifted (hlen : i + bs.length ≤ 3) (hacc : acc.toNat < 2^(8*i)) :
    (orShifted env bs i acc).toNat = acc.toNat + 2^(8*i) * littleEndian bs := by
  induction bs generalizing i acc with
  | nil => simp [orShifted,littleEndian]
  | cons b bs ih =>
    rw [List.length_cons] at hlen
    have hb := b.toNat_lt
    have hpow : 2^(8*i) ≤ 2^16 := Nat.pow_le_pow_right (by norm_num) (by omega)
    have hfit : b.toNat * 2^(8*i) < 2^31 := by nlinarith
    have hor : (acc ||| shifted env b i).toNat = acc.toNat + b.toNat * 2^(8*i) := by
      rw [toNat_or_of_lt hacc,toNat_shifted (by omega) hfit]
      exact ⟨b.toNat,by rw [toNat_shifted (by omega) hfit,Nat.mul_comm]⟩
    have hsucc : 2^(8*(i+1)) = 2^(8*i) * 256 := by rw [Nat.mul_add_one,pow_add]; norm_num
    rw [orShifted,ih (by omega),hor,hsucc,littleEndian_cons]
    · ring
    · rw [hor,hsucc]
      nlinarith

/-- The fourth byte brings the sign bit, which fills the upper half of the accumulator. -/
theorem toNat_orShifted_four (hlen : bs.length = 3) :
    (orShifted env (bs ++ [b]) 0 0).toNat =
      littleEndian (bs ++ [b]) + if b.toNat < 128 then 0 else 2^64 - 2^32 := by
  have hlow : (orShifted env bs 0 0).toNat = littleEndian bs := by
    rw [toNat_orShifted (by omega) (by decide)]
    simp
  have hlt : (orShifted env bs 0 0).toNat < 2^24 := by
    rw [hlow,show 24 = 8*bs.length by omega]
    exact littleEndian_lt
  have hsum : littleEndian (bs ++ [b]) = littleEndian bs + b.toNat * 2^24 := by
    rw [littleEndian_append,hlen,littleEndian_cons]
    simp [littleEndian,Nat.mul_comm]
  have hb := b.toNat_lt
  rw [orShifted_append,hlen,hsum,orShifted,orShifted,Nat.zero_add]
  split
  · have hval : (shifted env b 3).toNat = b.toNat * 2^(8*3) :=
      toNat_shifted (by norm_num) (by norm_num; omega)
    rw [toNat_or_of_lt hlt ⟨b.toNat,by rw [hval,Nat.mul_comm]⟩,hval,hlow]
    norm_num
  · have hval : (shifted env b 3).toNat = _ := toNat_shifted_neg (by omega)
    rw [toNat_or_of_lt hlt (by omega),hval,hlow]
    omega

/-- The size that the first eight bytes declare, by the shifts of the loop. -/
def declared (env : Machine) (mem : Bytes) : BitVec 64 := orShifted env (mem.take 8) 0 0

theorem declared_eq (hlen : bs.length = 3) :
    declared env (bs ++ b::cs) = orShifted env (cs.take 4) 4 (orShifted env (bs ++ [b]) 0 0) := by
  rw [declared,List.take_append,List.take_of_length_le (by omega),hlen,List.take_succ_cons,
    List.append_cons,orShifted_append]
  simp [hlen]

/-- From the sign bit on the size is in the last 2 GiB, whatever the upper bytes give. -/
theorem le_declared (hlen : bs.length = 3) (hb : 128 ≤ b.toNat) :
    2^64 - 2^31 ≤ (declared env (bs ++ b::cs)).toNat := by
  have hlow : (orShifted env (bs ++ [b]) 0 0).toNat = _ := toNat_orShifted_four hlen
  rw [if_neg (not_lt.mpr hb),littleEndian_append,hlen,littleEndian_cons] at hlow
  rw [declared_eq hlen]
  refine le_trans ?_ le_orShifted
  rw [hlow]
  norm_num
  omega

theorem shifted_zero (hz : ∀ k, env.wide 0 k = 0) : shifted env 0 i = 0 := by
  have hzero : (0 : UInt8).toBitVec.setWidth 32 = 0 := rfl
  have hshl : (0 : BitVec 32) <<< (8*i) = 0 := BitVec.zero_shiftLeft _
  rw [shifted,promotedShl,hzero,hshl,hz,ite_self]
  rfl

/-- A size below 2 GiB is read as it is written, if zero stays zero in a shift that is too long. -/
theorem toNat_declared_of_small (hz : ∀ k, env.wide 0 k = 0) (hlen : bs.length = 3)
    (hb : b.toNat < 128) :
    (declared env (bs ++ b :: (List.replicate 4 0 ++ cs))).toNat = littleEndian (bs ++ [b]) := by
  rw [declared_eq hlen]
  simp only [List.replicate,List.cons_append,List.nil_append,List.take_succ_cons,List.take_zero,
    orShifted,shifted_zero hz]
  have hor : ∀ x : BitVec 64, x ||| 0 ||| 0 ||| 0 ||| 0 = x := by simp
  rw [hor,toNat_orShifted_four hlen,if_pos hb,Nat.add_zero]

/-! ## Decoding -/

def headerRun (env : Machine) (mem : Bytes) : Loading := ((headerRounds env mem 8 0).run .init).2

def decoded (env : Machine) (mem : Bytes) : Loading :=
  ⟨declared env mem,List.range' 0 8,(List.range' 0 8).map (8*·)⟩

theorem decoded_headerSize : (decoded env mem).headerSize = declared env mem := rfl

theorem run_headerRounds_init (h : 8 ≤ mem.length) :
    (headerRounds env mem 8 0).run .init = (.ok (),decoded env mem) := by
  rw [run_headerRounds (by omega)]
  rfl

theorem headerRun_eq (h : 8 ≤ mem.length) : headerRun env mem = decoded env mem := by
  rw [headerRun,run_headerRounds_init h]

/-- The loop gives the number that eight bytes are in little-endian order, and no shift reaches
the width of its operand, which is an `int`. -/
structure DecodesLittleEndian (env : Machine) (mem : Bytes) : Prop where
  value : (headerRun env mem).headerSize.toNat = littleEndian (mem.take 8)
  shifts : ∀ k ∈ (headerRun env mem).shifts, k < 32

/-- The shifts of the upper four bytes are undefined, whatever the bytes are. -/
theorem not_decodesLittleEndian (env : Machine) (b : Fin 8 → UInt8) (rest : Bytes) :
    ¬ DecodesLittleEndian env (List.ofFn b ++ rest) := by
  intro h
  have hmem : 32 ∈ (headerRun env (List.ofFn b ++ rest)).shifts := by
    rw [headerRun_eq (by simp)]
    exact List.mem_map.mpr ⟨4,by decide,rfl⟩
  exact absurd (h.shifts 32 hmem) (lt_irrefl 32)

/-- No meaning of the undefined shifts makes the loop right: a fourth byte of 128 fills the upper
half of `header_size`. -/
theorem not_exists_decodes :
    ¬ ∃ env, ∀ b : Fin 8 → UInt8, DecodesLittleEndian env (List.ofFn b) := by
  rintro ⟨env,h⟩
  have hval := (h fun i => if i = 3 then 128 else 0).value
  rw [headerRun_eq (by simp)] at hval
  have hle : _ ≤ (declared env ([0,0,0] ++ 128::[0,0,0,0])).toNat := le_declared rfl (by decide)
  have hbytes : List.ofFn (fun i : Fin 8 => if i = 3 then (128 : UInt8) else 0) =
      [0,0,0] ++ 128::[0,0,0,0] := by decide
  rw [hbytes,decoded_headerSize] at hval
  rw [hval] at hle
  revert hle
  decide

end Gabby.Inference
