import Gabby.Double

/-! How far `stod` reads: never past a character that can stand in no number. -/
namespace Gabby.Double

/-- The character stands in no number, and it is no white space. -/
structure Stops (c : UInt8) : Prop where
  space : isspace c = false
  digit : isdigit c = false
  xdigit : isxdigit c = false
  point : c ≠ chr '.'
  plus : c ≠ chr '+'
  minus : c ≠ chr '-'
  lower : isalnum (tolower c) = false

theorem stops_comma : Stops (chr ',') := by constructor <;> decide

variable {c : UInt8} {p : UInt8 → Bool}

theorem takeWhile_stop (hc : p c = false) (s u : Bytes) :
    (s ++ c::u).takeWhile p = s.takeWhile p := by
  induction s with
  | nil => simp [hc]
  | cons d s ih =>
    rw [List.cons_append,List.takeWhile_cons,List.takeWhile_cons,ih]

theorem dropWhile_stop (hc : p c = false) (s u : Bytes) :
    (s ++ c::u).dropWhile p = s.dropWhile p ++ c::u := by
  induction s with
  | nil => simp [hc]
  | cons d s ih =>
    rw [List.cons_append,List.dropWhile_cons,List.dropWhile_cons,ih]
    split <;> rfl

theorem isPrefixOf_stop {pat : Bytes} (hc : c ∉ pat) (s u : Bytes) :
    pat.isPrefixOf (s ++ c::u) = pat.isPrefixOf s := by
  induction pat generalizing s with
  | nil => simp
  | cons d pat ih =>
    simp only [List.mem_cons,not_or] at hc
    cases s with
    | nil => simp [List.isPrefixOf,Ne.symm hc.1]
    | cons e s => simp [List.isPrefixOf,ih hc.2]

variable (hs : Stops c)
include hs

theorem splitSign_stop (s u : Bytes) :
    splitSign (s ++ c::u) = ((splitSign s).1,(splitSign s).2 ++ c::u) := by
  cases s with
  | nil => simp [splitSign,hs.minus,hs.plus]
  | cons d s =>
    simp only [List.cons_append,splitSign]
    split_ifs <;> rfl

theorem splitPoint_stop (hp : p c = false) (s u : Bytes) : splitPoint p (s ++ c::u) =
    ((splitPoint p s).1,(splitPoint p s).2.1,(splitPoint p s).2.2 ++ c::u) := by
  simp only [splitPoint]
  rw [takeWhile_stop hp,dropWhile_stop hp]
  cases s.dropWhile p with
  | nil => simp [hs.point]
  | cons d r =>
    simp only [List.cons_append]
    split
    · rw [takeWhile_stop hp,dropWhile_stop hp]
    · rfl

theorem exponentPart_stop {mark : UInt8} (hm : isalnum mark) (s u : Bytes) :
    exponentPart mark (s ++ c::u) = exponentPart mark s := by
  cases s with
  | nil =>
    have : tolower c ≠ mark := by
      rintro rfl
      simp [hs.lower] at hm
    simp [exponentPart,this]
  | cons d s =>
    simp only [List.cons_append,exponentPart]
    rw [splitSign_stop hs,takeWhile_stop hs.digit]

theorem strtodDecimal_stop (neg : Bool) (s u : Bytes) :
    strtodDecimal neg (s ++ c::u) = strtodDecimal neg s := by
  simp only [strtodDecimal]
  rw [splitPoint_stop hs hs.digit,exponentPart_stop hs (by decide)]

theorem strtodHex_stop (neg : Bool) (s u : Bytes) :
    strtodHex neg (s ++ c::u) = strtodHex neg s := by
  simp only [strtodHex]
  rw [splitPoint_stop hs hs.xdigit,exponentPart_stop hs (by decide)]

/-- `stod` reads no further than such a character. -/
theorem stod_stop (s u : Bytes) : stod (s ++ c::u) = stod s := by
  have hpat : ∀ pat : Bytes, pat.all isalnum → tolower c ∉ pat := by
    intro pat hp hc
    have := List.all_eq_true.mp hp _ hc
    simp [hs.lower] at this
  simp only [stod]
  rw [dropWhile_stop hs.space,splitSign_stop hs]
  generalize splitSign (s.dropWhile isspace) = q
  simp only [List.map_append,List.map_cons]
  rw [isPrefixOf_stop (hpat _ (by decide)),isPrefixOf_stop (hpat _ (by decide)),
    isPrefixOf_stop (hpat _ (by decide)),strtodDecimal_stop hs]
  by_cases hx : (ascii "0x").isPrefixOf (q.2.map tolower)
  · have hlen : 2 ≤ q.2.length := by
      simpa [ascii] using (List.isPrefixOf_iff_prefix.mp hx).length_le
    rw [List.drop_append_of_le_length hlen,strtodHex_stop hs]
  · simp only [hx,Bool.false_eq_true,if_false]

end Gabby.Double
