import Gabby.Decimal
import Gabby.HttpRequest
import Gabby.JsonParser

/-! What the service takes from a request: header values, the method check, and the two
messages in the body. -/
namespace Gabby

structure Message where
  role : Bytes
  content : Bytes
  deriving DecidableEq

structure Question where
  systemMessage : Message
  userMessage : Message
  deriving DecidableEq

theorem ok_bind {ε α β : Type} (a : α) (f : α → Except ε β) : (Except.ok a >>= f) = f a := rfl

theorem error_bind {ε α β : Type} (e : ε) (f : α → Except ε β) :
    (Except.error e >>= f) = .error e := rfl

theorem bind_eq_ok {ε α β : Type} {x : Except ε α} {f : α → Except ε β} {b : β} :
    x >>= f = .ok b ↔ ∃ a, x = .ok a ∧ f a = .ok b := by
  cases x with
  | error e => simp [error_bind]
  | ok a => simp [ok_bind]

theorem bind_eq_error {ε α β : Type} {x : Except ε α} {f : α → Except ε β} {e : ε} :
    x >>= f = .error e ↔ x = .error e ∨ ∃ a, x = .ok a ∧ f a = .error e := by
  cases x with
  | error e' => simp [error_bind]
  | ok a => simp [ok_bind]

namespace Service

open Json

def getHeader (req : Http.Request) (key : Bytes) : Except Exn Bytes :=
  match req.headers.find key with
  | none => .error (.badRequestException (ascii "missing header: " ++ key))
  | some value => .ok value

def getIntHeader (req : Http.Request) (key : Bytes) : Except Exn ℤ := do
  let value ← getHeader req key
  match stoi value with
  | some n => .ok n
  | none => .error (.badRequestException
      (ascii "invalid value for header " ++ key ++ ascii ": " ++ value))

theorem getIntHeader_eq_ok {req : Http.Request} {key value : Bytes} {n : ℤ}
    (h : req.headers.find key = some value) (hn : stoi value = some n) :
    getIntHeader req key = .ok n := by
  simp only [getIntHeader,getHeader,h,bind,Except.bind,hn]

theorem getIntHeader_lt {req : Http.Request} {key : Bytes} {n : ℤ}
    (h : getIntHeader req key = .ok n) : n < 2^31 := by
  obtain ⟨value,-,h⟩ := bind_eq_ok.mp h
  cases hn : stoi value with
  | none =>
    rw [hn] at h
    cases h
  | some m =>
    rw [hn] at h
    cases h
    have := (stoi_range hn).2
    omega

def checkMethod (supported : List Method) (method : Method) : Except Exn Unit :=
  if method ∈ supported then .ok () else .error .notFoundError

/-- The predicate of the search in `FindMessageForRole`; it throws on a misshapen message. -/
def hasRole (role : Bytes) (val : Value) : Except Exn Bool := do
  let object ← val.asObject
  let value ← ObjectValue.at object (ascii "role")
  let s ← value.asString
  pure (s == role)

/-- `std::find_if` on the elements of an array from `index` on, with a predicate that may throw.
The iterators of an array hold an `int`. Its overflow is undefined; here the index runs on to
the end of the array, where `operator[]` throws. -/
def findIf (p : Value → Except Exn Bool) (last : ℤ) : ℤ → List Value → Except Exn (Option Value)
  | index, [] =>
    if index = last then .ok none
    else .error (.outOfRange (ascii "out of range: " ++ decimal index.toNat))
  | index, v::vs =>
    if index = last then .ok none
    else do if ← p v then .ok (some v) else findIf p last (index+1) vs

def findMessageForRole (role : Bytes) (msgs : List Value) : Except Exn Message := do
  match ← findIf (hasRole role) (toInt32 msgs.length) 0 msgs with
  | none => .error (.badRequestException (ascii "role " ++ role ++ ascii " not found"))
  | some val =>
    let msg ← val.asObject
    let role ← (← ObjectValue.at msg (ascii "role")).asString
    let content ← (← ObjectValue.at msg (ascii "content")).asString
    pure ⟨role,content⟩

def extractRequest (jsonRequest : Value) : Except Exn Question := do
  let msgs ← (← ObjectValue.at (← jsonRequest.asObject) (ascii "messages")).asArray
  let system ← findMessageForRole (ascii "system") msgs
  let user ← findMessageForRole (ascii "user") msgs
  pure ⟨system,user⟩

end Service
end Gabby
