import Gabby.JsonParser
import Gabby.ServiceRequest

/-! The response to a chat completion: a fixed object with one choice added to it. -/
namespace Gabby.Service

open Json

/-- The text of the raw string in `StubResponse`, line by line. -/
def stubText : Bytes := [
  ascii "\n    \x7b\n",
  ascii "        \"id\": \"gabby-completion-123\",\n",
  ascii "        \"object\": \"chat.completion\",\n",
  ascii "        \"created\": 1111111111,\n",
  ascii "        \"model\": \"gabby-model\",\n",
  ascii "        \"system_fingerprint\": \"fp_1111111111\",\n",
  ascii "        \"choices\": [\n",
  ascii "        ],\n",
  ascii "        \"usage\": \x7b\n",
  ascii "            \"prompt_tokens\": 1,\n",
  ascii "            \"completion_tokens\": 1,\n",
  ascii "            \"total_tokens\": 1,\n",
  ascii "            \"completion_tokens_details\": \x7b\n",
  ascii "                \"reasoning_tokens\": 1,\n",
  ascii "                \"accepted_prediction_tokens\": 0,\n",
  ascii "                \"rejected_prediction_tokens\": 0\n",
  ascii "            \x7d\n",
  ascii "        \x7d\n",
  ascii "    \x7d\n"].flatten

def stubResponse : Except (Stop Exn) Value := parseString stubText

def number (n : ℕ) : Value := .number ((Double.ofFraction false n 1).getD (.inf false))

def choice (answer : Message) : Value := .object [
  (ascii "index",number 0),
  (ascii "logprobs",.nil),
  (ascii "finish_reason",.string (ascii "stop")),
  (ascii "message",.object [
    (ascii "role",.string answer.role),
    (ascii "content",.string answer.content)])]

/-- The answer is appended to the array under "choices", which the response shares. -/
def addChoice (response : Value) (answer : Message) : Except Exn Value := do
  let object ← response.asObject
  let choices ← (← ObjectValue.at object (ascii "choices")).asArray
  pure (.object (object.assign (ascii "choices") (.array (choices ++ [choice answer]))))

def makeResponse (answer : Message) : Except (Stop Exn) Value :=
  match stubResponse with
  | .error e => .error e
  | .ok response => match addChoice response answer with
    | .error e => .error (.throw e)
    | .ok v => .ok v

/-! ## What the stub is -/

def stub (choices : List Value) : Dict Bytes Value := [
  (ascii "id",.string (ascii "gabby-completion-123")),
  (ascii "object",.string (ascii "chat.completion")),
  (ascii "created",number 1111111111),
  (ascii "model",.string (ascii "gabby-model")),
  (ascii "system_fingerprint",.string (ascii "fp_1111111111")),
  (ascii "choices",.array choices),
  (ascii "usage",.object [
    (ascii "prompt_tokens",number 1),
    (ascii "completion_tokens",number 1),
    (ascii "total_tokens",number 1),
    (ascii "completion_tokens_details",.object [
      (ascii "reasoning_tokens",number 1),
      (ascii "accepted_prediction_tokens",number 0),
      (ascii "rejected_prediction_tokens",number 0)])])]

def returns (v : Value) : Except (Stop Exn) Value → Bool
  | .ok w => w.same v
  | .error _ => false

theorem eq_ok_of_returns {v : Value} {x : Except (Stop Exn) Value} (h : returns v x = true) :
    x = .ok v := by
  cases x with
  | ok w => rw [Value.eq_of_same h]
  | error e => cases h

theorem stubResponse_eq : stubResponse = .ok (.object (stub [])) :=
  eq_ok_of_returns (by decide +kernel)

theorem keys_ne_choices : ∀ k ∈ [ascii "id",ascii "object",ascii "created",ascii "model",
    ascii "system_fingerprint"], k ≠ ascii "choices" := by decide +kernel

theorem find_choices (choices : List Value) :
    (stub choices).find (ascii "choices") = some (.array choices) := by
  simp only [stub,Dict.find_cons]
  rw [if_neg (keys_ne_choices _ (by simp)),if_neg (keys_ne_choices _ (by simp)),
    if_neg (keys_ne_choices _ (by simp)),if_neg (keys_ne_choices _ (by simp)),
    if_neg (keys_ne_choices _ (by simp)),if_pos trivial]

theorem assign_choices (choices choices' : List Value) :
    (stub choices).assign (ascii "choices") (.array choices') = stub choices' := by
  simp only [stub,Dict.assign]
  rw [if_neg (keys_ne_choices _ (by simp)),if_neg (keys_ne_choices _ (by simp)),
    if_neg (keys_ne_choices _ (by simp)),if_neg (keys_ne_choices _ (by simp)),
    if_neg (keys_ne_choices _ (by simp)),if_pos trivial]

theorem addChoice_eq (answer : Message) :
    addChoice (.object (stub [])) answer = .ok (.object (stub [choice answer])) := by
  simp only [addChoice,Value.asObject,bind,Except.bind,ObjectValue.at,find_choices,
    Value.asArray,List.nil_append,assign_choices,pure,Except.pure]

/-- `MakeResponse` never fails. -/
theorem makeResponse_eq (answer : Message) :
    makeResponse answer = .ok (.object (stub [choice answer])) := by
  unfold makeResponse
  simp only [stubResponse_eq]
  rw [addChoice_eq]

end Gabby.Service
