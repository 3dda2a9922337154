import Gabby.Bytes

/-! Status codes, methods and the exceptions of the program. -/
namespace Gabby

inductive StatusCode
  | ok | badRequest | notFound | requestTimeout | internalServerError
  deriving DecidableEq

namespace StatusCode

def code : StatusCode → ℕ
  | ok => 200
  | badRequest => 400
  | notFound => 404
  | requestTimeout => 408
  | internalServerError => 500

def toString : StatusCode → Bytes
  | ok => ascii "OK"
  | notFound => ascii "Not Found"
  | badRequest => ascii "Bad Request"
  | requestTimeout => ascii "Request Timeout"
  | internalServerError => ascii "Internal Server Error"

end StatusCode

inductive Method
  | get | post
  deriving DecidableEq

def Method.toString : Method → Bytes
  | get => ascii "GET"
  | post => ascii "POST"

namespace Json

inductive ValueType
  | num | bool | str | array | obj | nil
  deriving DecidableEq

end Json

/-- The exceptions the program throws, with the data their messages carry. -/
inductive Exn
  -- json::JSONError
  | parsingError (what : Bytes)
  | typeError (want got : Json.ValueType)
  | keyNotFoundError (key : Bytes)
  -- http::HttpException
  | internalError (what : Bytes)
  | badRequestException (what : Bytes)
  | timeoutException
  | notFoundError
  -- other classes derived from std::exception
  | systemError (errno : ℕ)
  | badVariantAccess
  | outOfRange (what : Bytes)
  | lengthError
  | badAlloc
  deriving DecidableEq

namespace Exn

def isJSONError : Exn → Bool
  | parsingError _ | typeError _ _ | keyNotFoundError _ => true
  | _ => false

def status : Exn → Option StatusCode
  | internalError _ => some .internalServerError
  | badRequestException _ => some .badRequest
  | timeoutException => some .requestTimeout
  | notFoundError => some .notFound
  | _ => none

end Exn
end Gabby
