import LlmGateway.Json

namespace LlmGateway

/-- An exception that leaves a request handler. -/
inductive Unhandled
  | load (e : Json.LoadError)
  | validationError
  | valueError
  | unicodeEncodeError
  | attributeError
  | typeError
  | transport
  deriving DecidableEq, Repr

inductive Content
  | empty
  | json (value : Json)
  | raw (content : Bytes)

structure Response where
  status : Int
  headers : List (Text × Text)
  content : Content

namespace Response

def isFinite (repr : FloatRepr) : Bool :=
  !([str "NaN", str "Infinity", str "-Infinity"].contains repr.text)

/-- JSONResponse(value): neither NaN nor a surrogate can be rendered. -/
def ofJson (value : Json) (status : Int) (headers : List (Text × Text)) : Except Unhandled Response :=
  if !value.every isFinite (fun _ => true) then .error .valueError
  else if !value.every (fun _ => true) Utf8.scalar then .error .unicodeEncodeError
  else .ok ⟨status, headers, .json value⟩

def Renderable (value : Json) : Prop :=
  value.every isFinite (fun _ => true) ∧ value.every (fun _ => true) Utf8.scalar

theorem ofJson_eq_ok {value : Json} {status : Int} {headers : List (Text × Text)} {response : Response} :
    ofJson value status headers = .ok response ↔ Renderable value ∧ response = ⟨status, headers, .json value⟩ := by
  rw [ofJson, Renderable]
  cases value.every isFinite (fun _ => true) <;> cases value.every (fun _ => true) Utf8.scalar <;> simp [eq_comm]

def noContent : Response := ⟨204, [], .empty⟩

end Response

end LlmGateway
