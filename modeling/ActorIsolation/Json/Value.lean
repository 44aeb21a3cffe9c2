import ActorIsolation.Json.Literal
import ActorIsolation.Json.Numeral

/-! JSON values, with numbers and texts as written and with repeated keys kept. -/

set_option autoImplicit false

namespace ActorIsolation

inductive Json where
  | null
  | flag (value : Bool)
  | number (numeral : Numeral)
  | text (literal : Literal)
  | array (items : List Json)
  | object (entries : List (Literal × Json))
  deriving Repr, Inhabited

namespace Json

def nat (value : Nat) : Json := .number (.ofNat value)

def string (value : String) : Json := .text (.ofString value)

def record (fields : List (String × Json)) : Json :=
  .object (fields.map fun (name, value) => (.ofString name, value))

def tagged (tag : String) (payload : Json) : Json := record [(tag, payload)]

end Json

end ActorIsolation
