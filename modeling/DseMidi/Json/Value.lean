import DseMidi.Decimal.Positional

/-!
# DseMidi.Json.Value

**JSON values** of the kinds that a dump uses. Members of an object keep their order,
and a number is either a natural number or a decimal with a fraction.
-/

namespace DseMidi

/-- A JSON value. -/
inductive Json
  | nat (value : Nat)
  | decimal (value : Decimal)
  | string (text : String)
  | array (items : List Json)
  | object (members : List (String × Json))

namespace Json

/-- A byte as a number. -/
def byte (b : UInt8) : Json := .nat b.toNat

end Json

end DseMidi
