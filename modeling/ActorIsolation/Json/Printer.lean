import ActorIsolation.Json.Value

/-! Writing JSON text. -/

set_option autoImplicit false

namespace ActorIsolation

namespace Json

def hexCode (number : Nat) : String :=
  let digits := Nat.toDigits 16 number
  String.ofList (List.replicate (4 - digits.length) '0' ++ digits)

def escapeChar (char : Char) : String :=
  if char = '"' then "\\\""
  else if char = '\\' then "\\\\"
  else if char.toNat < 0x20 then "\\u" ++ hexCode char.toNat
  else char.toString

def renderText (content : String) : String :=
  "\"" ++ String.join (content.toList.map escapeChar) ++ "\""

def renderNumeral (numeral : Numeral) : String :=
  let fraction :=
    if numeral.fraction.isEmpty then ""
    else "." ++ String.join (numeral.fraction.map toString)
  let exponent := match numeral.exponent with
    | some (.ofNat exponent) => s!"e{exponent}"
    | some (.negSucc exponent) => s!"e-{exponent + 1}"
    | none => ""
  (if numeral.negative then "-" else "") ++ toString numeral.whole ++ fraction ++ exponent

mutual

def render : Json → String
  | .null => "null"
  | .flag true => "true"
  | .flag false => "false"
  | .number numeral => renderNumeral numeral
  | .text literal => renderText (literal.content.getD "")
  | .array items => "[" ++ ",".intercalate (renderItems items) ++ "]"
  | .object entries => "\x7b" ++ ",".intercalate (renderEntries entries) ++ "\x7d"

def renderItems : List Json → List String
  | [] => []
  | item :: items => item.render :: renderItems items

def renderEntries : List (Literal × Json) → List String
  | [] => []
  | (key, value) :: entries =>
    (renderText (key.content.getD "") ++ ":" ++ value.render) :: renderEntries entries

end

end Json

end ActorIsolation
