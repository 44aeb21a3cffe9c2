/-! Numbers as they are written in JSON text, and their values. -/

set_option autoImplicit false

namespace ActorIsolation

/-- A number as written. A fraction that is written has digits; an exponent of zero is not the same
as none. -/
structure Numeral where
  negative : Bool
  whole : Nat
  fraction : List Nat
  exponent : Option Int
  deriving DecidableEq, Repr, Inhabited

namespace Numeral

def ofNat (value : Nat) : Numeral := ⟨false, value, [], none⟩

def isDigit (char : Char) : Bool := '0' ≤ char && char ≤ '9'

def digit (char : Char) : Nat := char.toNat - '0'.toNat

def value (digits : List Nat) : Nat := digits.foldl (fun value digit => value * 10 + digit) 0

def digits (chars : List Char) : List Nat × List Char :=
  ((chars.takeWhile isDigit).map digit, chars.dropWhile isDigit)

def wholePart? (chars : List Char) : Option (Nat × List Char) :=
  match digits chars with
  | ([], _) => none
  | (0 :: _ :: _, _) => none
  | (whole, rest) => some (value whole, rest)

def fractionPart? : List Char → Option (List Nat × List Char)
  | '.' :: rest =>
    match digits rest with
    | ([], _) => none
    | split => some split
  | rest => some ([], rest)

def exponentDigits? (chars : List Char) : Option Nat :=
  match digits chars with
  | (exponent@(_ :: _), []) => some (value exponent)
  | _ => none

def exponentPart? : List Char → Option (Option Int)
  | [] => some none
  | mark :: rest =>
    if mark = 'e' || mark = 'E' then
      match rest with
      | '-' :: rest => (exponentDigits? rest).map fun exponent => some (-(exponent : Int))
      | '+' :: rest => (exponentDigits? rest).map fun exponent => some (exponent : Int)
      | rest => (exponentDigits? rest).map fun exponent => some (exponent : Int)
    else none

def unsigned? (negative : Bool) (chars : List Char) : Option Numeral := do
  let (whole, rest) ← wholePart? chars
  let (fraction, rest) ← fractionPart? rest
  let exponent ← exponentPart? rest
  return { negative, whole, fraction, exponent }

def parse? : List Char → Option Numeral
  | '-' :: rest => unsigned? true rest
  | chars => unsigned? false chars

def toNat? (numeral : Numeral) : Option Nat :=
  match numeral with
  | ⟨false, whole, [], none⟩ => some whole
  | _ => none

/-- Appends digits to a significand as long as it fits into 64 bits; the others are left over. -/
def append (significand : Nat) : List Nat → Nat × List Nat
  | [] => (significand, [])
  | digit :: rest =>
    if significand * 10 + digit < 0x10000000000000000 then append (significand * 10 + digit) rest
    else (significand, digit :: rest)

def significand (numeral : Numeral) : Nat × Int :=
  let (whole, dropped) := append 0 ((Nat.toDigits 10 numeral.whole).map digit)
  let (significand, unused) := append whole numeral.fraction
  let places : Nat := numeral.fraction.length - unused.length
  (significand, dropped.length - places + numeral.exponent.getD 0)

def powerOfTen (exponent : Nat) : Float := Float.ofScientific 1 false exponent

def shrink (value : Float) (exponent : Nat) : Float :=
  if exponent ≤ 308 then value / powerOfTen exponent
  else if value == 0.0 then value
  else shrink (value / powerOfTen 308) (exponent - 308)
termination_by exponent

def scale? (value : Float) : Int → Option Float
  | .ofNat exponent =>
    if exponent ≤ 308 then
      let scaled := value * powerOfTen exponent
      if scaled.isInf then none else some scaled
    else if value == 0.0 then some value
    else none
  | .negSucc exponent => some (shrink value (exponent + 1))

/-- The binary value of a number: its significand is rounded first, and then scaled. -/
def toFloat? (numeral : Numeral) : Option Float := do
  let (significand, exponent) := numeral.significand
  let magnitude ← scale? significand.toUInt64.toFloat exponent
  return if numeral.negative then -magnitude else magnitude

end Numeral

end ActorIsolation
