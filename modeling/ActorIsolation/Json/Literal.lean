/-! Quoted texts as they are written in JSON text. -/

set_option autoImplicit false

namespace ActorIsolation

structure Literal where
  /-- Absent where an escape names half of a surrogate pair. -/
  content : Option String
  /-- Whether any character is written with an escape. -/
  escaped : Bool
  deriving DecidableEq, Repr, Inhabited

namespace Literal

def ofString (content : String) : Literal := ⟨some content, false⟩

/-- A character as written: itself, or a sixteen-bit code. -/
inductive Unit16 where
  | plain (char : Char)
  | code (number : Nat)
  deriving DecidableEq, Repr, Inhabited

def hexDigit? (char : Char) : Option Nat :=
  if '0' ≤ char && char ≤ '9' then some (char.toNat - '0'.toNat)
  else if 'a' ≤ char && char ≤ 'f' then some (char.toNat - 'a'.toNat + 10)
  else if 'A' ≤ char && char ≤ 'F' then some (char.toNat - 'A'.toNat + 10)
  else none

def code? (first second third fourth : Char) : Option Nat := do
  return (((← hexDigit? first) * 16 + (← hexDigit? second)) * 16 + (← hexDigit? third)) * 16 +
    (← hexDigit? fourth)

def escape? : Char → Option Char
  | '"' => some '"'
  | '\\' => some '\\'
  | '/' => some '/'
  | 'b' => some '\x08'
  | 'f' => some '\x0c'
  | 'n' => some '\n'
  | 'r' => some '\r'
  | 't' => some '\t'
  | _ => none

def units? : List Char → Option (List Unit16)
  | [] => some []
  | '\\' :: 'u' :: first :: second :: third :: fourth :: rest => do
    let number ← code? first second third fourth
    return .code number :: (← units? rest)
  | '\\' :: char :: rest => do
    let meant ← escape? char
    return .plain meant :: (← units? rest)
  | char :: rest => do
    return .plain char :: (← units? rest)

/-- Two codes that form a surrogate pair stand for one character; half a pair stands for none. -/
def chars? : List Unit16 → Option (List Char)
  | [] => some []
  | .plain char :: rest => do
    return char :: (← chars? rest)
  | .code high :: .code low :: rest =>
    if 0xD800 ≤ high && high < 0xDC00 then
      if 0xDC00 ≤ low && low < 0xE000 then do
        return Char.ofNat (0x10000 + (high - 0xD800) * 0x400 + (low - 0xDC00)) :: (← chars? rest)
      else none
    else if 0xDC00 ≤ high && high < 0xE000 then none
    else do
      return Char.ofNat high :: (← chars? (.code low :: rest))
  | .code number :: rest =>
    if 0xD800 ≤ number && number < 0xE000 then none
    else do
      return Char.ofNat number :: (← chars? rest)

def parse? (written : List Char) : Option Literal := do
  let units ← units? written
  return ⟨(chars? units).map String.ofList, written.contains '\\'⟩

end Literal

end ActorIsolation
