import ActorIsolation.Json.Value

/-! Reading JSON text. The text is cut into tokens, which are then taken one by one onto a stack of
unfinished arrays and objects.
-/

set_option autoImplicit false

namespace ActorIsolation

namespace Json

inductive Token where
  | leftBrace
  | rightBrace
  | leftBracket
  | rightBracket
  | colon
  | comma
  | null
  | flag (value : Bool)
  | number (numeral : Numeral)
  | text (literal : Literal)
  deriving DecidableEq, Repr, Inhabited

namespace Token

def punctuation? : Char → Option Token
  | '\x7b' => some .leftBrace
  | '\x7d' => some .rightBrace
  | '[' => some .leftBracket
  | ']' => some .rightBracket
  | ':' => some .colon
  | ',' => some .comma
  | _ => none

def isBlank (char : Char) : Bool :=
  char = ' ' || char = '\n' || char = '\t' || char = '\r'

def ofWord? (word : List Char) : Option Token :=
  if word = "null".toList then some .null
  else if word = "true".toList then some (.flag true)
  else if word = "false".toList then some (.flag false)
  else (Numeral.parse? word).map .number

/-- What is being read: nothing, a word, or a quoted text, possibly right after a backslash. The
characters read so far are held latest first. -/
inductive Reading where
  | nothing
  | word (read : List Char)
  | quoted (read : List Char) (afterBackslash : Bool)
  deriving DecidableEq, Repr, Inhabited

def begin (char : Char) (tokens : List Token) : Reading × List Token :=
  if isBlank char then (.nothing, tokens)
  else if char = '"' then (.quoted [] false, tokens)
  else
    match punctuation? char with
    | some token => (.nothing, token :: tokens)
    | none => (.word [char], tokens)

def endsWord (char : Char) : Bool :=
  isBlank char || char = '"' || (punctuation? char).isSome

def read (char : Char) : Reading × List Token → Option (Reading × List Token)
  | (.nothing, tokens) => some (begin char tokens)
  | (.word word, tokens) =>
    if endsWord char then do
      return begin char ((← ofWord? word.reverse) :: tokens)
    else some (.word (char :: word), tokens)
  | (.quoted written true, tokens) => some (.quoted (char :: written) false, tokens)
  | (.quoted written false, tokens) =>
    if char = '"' then do
      return (.nothing, .text (← Literal.parse? written.reverse) :: tokens)
    else if char.toNat < 0x20 then none
    else some (.quoted (char :: written) (char = '\\'), tokens)

def finish : Reading × List Token → Option (List Token)
  | (.nothing, tokens) => some tokens.reverse
  | (.word word, tokens) => do return ((← ofWord? word.reverse) :: tokens).reverse
  | (.quoted _ _, _) => none

def ofChars? (state : Reading × List Token) : List Char → Option (List Token)
  | [] => finish state
  | char :: rest => do ofChars? (← read char state) rest

end Token

/-- An array or object that is not finished; its content is held latest first. -/
inductive Frame where
  | array (items : List Json)
  | object (entries : List (Literal × Json)) (key : Literal)
  deriving Repr, Inhabited

inductive Expecting where
  /-- A value, or, right after an opening bracket, a closing one. -/
  | aValue (opened : Bool) (frames : List Frame)
  /-- A key, or, right after an opening brace, a closing one. -/
  | aKey (opened : Bool) (entries : List (Literal × Json)) (frames : List Frame)
  | aColon (entries : List (Literal × Json)) (key : Literal) (frames : List Frame)
  /-- What may follow a complete value. -/
  | following (json : Json) (frames : List Frame)
  deriving Repr, Inhabited

namespace Expecting

def takeValue (opened : Bool) (frames : List Frame) : Token → Option Expecting
  | .null => some (.following .null frames)
  | .flag value => some (.following (.flag value) frames)
  | .number numeral => some (.following (.number numeral) frames)
  | .text literal => some (.following (.text literal) frames)
  | .leftBracket => some (.aValue true (.array [] :: frames))
  | .leftBrace => some (.aKey true [] frames)
  | .rightBracket =>
    match opened, frames with
    | true, .array _ :: outer => some (.following (.array []) outer)
    | _, _ => none
  | _ => none

def takeFollowing (json : Json) : List Frame → Token → Option Expecting
  | .array items :: outer, .comma => some (.aValue false (.array (json :: items) :: outer))
  | .array items :: outer, .rightBracket =>
    some (.following (.array (json :: items).reverse) outer)
  | .object entries key :: outer, .comma => some (.aKey false ((key, json) :: entries) outer)
  | .object entries key :: outer, .rightBrace =>
    some (.following (.object ((key, json) :: entries).reverse) outer)
  | _, _ => none

def take : Expecting → Token → Option Expecting
  | .aValue opened frames, token => takeValue opened frames token
  | .aKey _ entries frames, .text literal => some (.aColon entries literal frames)
  | .aKey true _ frames, .rightBrace => some (.following (.object []) frames)
  | .aColon entries key frames, .colon => some (.aValue false (.object entries key :: frames))
  | .following json frames, token => takeFollowing json frames token
  | _, _ => none

def takeAll : Expecting → List Token → Option Json
  | .following json [], [] => some json
  | _, [] => none
  | expecting, token :: rest => do
    let expecting ← expecting.take token
    expecting.takeAll rest

end Expecting

def parse? (content : String) : Option Json := do
  let tokens ← Token.ofChars? (.nothing, []) content.toList
  Expecting.takeAll (.aValue false []) tokens

end Json

end ActorIsolation
