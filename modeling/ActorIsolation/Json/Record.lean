import ActorIsolation.Json.Value

/-! Reading data from JSON values. Records are objects or arrays of their fields, alternatives are
tags or objects with a tag for their only key, and nesting is limited.
-/

set_option autoImplicit false

namespace ActorIsolation

abbrev Reader (α : Type) := Nat → Json → Option α

class Readable (α : Type) where
  read : Reader α

class Writable (α : Type) where
  write : α → Json

export Readable (read)
export Writable (write)

class Named (α : Type) where
  all : List α
  name : α → String

namespace Json

def nestingLimit : Nat := 127

def readText? {α : Type} [Readable α] (json : Json) : Option α := read nestingLimit json

variable {α : Type}

def natBelow (bound : Nat) : Reader Nat := fun _ json =>
  match json with
  | .number numeral => numeral.toNat?.filter (· < bound)
  | _ => none

def word : Reader Nat := natBelow 0x100000000

def longWord : Reader Nat := natBelow 0x10000000000000000

instance : Readable Float where
  read _ json := match json with
    | .number numeral => numeral.toFloat?
    | _ => none

instance : Readable Bool where
  read _ json := match json with
    | .flag value => some value
    | _ => none

instance : Writable Bool := ⟨.flag⟩

instance : Readable String where
  read _ json := match json with
    | .text literal => literal.content
    | _ => none

instance : Writable String := ⟨.string⟩

def items : Nat → Json → Option (Nat × List Json)
  | nesting + 1, .array items => some (nesting, items)
  | _, _ => none

instance [Readable α] : Readable (List α) where
  read nesting json := do
    let (nesting, items) ← items nesting json
    items.mapM (read nesting)

instance [Writable α] : Writable (List α) := ⟨fun values => .array (values.map write)⟩

instance [Readable α] : Readable (Option α) where
  read nesting json := match json with
    | .null => some none
    | json => (read nesting json).map some

instance [Writable α] : Writable (Option α) where
  write
    | none => .null
    | some value => write value

/-- The fields of a record that are present, and the nesting left for their values. -/
structure Record where
  nesting : Nat
  fields : List (String × Json)

namespace Record

/-- The entries of an object whose keys are among the names. Other entries do not count, but every
key has to be a text, and no name may come twice. -/
def knownEntries (names : List String) :
    List (Literal × Json) → Option (List (String × Json))
  | [] => some []
  | (key, value) :: rest => do
    let name ← key.content
    let others ← knownEntries names rest
    if name ∈ names then
      if (others.lookup name).isSome then none else return (name, value) :: others
    else return others

/-- A record from an object, or from an array of at least so many of its fields in order. -/
def ofJson? (names : List String) (least : Nat) : Nat → Json → Option Record
  | nesting + 1, .object entries => do return ⟨nesting, ← knownEntries names entries⟩
  | nesting + 1, .array items =>
    if least ≤ items.length && items.length ≤ names.length then
      some ⟨nesting, names.zip items⟩
    else none
  | _, _ => none

variable (record : Record)

def fieldWith (reader : Reader α) (name : String) : Option α := do
  reader record.nesting (← record.fields.lookup name)

def field [Readable α] (name : String) : Option α := record.fieldWith read name

def optional [Readable α] (name : String) : Option (Option α) :=
  match record.fields.lookup name with
  | none => some none
  | some json => read record.nesting json

def fieldOr (reader : Reader α) (name : String) (missing : α) : Option α :=
  match record.fields.lookup name with
  | none => some missing
  | some json => reader record.nesting json

end Record

def readRecord (names : List String) (build : Record → Option α) : Reader α :=
  fun nesting json => do build (← Record.ofJson? names names.length nesting json)

/-- A tag with its payload, if it has one, and the nesting left for that. -/
structure Alternative where
  nesting : Nat
  tag : String
  payload : Option Json

namespace Alternative

def ofJson? : Nat → Json → Option Alternative
  | nesting, .text literal => do return ⟨nesting, ← literal.content, none⟩
  | nesting + 1, .object [(key, payload)] => do return ⟨nesting, ← key.content, some payload⟩
  | _, _ => none

variable (alternative : Alternative)

/-- An alternative without data may carry null. -/
def bare (value : α) : Option α :=
  match alternative.payload with
  | none => some value
  | some .null => some value
  | some _ => none

def payloadWith (reader : Reader α) : Option α := do
  reader alternative.nesting (← alternative.payload)

def carrying [Readable α] : Option α := alternative.payloadWith read

end Alternative

def readNamed [Named α] : Reader α := fun nesting json => do
  let alternative ← Alternative.ofJson? nesting json
  let value ← (Named.all : List α).find? (Named.name · = alternative.tag)
  alternative.bare value

instance [Named α] : Readable α := ⟨readNamed⟩

instance [Named α] : Writable α := ⟨fun value => .string (Named.name value)⟩

end Json

end ActorIsolation
