import ActorIsolation.Activity.Statistics
import ActorIsolation.Interchange.Declaration
import ActorIsolation.Json.Parser
import ActorIsolation.Options

/-! Options and statistics in JSON. -/

set_option autoImplicit false

namespace ActorIsolation

open Json

instance : Named Severity where
  all := [.error, .warning, .note]
  name := Severity.text

instance : Named Mode where
  all := [.warn, .error]
  name
    | .warn => "warn"
    | .error => "error"

instance : Named Category where
  all := Category.all
  name
    | .concurrentAccess => "concurrent_access"
    | .unsafeSharedMutable => "unsafe_shared_mutable"
    | .contractMismatch => "contract_mismatch"
    | .missingSuspension => "missing_suspension"
    | .unsafeIsolatedDefault => "unsafe_isolated_default"

instance : Named QueryKind where
  all := [.resolveComponent, .sendable, .boundaryEdge, .declarationScan]
  name
    | .resolveComponent => "resolve_component"
    | .sendable => "sendable"
    | .boundaryEdge => "boundary_edge"
    | .declarationScan => "declaration_scan"

def assign {κ β : Type} [Ranked κ] (key : κ) (value : β) : List (κ × β) → List (κ × β)
  | [] => [(key, value)]
  | (other, old) :: rest =>
    if Rank.precedes (rank key) (rank other) then (key, value) :: (other, old) :: rest
    else if rank key = rank other then (key, value) :: rest
    else (other, old) :: assign key value rest

/-- Reads a map, key by key; where a key comes again, its last value holds. -/
def readMap {κ β : Type} [Ranked κ] (readKey : Nat → Literal → Option κ) (readValue : Reader β) :
    Reader (List (κ × β))
  | nesting + 1, .object entries =>
    entries.foldlM
      (fun map (literal, json) => do
        return assign (← readKey nesting literal) (← readValue nesting json) map)
      []
  | _, _ => none

/-- A key that is a number is written without escapes, just like the number. -/
def readNumberKey (literal : Literal) : Option Nat := do
  if literal.escaped then none
  else
    let numeral ← Numeral.parse? (← literal.content).toList
    word 0 (.number numeral)

instance : Readable Options where
  read nesting json := do
    let record ← Record.ofJson?
      ["mode", "entryPointGlobalActor", "moduleBoundary", "suppress", "parallel"] 0 nesting json
    return {
      mode := ← record.fieldOr read "mode" .error
      entryPointActor := ← record.optional "entryPointGlobalActor"
      modules := ← record.fieldOr
        (readMap (fun _ literal => (readNumberKey literal).map DeclId.mk) read) "moduleBoundary" []
      suppressed := ascending (← record.fieldOr read "suppress" [])
      parallel := ← record.fieldOr read "parallel" false }

instance : Writable Options where
  write options := .record [
    ("mode", write options.mode), ("entryPointGlobalActor", write options.entryPointActor),
    ("moduleBoundary", .record (options.modules.map fun (id, module) =>
      (toString id.number, write module))),
    ("suppress", write options.suppressed), ("parallel", write options.parallel)]

def ofText? (α : Type) [Readable α] (content : String) : Option α :=
  (Json.parse? content).bind Json.readText?

instance : Readable QueryStat where
  read := readRecord ["total", "cache_hits", "cache_misses", "total_time_ms", "hit_rate"]
    fun record => do
      return {
        total := ← record.fieldWith longWord "total"
        hits := ← record.fieldWith longWord "cache_hits"
        misses := ← record.fieldWith longWord "cache_misses"
        milliseconds := ← record.field "total_time_ms"
        hitRate := ← record.field "hit_rate" }

structure QueryStats where
  queries : List (QueryKind × QueryStat)
  deriving Repr, Inhabited

instance : Readable QueryStats where
  read := readRecord ["queries"] fun record => do
    return ⟨← record.fieldWith
      (readMap (fun nesting literal => read nesting (.text literal)) read) "queries"⟩

end ActorIsolation
