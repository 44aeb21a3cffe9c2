import ActorIsolation.Activity.Event

/-! Statistics of the work done, kind by kind. -/

set_option autoImplicit false

namespace ActorIsolation

structure Duration where
  seconds : UInt64
  nanoseconds : UInt32
  deriving DecidableEq, Repr, Inhabited

namespace Duration

def zero : Duration := ⟨0, 0⟩

def milliseconds (duration : Duration) : Float :=
  (duration.seconds.toFloat + duration.nanoseconds.toFloat / 1e9) * 1000.0

end Duration

structure Tally where
  hits : Nat := 0
  misses : Nat := 0
  milliseconds : Float := 0.0
  deriving Repr, Inhabited

namespace Tally

def total (tally : Tally) : Nat := tally.hits + tally.misses

def add (tally : Tally) (hit : Bool) (elapsed : Duration) : Tally where
  hits := tally.hits + if hit then 1 else 0
  misses := tally.misses + if hit then 0 else 1
  milliseconds := tally.milliseconds + elapsed.milliseconds

end Tally

structure QueryStat where
  total : Nat
  hits : Nat
  misses : Nat
  milliseconds : Float
  hitRate : Float
  deriving Repr, Inhabited

def Tally.publish (tally : Tally) : QueryStat where
  total := tally.total
  hits := tally.hits
  misses := tally.misses
  milliseconds := tally.milliseconds
  hitRate :=
    if tally.total = 0 then 0.0
    else tally.hits.toUInt64.toFloat / tally.total.toUInt64.toFloat

/-- The tallies of the kinds that have been counted, in the order of kinds. -/
structure Statistics where
  tallies : List (QueryKind × Tally) := []
  deriving Repr, Inhabited

namespace Statistics

def amend (kind : QueryKind) (change : Tally → Tally) :
    List (QueryKind × Tally) → List (QueryKind × Tally)
  | [] => [(kind, change {})]
  | (other, tally) :: rest =>
    if Rank.precedes (rank kind) (rank other) then (kind, change {}) :: (other, tally) :: rest
    else if kind = other then (other, change tally) :: rest
    else (other, tally) :: amend kind change rest

def record (statistics : Statistics) (kind : QueryKind) (hit : Bool) (elapsed : Duration) :
    Statistics :=
  ⟨amend kind (·.add hit elapsed) statistics.tallies⟩

/-- Every piece of work that was finished counts as one miss; events carry no times. -/
def count (statistics : Statistics) (events : List Event) : Statistics :=
  events.foldl
    (fun statistics event =>
      match event with
      | .closed query _ => statistics.record query.kind false .zero
      | _ => statistics)
    statistics

def publish (statistics : Statistics) : List (QueryKind × QueryStat) :=
  statistics.tallies.map fun (kind, tally) => (kind, tally.publish)

end Statistics

end ActorIsolation
