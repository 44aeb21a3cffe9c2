import ActorIsolation.Activity.Statistics
import ActorIsolation.Proofs.Order

/-! What statistics hold: for each kind of work that has been finished at all, how often it was. -/

set_option autoImplicit false

namespace ActorIsolation

def QueryKind.all : List QueryKind := [.resolveComponent, .sendable, .boundaryEdge, .declarationScan]

theorem QueryKind.mem_all (kind : QueryKind) : kind ∈ all := by
  cases kind <;> decide

theorem QueryKind.all_ascends : Ascends all := by
  unfold Ascends
  decide

def Event.closes (kind : QueryKind) : Event → Bool
  | .closed query _ => query.kind = kind
  | _ => false

def Event.subject? (kind : QueryKind) : Event → Option Nat
  | .closed query _ => if query.kind = kind then some query.subject else none
  | _ => none

def finishedIn (kind : QueryKind) (log : List Event) : List Nat := log.filterMap (Event.subject? kind)

section

variable {kind : QueryKind}

@[simp] theorem finishedIn_nil : finishedIn kind [] = [] := rfl

@[simp] theorem finishedIn_append (log more : List Event) :
    finishedIn kind (log ++ more) = finishedIn kind log ++ finishedIn kind more :=
  List.filterMap_append

theorem finishedIn_remarks (remarks : List Remark) : finishedIn kind (remarks.map .remarked) = [] := by
  simp [finishedIn, Event.subject?]

theorem length_finishedIn (log : List Event) :
    (finishedIn kind log).length = log.countP (Event.closes kind) := by
  have each (event : Event) : (event.subject? kind).isSome = event.closes kind := by
    cases event with
    | closed query finding => by_cases same : query.kind = kind <;> simp [Event.subject?, Event.closes, same]
    | began | opened | remarked | finished => rfl
  rw [finishedIn, List.length_filterMap_eq_countP]
  exact congrArg (log.countP ·) (funext each)

end

namespace Statistics

def figures (statistics : Statistics) : List (QueryKind × Nat × Nat × Nat) :=
  statistics.publish.map fun (kind, stat) => (kind, stat.total, stat.hits, stat.misses)

def figure (entry : QueryKind × Tally) : QueryKind × Nat × Nat × Nat :=
  (entry.1, entry.2.total, entry.2.hits, entry.2.misses)

theorem figures_eq (statistics : Statistics) :
    statistics.figures = statistics.tallies.map figure := by
  simp [figures, publish, figure, Tally.publish]

/-- The figures of a kind that was missed so often. A kind that was not met has none. -/
def missed (number : QueryKind → Nat) (kind : QueryKind) : Option (QueryKind × Nat × Nat × Nat) :=
  if number kind = 0 then none else some (kind, number kind, 0, number kind)

def more (kind : QueryKind) (number : QueryKind → Nat) : QueryKind → Nat :=
  fun other => number other + if kind = other then 1 else 0

variable {kind : QueryKind} {number : QueryKind → Nat} {kinds : List QueryKind}
  {tallies : List (QueryKind × Tally)} {elapsed : Duration}

theorem more_other {other : QueryKind} (different : kind ≠ other) :
    more kind number other = number other := by
  simp [more, different]

theorem missed_more_other {other : QueryKind} (different : kind ≠ other) :
    missed (more kind number) other = missed number other := by
  rw [missed, missed, more_other different]

theorem amend_first {change : Tally → Tally}
    (first : ∀ entry ∈ tallies, Rank.precedes (rank kind) (rank entry.1)) :
    amend kind change tallies = (kind, change {}) :: tallies := by
  cases tallies with
  | nil => rfl
  | cons entry rest => simp [amend, first entry (by simp)]

theorem not_precedes_self (kind : QueryKind) : ¬ Rank.precedes (rank kind) (rank kind) := by
  cases kind <;> decide

theorem eq_of_missed {other : QueryKind} {shown : QueryKind × Nat × Nat × Nat}
    (missed : missed number other = some shown) : other = shown.1 := by
  unfold Statistics.missed at missed
  split at missed
  · cases missed
  · exact congrArg Prod.fst (Option.some.inj missed)

theorem amend_figures_first
    (below : ∀ other ∈ kinds, Rank.precedes (rank kind) (rank other))
    (before : tallies.map figure = (kind :: kinds).filterMap (missed number)) :
    (amend kind (·.add false elapsed) tallies).map figure =
      (kind :: kinds).filterMap (missed (more kind number)) := by
  have others : kinds.filterMap (missed (more kind number)) = kinds.filterMap (missed number) := by
    apply List.filterMap_congr
    intro other later
    refine missed_more_other fun same => not_precedes_self kind ?_
    exact same ▸ below other later
  rw [List.filterMap_cons] at before ⊢
  rw [others]
  by_cases unmet : number kind = 0
  · -- The kind is new, and all kinds that are there come after it.
    rw [missed, if_pos unmet] at before
    dsimp only at before
    have ahead : ∀ entry ∈ tallies, Rank.precedes (rank kind) (rank entry.1) := by
      intro entry listed
      have later : figure entry ∈ kinds.filterMap (missed number) :=
        before ▸ List.mem_map_of_mem listed
      obtain ⟨other, otherMem, shown⟩ := List.mem_filterMap.mp later
      have key : other = entry.1 := eq_of_missed shown
      exact key ▸ below other otherMem
    rw [amend_first ahead, List.map_cons, before]
    simp [missed, more, unmet, figure, Tally.add, Tally.total]
  · rw [missed, if_neg unmet] at before
    obtain ⟨⟨other, tally⟩, later, rfl, shown, beforeRest⟩ := List.map_eq_cons_iff.mp before
    simp only [figure, Prod.mk.injEq] at shown
    obtain ⟨rfl, total, hits, misses⟩ := shown
    have amended : amend other (·.add false elapsed) ((other, tally) :: later) =
        (other, tally.add false elapsed) :: later := by
      simp [amend, not_precedes_self other]
    rw [amended, List.map_cons, beforeRest]
    simp [missed, more, figure, Tally.add, Tally.total, hits, misses]

theorem amend_figures (ascends : Ascends kinds) (mem : kind ∈ kinds)
    (before : tallies.map figure = kinds.filterMap (missed number)) :
    (amend kind (·.add false elapsed) tallies).map figure =
      kinds.filterMap (missed (more kind number)) := by
  induction kinds generalizing tallies with
  | nil => simp at mem
  | cons first rest ih =>
    obtain ⟨below, ascendsRest⟩ := List.pairwise_cons.mp ascends
    by_cases same : kind = first
    · subst same
      exact amend_figures_first below before
    · have later : kind ∈ rest := (List.mem_cons.mp mem).resolve_left same
      rw [List.filterMap_cons] at before ⊢
      rw [missed_more_other same]
      by_cases unmet : number first = 0
      · rw [missed, if_pos unmet] at before ⊢
        exact ih ascendsRest later before
      · -- The first kind has an entry, and the one to amend is behind it.
        rw [missed, if_neg unmet] at before ⊢
        obtain ⟨⟨other, tally⟩, after, rfl, shown, beforeRest⟩ := List.map_eq_cons_iff.mp before
        obtain rfl : other = first := congrArg Prod.fst shown
        have behind : ¬ Rank.precedes (rank kind) (rank other) := by
          intro less
          exact not_precedes_self kind (Rank.precedes_trans less (below kind later))
        have amended : amend kind (·.add false elapsed) ((other, tally) :: after) =
            (other, tally) :: amend kind (·.add false elapsed) after := by
          simp [amend, behind, same]
        rw [amended, List.map_cons, shown, ih ascendsRest later beforeRest]

theorem count_figures (statistics : Statistics) (log : List Event)
    (before : statistics.figures = QueryKind.all.filterMap (missed number)) :
    (statistics.count log).figures = QueryKind.all.filterMap
      (missed fun kind => number kind + log.countP (Event.closes kind)) := by
  induction log generalizing statistics number with
  | nil => simpa [count] using before
  | cons event rest ih =>
    have step : ∀ after : Statistics, (statistics.count (event :: rest)) = after.count rest →
        after.figures = QueryKind.all.filterMap
          (missed fun kind => number kind + if event.closes kind then 1 else 0) →
        (statistics.count (event :: rest)).figures = QueryKind.all.filterMap
          (missed fun kind => number kind + (event :: rest).countP (Event.closes kind)) := by
      intro after counts figures
      rw [counts, ih after figures]
      congr 2
      funext kind
      rw [List.countP_cons]
      omega
    cases event with
    | closed query finding =>
      apply step (statistics.record query.kind false .zero) rfl
      rw [figures_eq] at before ⊢
      have recorded : (statistics.record query.kind false .zero).tallies.map figure = _ :=
        amend_figures QueryKind.all_ascends query.kind.mem_all before
      rw [recorded]
      congr 2
      funext kind
      simp [more, Event.closes]
    | began | opened | remarked | finished =>
      exact step statistics rfl before

/-- How often work of a kind was finished, as it is published. A kind that is not listed never was. -/
def totalOf (statistics : Statistics) (kind : QueryKind) : Nat :=
  ((statistics.publish.lookup kind).map (·.total)).getD 0

theorem totalOf_eq (statistics : Statistics) (kind : QueryKind) :
    statistics.totalOf kind = ((statistics.figures.lookup kind).map (·.1)).getD 0 := by
  unfold totalOf figures
  induction statistics.publish with
  | nil => rfl
  | cons entry rest ih =>
    obtain ⟨other, stat⟩ := entry
    by_cases same : kind = other
    · simp [same]
    · simpa [List.lookup_cons, beq_false_of_ne same] using ih

theorem lookup_missed (kinds : List QueryKind) (kind : QueryKind) :
    (((kinds.filterMap (missed number)).lookup kind).map (·.1)).getD 0 =
      if kind ∈ kinds then number kind else 0 := by
  induction kinds with
  | nil => rfl
  | cons first rest ih =>
    rw [List.filterMap_cons, missed]
    by_cases unmet : number first = 0
    · by_cases same : kind = first
      · simpa [same, unmet] using ih
      · simp [same, unmet, ih]
    · by_cases same : kind = first
      · simp [same, unmet]
      · simp [List.lookup_cons, beq_false_of_ne same, same, unmet, ih]

theorem totalOf_count (log : List Event) (kind : QueryKind) :
    (count {} log).totalOf kind = (finishedIn kind log).length := by
  have none : ({} : Statistics).figures = QueryKind.all.filterMap (missed fun _ => 0) := rfl
  rw [totalOf_eq, count_figures _ log none, lookup_missed, if_pos kind.mem_all, Nat.zero_add,
    length_finishedIn]

end Statistics

end ActorIsolation
