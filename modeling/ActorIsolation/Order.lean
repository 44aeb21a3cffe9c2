/-! Orders by rank. A value is ranked by a list of numbers, and ranks compare lexicographically.
Every part of a rank ends by itself, so the rank of a record is the ranks of its fields in turn.
-/

set_option autoImplicit false

namespace ActorIsolation

class Ranked (α : Type) where
  rank : α → List Nat

export Ranked (rank)

namespace Rank

/-- Ranks compare at the first number in which they differ; one that ends there comes first. -/
def precedes : List Nat → List Nat → Bool
  | _, [] => false
  | [], _ :: _ => true
  | first :: rest, other :: others => first < other || (first = other && precedes rest others)

def atMost (left right : List Nat) : Bool := !precedes right left

theorem atMost_cons {first other : Nat} {rest others : List Nat} :
    atMost (first :: rest) (other :: others) ↔
      first < other ∨ first = other ∧ atMost rest others := by
  simp only [atMost, precedes, Bool.not_eq_true', Bool.or_eq_false_iff, Bool.and_eq_false_imp,
    decide_eq_false_iff_not, decide_eq_true_eq]
  grind

@[simp] theorem nil_atMost (rank : List Nat) : atMost [] rank := by
  cases rank <;> rfl

@[simp] theorem not_cons_atMost_nil (first : Nat) (rest : List Nat) :
    ¬ atMost (first :: rest) [] := by
  simp [atMost, precedes]

theorem atMost_trans {left middle right : List Nat} (first : atMost left middle)
    (second : atMost middle right) : atMost left right := by
  induction left generalizing middle right with
  | nil => simp
  | cons _ _ ih =>
    cases middle with
    | nil => simp at first
    | cons _ _ =>
      cases right with
      | nil => simp at second
      | cons _ _ =>
        rw [atMost_cons] at *
        grind

theorem atMost_total (left right : List Nat) : atMost left right ∨ atMost right left := by
  induction left generalizing right with
  | nil => simp
  | cons first _ ih =>
    cases right with
    | nil => simp
    | cons other others =>
      have rest := ih others
      simp only [atMost_cons]
      grind

/-- Texts rank by code point; the closing zero puts a text before every longer one it begins. -/
def text (content : String) : List Nat :=
  content.toList.map (·.toNat + 1) ++ [0]

def optional {α : Type} (part : α → List Nat) : Option α → List Nat
  | none => [0]
  | some value => 1 :: part value

def list {α : Type} (part : α → List Nat) (values : List α) : List Nat :=
  values.flatMap (fun value => 1 :: part value) ++ [0]

def flag (value : Bool) : List Nat := [value.toNat]

end Rank

variable {α : Type}

def insertOn (key : α → List Nat) (value : α) : List α → List α
  | [] => [value]
  | first :: rest =>
    if Rank.atMost (key value) (key first) then value :: first :: rest
    else first :: insertOn key value rest

/-- Stable sorting by a key. -/
def sortOn (key : α → List Nat) (values : List α) : List α := values.foldr (insertOn key) []

theorem insertOn_perm (key : α → List Nat) (value : α) (values : List α) :
    (insertOn key value values).Perm (value :: values) := by
  induction values with
  | nil => exact .refl _
  | cons first rest ih =>
    unfold insertOn
    split
    · exact .refl _
    · exact (ih.cons first).trans (.swap value first rest)

theorem sortOn_perm (key : α → List Nat) (values : List α) : (sortOn key values).Perm values := by
  induction values with
  | nil => exact .refl _
  | cons first rest ih => exact (insertOn_perm key first _).trans (ih.cons first)

theorem mem_sortOn {key : α → List Nat} {values : List α} {value : α} :
    value ∈ sortOn key values ↔ value ∈ values :=
  (sortOn_perm key values).mem_iff

theorem insertOn_pairwise {key : α → List Nat} (value : α) {values : List α}
    (sorted : values.Pairwise fun left right => Rank.atMost (key left) (key right)) :
    (insertOn key value values).Pairwise fun left right => Rank.atMost (key left) (key right) := by
  induction values with
  | nil => exact List.pairwise_singleton ..
  | cons first rest ih =>
    obtain ⟨least, sortedRest⟩ := List.pairwise_cons.mp sorted
    unfold insertOn
    split
    · rename_i before
      refine List.pairwise_cons.mpr ⟨fun other mem => ?_, sorted⟩
      rcases List.mem_cons.mp mem with rfl | later
      · exact before
      · exact Rank.atMost_trans before (least other later)
    · rename_i after
      refine List.pairwise_cons.mpr ⟨fun other mem => ?_, ih sortedRest⟩
      rcases List.mem_cons.mp ((insertOn_perm key value rest).mem_iff.mp mem) with rfl | later
      · exact (Rank.atMost_total ..).resolve_left after
      · exact least other later

theorem sortOn_pairwise (key : α → List Nat) (values : List α) :
    (sortOn key values).Pairwise fun left right => Rank.atMost (key left) (key right) := by
  induction values with
  | nil => exact .nil
  | cons first rest ih => exact insertOn_pairwise first ih

variable [Ranked α]

def sorted (values : List α) : List α := sortOn rank values

def insertAscending (value : α) : List α → List α
  | [] => [value]
  | first :: rest =>
    if Rank.precedes (rank value) (rank first) then value :: first :: rest
    else if rank value = rank first then first :: rest
    else first :: insertAscending value rest

theorem mem_of_mem_insertAscending {value other : α} {values : List α}
    (h : other ∈ insertAscending value values) : other = value ∨ other ∈ values := by
  induction values with
  | nil => simpa [insertAscending] using h
  | cons first rest ih =>
    unfold insertAscending at h
    split at h
    · simpa using h
    · split at h
      · exact .inr h
      · rcases List.mem_cons.mp h with rfl | h
        · simp
        · rcases ih h with rfl | h <;> simp [*]

def ascending (values : List α) : List α :=
  values.foldr insertAscending []

theorem mem_of_mem_ascending {value : α} {values : List α} (h : value ∈ ascending values) :
    value ∈ values := by
  induction values with
  | nil => simp [ascending] at h
  | cons first rest ih =>
    rcases mem_of_mem_insertAscending h with rfl | h
    · simp
    · exact List.mem_cons_of_mem _ (ih h)

instance : Ranked Nat := ⟨fun number => [number]⟩

end ActorIsolation
