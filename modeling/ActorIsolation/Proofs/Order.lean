import ActorIsolation.Isolation.Domain
import ActorIsolation.Sendability.Verdict
import Mathlib.Data.List.Nodup
import Mathlib.Data.List.Perm.Subperm

/-! Sorted lists are determined by what is in them, and tables with distinct keys by their entries.
Ranks tell values apart because each part of a rank shows where it ends.
-/

set_option autoImplicit false

namespace ActorIsolation

variable {α β : Type}

/-! ### Ranks -/

namespace Rank

theorem precedes_iff {left right : List Nat} : precedes left right ↔ ¬ atMost right left := by
  simp [atMost]

theorem eq_of_atMost {left right : List Nat} (first : atMost left right)
    (second : atMost right left) : left = right := by
  induction left generalizing right with
  | nil =>
    cases right with
    | nil => rfl
    | cons _ _ => simp at second
  | cons number rest ih =>
    cases right with
    | nil => simp at first
    | cons other others =>
      rw [atMost_cons] at first second
      have same : number = other := by omega
      subst same
      rw [ih (by simpa using first) (by simpa using second)]

theorem atMost_refl (rank : List Nat) : atMost rank rank :=
  (atMost_total rank rank).elim id id

theorem atMost_of_precedes {left right : List Nat} (less : precedes left right) :
    atMost left right :=
  (atMost_total left right).resolve_right (precedes_iff.mp less)

theorem precedes_trans {left middle right : List Nat} (first : precedes left middle)
    (second : precedes middle right) : precedes left right := by
  rw [precedes_iff] at *
  exact fun back => first (atMost_trans (atMost_of_precedes (precedes_iff.mpr second)) back)

/-- A part of a rank shows where it ends, whatever comes after it. -/
def Delimited (part : α → List Nat) : Prop :=
  ∀ ⦃left right : α⦄ ⦃rest others : List Nat⦄, part left ++ rest = part right ++ others →
    left = right ∧ rest = others

theorem Delimited.injective {part : α → List Nat} (delimited : Delimited part) :
    Function.Injective part := by
  intro left right same
  have padded : part left ++ [] = part right ++ [] := by rw [same]
  exact (delimited padded).1

theorem Delimited.both {γ : Type} {first : β → List Nat} {second : γ → List Nat}
    (delimited : Delimited first) (others : Delimited second) {left right : β} {last final : γ}
    {rest tail : List Nat}
    (same : first left ++ second last ++ rest = first right ++ second final ++ tail) :
    left = right ∧ last = final ∧ rest = tail := by
  rw [List.append_assoc, List.append_assoc] at same
  obtain ⟨rfl, tails⟩ := delimited same
  obtain ⟨rfl, after⟩ := others tails
  exact ⟨rfl, rfl, after⟩

theorem delimited_text : Delimited text := by
  -- Every character counts one more than its code, so the closing zero is none.
  have chars : ∀ (left right : List Char) (rest others : List Nat),
      left.map (·.toNat + 1) ++ (0 :: rest) = right.map (·.toNat + 1) ++ (0 :: others) →
        left = right ∧ rest = others := by
    intro left
    induction left with
    | nil =>
      intro right rest others same
      cases right with
      | nil => exact ⟨rfl, by simpa using same⟩
      | cons _ _ => simp at same
    | cons first left ih =>
      intro right rest others same
      cases right with
      | nil => simp at same
      | cons second right =>
        simp only [List.map_cons, List.cons_append, List.cons.injEq, Nat.add_right_cancel_iff] at same
        obtain ⟨rfl, after⟩ := ih right rest others same.2
        exact ⟨by rw [Char.toNat_inj.mp same.1], after⟩
  intro left right rest others same
  simp only [text, List.append_assoc, List.singleton_append] at same
  obtain ⟨sameChars, after⟩ := chars _ _ _ _ same
  exact ⟨String.toList_inj.mp sameChars, after⟩

theorem Delimited.list {part : α → List Nat} (delimited : Delimited part) :
    Delimited (Rank.list part) := by
  intro left
  induction left with
  | nil =>
    intro right rest others same
    cases right with
    | nil => exact ⟨rfl, by simpa [Rank.list] using same⟩
    | cons _ _ => simp [Rank.list] at same
  | cons first left ih =>
    intro right rest others same
    cases right with
    | nil => simp [Rank.list] at same
    | cons second right =>
      -- Each item is announced by the same number, and the first items end at the same place.
      simp only [Rank.list, List.flatMap_cons, List.append_assoc, List.cons_append,
        List.cons.injEq, true_and] at same
      obtain ⟨rfl, tails⟩ := delimited same
      obtain ⟨rfl, after⟩ := @ih right rest others (by simpa [Rank.list] using tails)
      exact ⟨rfl, after⟩

theorem delimited_declId : Delimited (rank : DeclId → List Nat) := by
  rintro ⟨left⟩ ⟨right⟩ rest others same
  simpa [rank] using same

theorem delimited_annotation : Delimited (rank : Annotation → List Nat) := by
  intro left right rest others same
  cases left <;> cases right <;> simp [rank] at same
  case nonisolated.nonisolated => exact ⟨rfl, same⟩
  case nonisolatedUnsafe.nonisolatedUnsafe => exact ⟨rfl, same⟩
  case globalActor.globalActor left right =>
    exact ⟨by cases left; cases right; simp_all, same.2⟩
  case isolatedParameter.isolatedParameter leftName leftActor rightName rightActor =>
    obtain ⟨rfl, tails⟩ := delimited_text same
    simp only [List.cons.injEq] at tails
    exact ⟨by cases leftActor; cases rightActor; simp_all, tails.2⟩

theorem delimited_issueKind : Delimited (rank : ResolutionIssueKind → List Nat) := by
  intro left right rest others same
  cases left <;> cases right <;> simp [rank] at same
  case cycle.cycle => exact ⟨rfl, same⟩
  case conflictingAnnotations.conflictingAnnotations => exact ⟨rfl, same⟩
  case ambiguousInference.ambiguousInference =>
    obtain ⟨rfl, after⟩ := delimited_declId.list same
    exact ⟨rfl, after⟩

theorem delimited_issue : Delimited (rank : ResolutionIssue → List Nat) := by
  rintro ⟨leftDecl, leftKind⟩ ⟨rightDecl, rightKind⟩ rest others same
  obtain ⟨rfl, rfl, after⟩ := delimited_declId.both delimited_issueKind same
  exact ⟨rfl, after⟩

theorem delimited_valueKind : Delimited (rank : ValueKind → List Nat) := by
  intro left right rest others same
  cases left <;> cases right <;> simp_all [rank]

theorem delimited_reason : Delimited (rank : AuditReason → List Nat) := by
  intro left right rest others same
  cases left <;> cases right <;> simp [rank] at same
  case transfer.transfer leftEdge leftKind leftName rightEdge rightKind rightName =>
    obtain ⟨edges, tails⟩ := same
    obtain ⟨rfl, names⟩ := delimited_valueKind tails
    obtain ⟨rfl, after⟩ := delimited_text names
    exact ⟨by cases leftEdge; cases rightEdge; simp_all, after⟩
  case field.field leftOwner leftField rightOwner rightField =>
    exact ⟨by cases leftOwner; cases rightOwner; cases leftField; cases rightField; simp_all, same.2.2⟩
  case sharedMutable.sharedMutable left right => exact ⟨by cases left; cases right; simp_all, same.2⟩
  case nonisolatedUnsafe.nonisolatedUnsafe left right =>
    exact ⟨by cases left; cases right; simp_all, same.2⟩

theorem delimited_record : Delimited (rank : AuditRecord → List Nat) := by
  rintro ⟨leftDecl, leftReason⟩ ⟨rightDecl, rightReason⟩ rest others same
  obtain ⟨rfl, rfl, after⟩ := delimited_declId.both delimited_reason same
  exact ⟨rfl, after⟩

theorem delimited_sendableIssueKind : Delimited (rank : SendableIssueKind → List Nat) := by
  intro left right rest others same
  cases left <;> cases right <;> simp [rank] at same
  case subclassable.subclassable => exact ⟨rfl, same⟩
  case nonSendableField.nonSendableField left right =>
    exact ⟨by cases left; cases right; simp_all, same.2⟩
  case mutableField.mutableField left right => exact ⟨by cases left; cases right; simp_all, same.2⟩

theorem delimited_sendableIssue : Delimited (rank : SendableIssue → List Nat) := by
  rintro ⟨leftType, leftKind⟩ ⟨rightType, rightKind⟩ rest others same
  obtain ⟨rfl, rfl, after⟩ := delimited_declId.both delimited_sendableIssueKind same
  exact ⟨rfl, after⟩

end Rank

/-! ### Sorted lists -/

/-- Sorting forgets the order of values that the key tells apart. -/
theorem sortOn_eq_of_perm {key : α → List Nat} {values others : List α} (perm : values.Perm others)
    (apart : ∀ left ∈ values, ∀ right ∈ values, key left = key right → left = right) :
    sortOn key values = sortOn key others := by
  have sorts := (sortOn_perm key values).trans (perm.trans (sortOn_perm key others).symm)
  refine sorts.eq_of_pairwise ?_ (sortOn_pairwise key values) (sortOn_pairwise key others)
  intro left right mem other first second
  exact apart left (mem_sortOn.mp mem) right (perm.mem_iff.mpr (mem_sortOn.mp other))
    (Rank.eq_of_atMost first second)

theorem filter_key_insertOn (key : α → List Nat) (value : α) (values : List α) (rank : List Nat) :
    (insertOn key value values).filter (key · = rank) = (value :: values).filter (key · = rank) := by
  induction values with
  | nil => rfl
  | cons first rest ih =>
    unfold insertOn
    split
    · rfl
    · rename_i after
      have apart : ¬ (key value = rank ∧ key first = rank) := by
        rintro ⟨rfl, same⟩
        rw [same] at after
        exact after (Rank.atMost_refl _)
      by_cases own : key value = rank
      · have other : key first ≠ rank := fun same => apart ⟨own, same⟩
        rw [List.filter_cons_of_neg (by simpa), ih, List.filter_cons_of_pos (by simpa),
          List.filter_cons_of_pos (by simpa), List.filter_cons_of_neg (by simpa)]
      · rw [List.filter_cons, ih, List.filter_cons_of_neg (by simpa), List.filter_cons_of_neg (by simpa),
          List.filter_cons]

/-- Sorting leaves values with one key in the order in which they were. -/
theorem filter_key_sortOn (key : α → List Nat) (values : List α) (rank : List Nat) :
    (sortOn key values).filter (key · = rank) = values.filter (key · = rank) := by
  induction values with
  | nil => rfl
  | cons first rest ih =>
    rw [sortOn, List.foldr_cons, filter_key_insertOn, List.filter_cons, List.filter_cons]
    split
    · exact congrArg (first :: ·) ih
    · exact ih

theorem mem_iff_of_filter_key {key : α → List Nat} {values others : List α}
    (same : ∀ rank, values.filter (key · = rank) = others.filter (key · = rank)) {value : α} :
    value ∈ values ↔ value ∈ others := by
  have both : value ∈ values.filter (key · = key value) ↔
      value ∈ others.filter (key · = key value) := by rw [same]
  simpa using both

/-- A sorted list is determined by the lists of its values with one key. -/
theorem eq_of_filter_key {key : α → List Nat} {values others : List α}
    (first : values.Pairwise fun left right => Rank.atMost (key left) (key right))
    (second : others.Pairwise fun left right => Rank.atMost (key left) (key right))
    (same : ∀ rank, values.filter (key · = rank) = others.filter (key · = rank)) :
    values = others := by
  induction values generalizing others with
  | nil =>
    refine (List.eq_nil_iff_forall_not_mem.mpr fun value mem => ?_).symm
    simpa using (mem_iff_of_filter_key same).mpr mem
  | cons value values ih =>
    have shared {item : α} := @mem_iff_of_filter_key α key _ _ same item
    cases others with
    | nil => simpa using shared.mp List.mem_cons_self
    | cons other others =>
      obtain ⟨below, sortedValues⟩ := List.pairwise_cons.mp first
      obtain ⟨belowOther, sortedOthers⟩ := List.pairwise_cons.mp second
      have least : Rank.atMost (key value) (key other) := by
        rcases List.mem_cons.mp (shared.mpr List.mem_cons_self) with rfl | mem
        · exact Rank.atMost_refl _
        · exact below other mem
      have leastToo : Rank.atMost (key other) (key value) := by
        rcases List.mem_cons.mp (shared.mp List.mem_cons_self) with rfl | mem
        · exact Rank.atMost_refl _
        · exact belowOther value mem
      have keys := Rank.eq_of_atMost least leastToo
      have heads := same (key value)
      rw [List.filter_cons_of_pos (by simp), List.filter_cons_of_pos (by simp [keys])] at heads
      obtain rfl := (List.cons.inj heads).1
      have rest : ∀ rank, values.filter (key · = rank) = others.filter (key · = rank) := by
        intro rank
        have whole := same rank
        by_cases own : key value = rank
        · rw [List.filter_cons_of_pos (by simpa), List.filter_cons_of_pos (by simpa)] at whole
          exact (List.cons.inj whole).2
        · rwa [List.filter_cons_of_neg (by simpa), List.filter_cons_of_neg (by simpa)] at whole
      rw [ih sortedValues sortedOthers rest]

theorem sortOn_of_pairwise {key : α → List Nat} {values : List α}
    (sorted : values.Pairwise fun left right => Rank.atMost (key left) (key right)) :
    sortOn key values = values :=
  eq_of_filter_key (sortOn_pairwise key values) sorted (filter_key_sortOn key values)

theorem filter_sortOn (key : α → List Nat) (keep : α → Bool) (values : List α) :
    (sortOn key values).filter keep = sortOn key (values.filter keep) := by
  refine eq_of_filter_key ((sortOn_pairwise key values).sublist List.filter_sublist)
    (sortOn_pairwise key _) fun rank => ?_
  rw [filter_key_sortOn, List.filter_filter, List.filter_filter]
  simp only [Bool.and_comm (decide _)]
  rw [← List.filter_filter, filter_key_sortOn, List.filter_filter]

theorem map_sortOn {key : α → List Nat} {other : β → List Nat} {move : α → β}
    (same : ∀ value, other (move value) = key value) (values : List α) :
    (sortOn key values).map move = sortOn other (values.map move) := by
  have insert (value : α) (values : List α) :
      (insertOn key value values).map move = insertOn other (move value) (values.map move) := by
    induction values with
    | nil => rfl
    | cons first rest ih =>
      simp only [insertOn, List.map_cons, same, ← ih]
      split <;> rfl
  induction values with
  | nil => rfl
  | cons first rest ih =>
    calc (sortOn key (first :: rest)).map move
        = insertOn other (move first) ((sortOn key rest).map move) := insert first _
      _ = sortOn other ((first :: rest).map move) := by rw [ih]; rfl

theorem exists_marks_of_sublist {values others : List α} (part : values.Sublist others) :
    ∃ marked : List (α × Bool), marked.map (·.1) = others ∧ (marked.filter (·.2)).map (·.1) = values := by
  induction part with
  | slnil => exact ⟨[], rfl, rfl⟩
  | cons value _ ih =>
    obtain ⟨marked, rfl, rfl⟩ := ih
    exact ⟨(value, false) :: marked, rfl, rfl⟩
  | cons_cons value _ ih =>
    obtain ⟨marked, rfl, rfl⟩ := ih
    exact ⟨(value, true) :: marked, rfl, rfl⟩

/-- Part of a list, sorted, is part of the sorted list. -/
theorem sortOn_sublist {values others : List α} (key : α → List Nat) (part : values.Sublist others) :
    (sortOn key values).Sublist (sortOn key others) := by
  -- Values are told apart by marks, which go with them when they are sorted.
  obtain ⟨marked, rfl, rfl⟩ := exists_marks_of_sublist part
  have carried (pairs : List (α × Bool)) :
      sortOn key (pairs.map (·.1)) = (sortOn (key ·.1) pairs).map (·.1) :=
    (map_sortOn (fun _ => rfl) pairs).symm
  rw [carried, carried, ← filter_sortOn]
  exact List.filter_sublist.map _

theorem sortOn_sublist_of_subset {key : α → List Nat} (injective : Function.Injective key)
    {values others : List α} (distinct : values.Nodup) (within : values ⊆ others) :
    (sortOn key values).Sublist (sortOn key others) := by
  obtain ⟨part, perm, sublist⟩ := distinct.subperm within
  rw [← sortOn_eq_of_perm perm fun _ _ _ _ same => injective same]
  exact sortOn_sublist key sublist

/-- Sorting forgets how values are mixed that the key tells apart, by what they are about. -/
theorem sortOn_eq_of_filter [DecidableEq β] {key : α → List Nat} {about : α → β}
    {values others : List α} (apart : ∀ left right, key left = key right → about left = about right)
    (same : ∀ subject, values.filter (about · = subject) = others.filter (about · = subject)) :
    sortOn key values = sortOn key others := by
  refine eq_of_filter_key (sortOn_pairwise key _) (sortOn_pairwise key _) fun rank => ?_
  rw [filter_key_sortOn, filter_key_sortOn]
  -- All values with this key are about one thing, so they can be picked from those about it.
  by_cases some : ∃ value, key value = rank
  · obtain ⟨value, rfl⟩ := some
    have picked (list : List α) : list.filter (key · = key value) =
        (list.filter (about · = about value)).filter (key · = key value) := by
      rw [List.filter_filter]
      refine List.filter_congr fun other _ => ?_
      by_cases equal : key other = key value
      · simp [equal, apart other value equal]
      · simp [equal]
    rw [picked values, picked others, same]
  · have none (list : List α) : list.filter (key · = rank) = [] := by
      simpa using fun value _ found => some ⟨value, found⟩
    rw [none, none]

section

variable [Ranked α] {value other : α} {values others : List α}

def Ascends (values : List α) : Prop :=
  values.Pairwise fun left right => Rank.precedes (rank left) (rank right)

theorem mem_insertAscending (injective : Function.Injective (rank : α → List Nat)) :
    other ∈ insertAscending value values ↔ other = value ∨ other ∈ values := by
  refine ⟨mem_of_mem_insertAscending, fun mem => ?_⟩
  induction values with
  | nil => simpa [insertAscending] using mem
  | cons first rest ih =>
    unfold insertAscending
    split
    · simpa using mem
    · split
      · rename_i same
        rcases mem with rfl | mem
        · simp [injective same]
        · exact mem
      · simp only [List.mem_cons] at mem ⊢
        tauto

theorem Ascends.insertAscending (ascends : Ascends values) :
    Ascends (insertAscending value values) := by
  induction values with
  | nil => simp [ActorIsolation.insertAscending, Ascends]
  | cons first rest ih =>
    obtain ⟨below, ascendsRest⟩ := List.pairwise_cons.mp ascends
    unfold ActorIsolation.insertAscending
    split
    · rename_i less
      refine List.pairwise_cons.mpr ⟨fun later mem => ?_, ascends⟩
      rcases List.mem_cons.mp mem with rfl | mem
      · exact less
      · exact Rank.precedes_trans less (below later mem)
    · rename_i notLess
      split
      · exact ascends
      · rename_i different
        refine List.pairwise_cons.mpr ⟨fun later mem => ?_, ih ascendsRest⟩
        rcases mem_of_mem_insertAscending mem with rfl | mem
        · -- Neither less than the first value nor equal to it, the new one comes after it.
          rw [Rank.precedes_iff] at notLess ⊢
          exact fun back => different (Rank.eq_of_atMost back (not_not.mp notLess))
        · exact below later mem

theorem ascending_ascends (values : List α) : Ascends (ascending values) := by
  induction values with
  | nil => exact .nil
  | cons first rest ih => exact ih.insertAscending

theorem mem_ascending (injective : Function.Injective (rank : α → List Nat)) :
    value ∈ ascending values ↔ value ∈ values := by
  induction values with
  | nil => simp [ascending]
  | cons first rest ih =>
    rw [ascending, List.foldr_cons, mem_insertAscending injective, List.mem_cons]
    exact or_congr_right ih

theorem Ascends.nodup (ascends : Ascends values) : values.Nodup := by
  refine ascends.imp fun less same => ?_
  subst same
  rw [Rank.precedes_iff] at less
  exact less (Rank.atMost_refl _)

theorem Ascends.eq (injective : Function.Injective (rank : α → List Nat)) (first : Ascends values)
    (second : Ascends others) (same : ∀ value, value ∈ values ↔ value ∈ others) :
    values = others := by
  have perm := (List.perm_ext_iff_of_nodup first.nodup second.nodup).mpr same
  refine perm.eq_of_pairwise ?_ first second
  intro left right _ _ less more
  exact injective (Rank.eq_of_atMost (Rank.atMost_of_precedes less) (Rank.atMost_of_precedes more))

theorem ascending_congr (injective : Function.Injective (rank : α → List Nat))
    (same : ∀ value, value ∈ values ↔ value ∈ others) : ascending values = ascending others := by
  refine (ascending_ascends values).eq injective (ascending_ascends others) fun value => ?_
  rw [mem_ascending injective, mem_ascending injective, same]

/-- Without repetitions, sorting already gives the distinct values in ascending order. -/
theorem sorted_eq_ascending (injective : Function.Injective (rank : α → List Nat))
    (distinct : values.Nodup) : sorted values = ascending values := by
  have ascends : Ascends (sorted values) := by
    have apart := (sortOn_perm rank values).nodup_iff.mpr distinct
    refine ((sortOn_pairwise rank values).and apart).imp ?_
    rintro left right ⟨atMost, different⟩
    rw [Rank.precedes_iff]
    exact fun back => different (injective (Rank.eq_of_atMost atMost back))
  refine ascends.eq injective (ascending_ascends values) fun value => ?_
  rw [sorted, mem_sortOn, mem_ascending injective]

end

/-! ### Tables -/

section

variable [DecidableEq α] {entries others : List (α × β)} {key : α} {value : β}

theorem mem_of_lookup (found : entries.lookup key = some value) : (key, value) ∈ entries := by
  obtain ⟨before, after, rfl, -⟩ := List.lookup_eq_some_iff.mp found
  simp

theorem lookup_iff_mem (distinct : (entries.map (·.1)).Nodup) :
    entries.lookup key = some value ↔ (key, value) ∈ entries := by
  refine ⟨mem_of_lookup, fun mem => ?_⟩
  induction entries with
  | nil => simp at mem
  | cons entry rest ih =>
    obtain ⟨fresh, distinctRest⟩ := List.nodup_cons.mp distinct
    rcases List.mem_cons.mp mem with rfl | mem
    · simp
    · have different : key ≠ entry.1 := by
        rintro rfl
        exact fresh (List.mem_map.mpr ⟨_, mem, rfl⟩)
      rw [List.lookup_cons, beq_false_of_ne different]
      exact ih distinctRest mem

theorem lookup_isSome : (entries.lookup key).isSome ↔ key ∈ entries.map (·.1) := by
  simp only [List.lookup_isSome_iff, List.mem_map, beq_iff_eq]
  exact exists_congr fun entry => and_congr_right fun _ => eq_comm

theorem lookup_eq_of_perm (perm : entries.Perm others) (distinct : (entries.map (·.1)).Nodup) :
    entries.lookup key = others.lookup key := by
  have distinctOthers := (perm.map (·.1)).nodup_iff.mp distinct
  apply Option.ext
  intro value
  rw [lookup_iff_mem distinct, lookup_iff_mem distinctOthers, perm.mem_iff]

end

end ActorIsolation
