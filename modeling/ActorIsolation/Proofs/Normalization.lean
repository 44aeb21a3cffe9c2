import ActorIsolation.Diagnostic.Basic
import ActorIsolation.Proofs.Order
import Mathlib.Data.List.Forall2

/-! The canonical order of diagnostics. It tells diagnostics apart by position, code and message, and
leaves those that agree in all three as it finds them. So it hides the order in which diagnostics came
up just when no two different ones agree.
-/

set_option autoImplicit false

namespace ActorIsolation

theorem Rank.delimited_span : Delimited (rank : Span → List Nat) := by
  rintro ⟨⟨file⟩, ⟨start, stop⟩⟩ ⟨⟨other⟩, ⟨first, last⟩⟩ rest others same
  simpa [rank, and_assoc] using same

theorem Label.order_injective : Function.Injective Label.order := by
  rintro ⟨span, message, isPrimary⟩ ⟨other, text, isOther⟩ same
  have flag : Rank.Delimited fun isPrimary : Bool => Rank.flag (!isPrimary) := by
    intro left right rest others same
    cases left <;> cases right <;> simp_all [Rank.flag]
  obtain ⟨rfl, rfl, rest⟩ := flag.both Rank.delimited_span same
  obtain rfl := Rank.delimited_text.injective rest
  rfl

theorem sortOn_eq_iff_perm {α : Type} {key : α → List Nat} (injective : Function.Injective key)
    {values others : List α} : sortOn key values = sortOn key others ↔ values.Perm others := by
  constructor
  · intro same
    exact (sortOn_perm key values).symm.trans (same ▸ sortOn_perm key others)
  · intro perm
    exact sortOn_eq_of_perm perm fun _ _ _ _ same => injective same

namespace Diagnostic

/-! ### One diagnostic -/

/-- The same diagnostic, but for the order of its labels and of its notes. -/
structure Resembles (left right : Diagnostic) : Prop where
  code : left.code = right.code
  severity : left.severity = right.severity
  message : left.message = right.message
  primary : left.primary = right.primary
  labels : left.labels.Perm right.labels
  notes : left.notes.Perm right.notes

theorem Resembles.refl (diagnostic : Diagnostic) : diagnostic.Resembles diagnostic :=
  ⟨rfl, rfl, rfl, rfl, .refl _, .refl _⟩

/-- Two diagnostics become one when they are normalized just if they differ in order only. -/
theorem normalize_eq_iff {left right : Diagnostic} :
    left.normalize = right.normalize ↔ left.Resembles right := by
  have labels := @sortOn_eq_iff_perm _ _ Label.order_injective left.labels right.labels
  have notes := @sortOn_eq_iff_perm _ _ Rank.delimited_text.injective left.notes right.notes
  rw [normalize, normalize, Diagnostic.mk.injEq]
  constructor
  · rintro ⟨code, severity, message, primary, sameLabels, sameNotes⟩
    exact ⟨code, severity, message, primary, labels.mp sameLabels, notes.mp sameNotes⟩
  · intro same
    exact ⟨same.code, same.severity, same.message, same.primary, labels.mpr same.labels,
      notes.mpr same.notes⟩

theorem order_normalize (diagnostic : Diagnostic) : diagnostic.normalize.order = diagnostic.order := rfl

/-! ### Position, code and message -/

def heading (diagnostic : Diagnostic) : Span × String × String :=
  (diagnostic.primary, diagnostic.code, diagnostic.message)

def orderOfHeading (heading : Span × String × String) : List Nat :=
  rank heading.1 ++ Rank.text heading.2.1 ++ Rank.text heading.2.2

theorem orderOfHeading_injective : Function.Injective orderOfHeading := by
  rintro ⟨span, code, message⟩ ⟨other, mark, text⟩ same
  obtain ⟨rfl, rfl, rest⟩ := Rank.delimited_span.both Rank.delimited_text same
  obtain rfl := Rank.delimited_text.injective rest
  rfl

theorem order_eq_iff {left right : Diagnostic} :
    left.order = right.order ↔ left.heading = right.heading := by
  change orderOfHeading left.heading = orderOfHeading right.heading ↔ _
  exact orderOfHeading_injective.eq_iff

/-! ### Lists of diagnostics -/

/-- The same diagnostics in another order, with the labels and the notes of each in another order. -/
def Rearranged (diagnostics others : List Diagnostic) : Prop :=
  ∃ middle, diagnostics.Perm middle ∧ List.Forall₂ Resembles middle others

variable {diagnostics others : List Diagnostic}

theorem Rearranged.of_perm (perm : diagnostics.Perm others) : Rearranged diagnostics others :=
  ⟨others, perm, List.forall₂_same.mpr fun diagnostic _ => .refl diagnostic⟩

theorem Rearranged.normalized (rearranged : Rearranged diagnostics others) :
    (diagnostics.map normalize).Perm (others.map normalize) := by
  obtain ⟨middle, perm, alike⟩ := rearranged
  have same : middle.map normalize = others.map normalize := by
    clear perm
    induction alike with
    | nil => rfl
    | cons resembles _ ih => rw [List.map_cons, List.map_cons, normalize_eq_iff.mpr resembles, ih]
  exact same ▸ perm.map normalize

theorem Rearranged.headings (rearranged : Rearranged diagnostics others) :
    (diagnostics.map heading).Perm (others.map heading) := by
  have perm := rearranged.normalized.map heading
  rw [List.map_map, List.map_map] at perm
  exact perm

theorem headings_normalizeAll (diagnostics : List Diagnostic) :
    (normalizeAll diagnostics).map heading = sortOn orderOfHeading (diagnostics.map heading) := by
  have same : ∀ diagnostic : Diagnostic, orderOfHeading diagnostic.heading = diagnostic.order :=
    fun _ => rfl
  rw [normalizeAll, sort, map_sortOn same, List.map_map]
  rfl

theorem head_normalizeAll (diagnostic : Diagnostic) (rest : List Diagnostic) :
    ((normalizeAll (diagnostic :: rest)).filter (order · = diagnostic.order)).head? =
      some diagnostic.normalize := by
  rw [normalizeAll, sort, filter_key_sortOn, List.map_cons,
    List.filter_cons_of_pos (by simp [order_normalize]), List.head?_cons]

theorem normalizeAll_of_heading
    (same : ∀ left ∈ diagnostics, ∀ right ∈ diagnostics, left.heading = right.heading) :
    normalizeAll diagnostics = diagnostics.map normalize := by
  apply sortOn_of_pairwise
  apply List.pairwise_of_forall_mem_list
  intro left leftMem right rightMem
  obtain ⟨first, firstMem, rfl⟩ := List.mem_map.mp leftMem
  obtain ⟨second, secondMem, rfl⟩ := List.mem_map.mp rightMem
  rw [order_normalize, order_normalize, order_eq_iff.mpr (same first firstMem second secondMem)]
  exact Rank.atMost_refl _

/-- Diagnostics with one position, code and message differ in nothing but the order of labels and
notes. -/
def Separated (diagnostics : List Diagnostic) : Prop :=
  ∀ left ∈ diagnostics, ∀ right ∈ diagnostics, left.heading = right.heading → left.Resembles right

/-- Where the order of diagnostics does not show, any of those with one heading could come first. -/
theorem separated_of_constant
    (constant : ∀ others, diagnostics.Perm others → normalizeAll others = normalizeAll diagnostics) :
    Separated diagnostics := by
  have first : ∀ diagnostic ∈ diagnostics,
      ((normalizeAll diagnostics).filter (order · = diagnostic.order)).head? =
        some diagnostic.normalize := by
    -- The order is stable, so a diagnostic moved to the front leads those with its heading.
    intro diagnostic mem
    rw [← constant _ (List.perm_cons_erase mem), head_normalizeAll]
  intro left leftMem right rightMem same
  have leads := first left leftMem
  rw [order_eq_iff.mpr same, first right rightMem, Option.some.injEq] at leads
  exact normalize_eq_iff.mp leads.symm

theorem Separated.normalizeAll_eq (separated : Separated diagnostics)
    (rearranged : Rearranged diagnostics others) :
    normalizeAll others = normalizeAll diagnostics := by
  refine (sortOn_eq_of_perm rearranged.normalized ?_).symm
  intro left leftMem right rightMem same
  obtain ⟨first, firstMem, rfl⟩ := List.mem_map.mp leftMem
  obtain ⟨second, secondMem, rfl⟩ := List.mem_map.mp rightMem
  rw [order_normalize, order_normalize, order_eq_iff] at same
  exact normalize_eq_iff.mpr (separated first firstMem second secondMem same)

end Diagnostic

/-- In whatever order diagnostics, their labels and their notes come up, normalizing them gives the same
diagnostics, with positions, codes and messages in the same order. It gives the same list in all cases
just when diagnostics that agree in position, code and message differ at most in the order of their
labels and notes. -/
theorem normalized_alike_iff_separated (diagnostics : List Diagnostic) :
    (∀ others, Diagnostic.Rearranged diagnostics others →
      (Diagnostic.normalizeAll others).Perm (Diagnostic.normalizeAll diagnostics) ∧
        (Diagnostic.normalizeAll others).map Diagnostic.heading =
          (Diagnostic.normalizeAll diagnostics).map Diagnostic.heading) ∧
      ((∀ others, Diagnostic.Rearranged diagnostics others →
          Diagnostic.normalizeAll others = Diagnostic.normalizeAll diagnostics) ↔
        Diagnostic.Separated diagnostics) := by
  refine ⟨fun others rearranged => ?_, fun constant => ?_, fun separated others rearranged => ?_⟩
  · have perm : (Diagnostic.normalizeAll others).Perm (Diagnostic.normalizeAll diagnostics) :=
      (sortOn_perm _ _).trans (rearranged.normalized.symm.trans (sortOn_perm _ _).symm)
    refine ⟨perm, ?_⟩
    rw [Diagnostic.headings_normalizeAll, Diagnostic.headings_normalizeAll]
    apply (sortOn_eq_iff_perm Diagnostic.orderOfHeading_injective).mpr
    exact rearranged.headings.symm
  · apply Diagnostic.separated_of_constant
    exact fun others perm => constant others (.of_perm perm)
  · exact separated.normalizeAll_eq rearranged

/-- One method breaks the contracts of two methods that it overrides. -/
def brokenContract (overridden : Span) : Diagnostic where
  code := "ISO0003"
  severity := .error
  message := "isolation does not match the requirement or overridden member"
  primary := ⟨⟨0⟩, ⟨40, 44⟩⟩
  labels := [.secondary overridden "overridden here"]

/-- Which of the two contracts comes first is left to the order in which they were looked at. -/
theorem brokenContract_order_shows :
    let upper := brokenContract ⟨⟨0⟩, ⟨4, 8⟩⟩
    let lower := brokenContract ⟨⟨0⟩, ⟨20, 24⟩⟩
    Diagnostic.Rearranged [upper, lower] [lower, upper] ∧
      Diagnostic.normalizeAll [upper, lower] = [upper, lower] ∧
      Diagnostic.normalizeAll [lower, upper] = [lower, upper] ∧ upper ≠ lower := by
  have normal (overridden : Span) :
      (brokenContract overridden).normalize = brokenContract overridden := rfl
  have kept (first second : Span) :
      Diagnostic.normalizeAll [brokenContract first, brokenContract second] =
        [brokenContract first, brokenContract second] := by
    rw [Diagnostic.normalizeAll_of_heading (by simp [brokenContract, Diagnostic.heading])]
    simp only [List.map_cons, List.map_nil, normal]
  exact ⟨.of_perm (.swap ..), kept _ _, kept _ _, by decide⟩

end ActorIsolation
