import ActorIsolation.Diagnostic.Rendering
import ActorIsolation.Proofs.Order

/-! Suppression. The code of a violation tells its category, and no issue and no audit note carries such a
code. So leaving out the violations of some categories is the same as striking their codes from the
finished diagnostics.
-/

set_option autoImplicit false

namespace ActorIsolation

/-! ### Codes -/

namespace Code

def ofIssues : List Code := [isolationCycle, conflictingAnnotations, ambiguousInference, invalidSendable]

def ofAudits : List Code := [uncheckedSendable, nonisolatedUnsafe]

end Code

namespace Category

theorem code_id_injective : Function.Injective fun category : Category => category.code.id := by
  intro left right same
  cases left <;> cases right <;> first | rfl | exact absurd same (by decide)

theorem code_id_ne (category : Category) :
    ∀ code ∈ Code.ofIssues ++ Code.ofAudits, category.code.id ≠ code.id := by
  cases category <;> decide

def codes (categories : List Category) : List String := categories.map (·.code.id)

variable {categories : List Category}

theorem mem_codes {category : Category} : category.code.id ∈ codes categories ↔ category ∈ categories :=
  List.mem_map_of_injective code_id_injective

theorem not_mem_codes {code : Code} (other : code ∈ Code.ofIssues ++ Code.ofAudits) :
    code.id ∉ codes categories := by
  intro listed
  obtain ⟨category, -, same⟩ := List.mem_map.mp listed
  exact category.code_id_ne code other same

end Category

namespace Rendering

variable {graph : Graph} {severity : Severity}

theorem code_ofViolation (violation : Violation) :
    (ofViolation graph violation).code = violation.category.code.id := rfl

theorem code_ofResolutionIssue (issue : ResolutionIssue) :
    ∃ code ∈ Code.ofIssues, (ofResolutionIssue graph severity issue).code = code.id := by
  rcases issue with ⟨decl, kind⟩
  cases kind with
  | cycle => exact ⟨.isolationCycle, by decide, rfl⟩
  | conflictingAnnotations => exact ⟨.conflictingAnnotations, by decide, rfl⟩
  | ambiguousInference => exact ⟨.ambiguousInference, by decide, rfl⟩

theorem code_ofSendableIssue (issue : SendableIssue) :
    ∃ code ∈ Code.ofIssues, (ofSendableIssue graph severity issue).code = code.id := by
  rcases issue with ⟨type, kind⟩
  refine ⟨.invalidSendable, by decide, ?_⟩
  cases kind <;> rfl

theorem code_ofAudit (record : AuditRecord) :
    ∃ code ∈ Code.ofAudits, (ofAudit graph record).code = code.id := by
  rcases record with ⟨asserted, reason⟩
  cases reason with
  | nonisolatedUnsafe => exact ⟨.nonisolatedUnsafe, by decide, rfl⟩
  | transfer => exact ⟨.uncheckedSendable, by decide, rfl⟩
  | field => exact ⟨.uncheckedSendable, by decide, rfl⟩
  | sharedMutable => exact ⟨.uncheckedSendable, by decide, rfl⟩

end Rendering

/-! ### Filtering -/

/-- A test of the code alone gives the same before and after diagnostics are put in order. -/
theorem Diagnostic.filter_normalizeAll (keep : String → Bool) (diagnostics : List Diagnostic) :
    (normalizeAll diagnostics).filter (keep ·.code) = normalizeAll (diagnostics.filter (keep ·.code)) := by
  unfold normalizeAll sort
  rw [filter_sortOn, List.filter_map]
  rfl

theorem Diagnostic.length_normalizeAll (diagnostics : List Diagnostic) :
    (normalizeAll diagnostics).length = diagnostics.length := by
  simp [normalizeAll, sort, (sortOn_perm _ _).length_eq]

section

variable {categories : List Category} {graph : Graph}

theorem filter_violations (violations : List Violation) :
    (violations.map (Rendering.ofViolation graph)).filter (·.code ∉ Category.codes categories) =
      (violations.filter (·.category ∉ categories)).map (Rendering.ofViolation graph) := by
  rw [List.filter_map]
  simp only [Function.comp_def, Rendering.code_ofViolation, Category.mem_codes]

theorem filter_others {α : Type} {render : α → Diagnostic} {codes : List Code}
    (rendered : ∀ item, ∃ code ∈ codes, (render item).code = code.id)
    (others : codes ⊆ Code.ofIssues ++ Code.ofAudits) (items : List α) :
    (items.map render).filter (·.code ∉ Category.codes categories) = items.map render := by
  apply List.filter_eq_self.mpr
  intro diagnostic mem
  obtain ⟨item, -, rfl⟩ := List.mem_map.mp mem
  obtain ⟨code, listed, same⟩ := rendered item
  rw [same]
  exact decide_eq_true (Category.not_mem_codes (others listed))

end

/-- The diagnostics of any findings, with some categories suppressed, are those without suppression after
the diagnostics with the codes of these categories are deleted. Each violation that is not suppressed,
each issue and each audit record has one. -/
theorem diagnostics_suppressed (findings : Findings) (graph : Graph) (options : Options) :
    findings.diagnostics graph options =
        (findings.diagnostics graph { options with suppressed := [] }).filter
          (·.code ∉ Category.codes options.suppressed) ∧
      (findings.diagnostics graph options).length =
        (findings.violations.filter (·.category ∉ options.suppressed)).length +
          findings.resolutionIssues.length + findings.sendableIssues.length + findings.audit.length := by
  have suppressed (options : Options) : findings.violations.filter (!options.isSuppressed ·.category) =
      findings.violations.filter (·.category ∉ options.suppressed) := by
    simp [Options.isSuppressed]
  constructor
  · have issues : Code.ofIssues ⊆ Code.ofIssues ++ Code.ofAudits := List.subset_append_left ..
    have audits : Code.ofAudits ⊆ Code.ofIssues ++ Code.ofAudits := List.subset_append_right ..
    unfold Findings.diagnostics
    rw [Diagnostic.filter_normalizeAll (· ∉ Category.codes options.suppressed)]
    simp only [suppressed, List.filter_append, filter_violations,
      filter_others Rendering.code_ofResolutionIssue issues,
      filter_others Rendering.code_ofSendableIssue issues, filter_others Rendering.code_ofAudit audits]
    simp
  · simp only [Findings.diagnostics, Diagnostic.length_normalizeAll, suppressed, List.length_append,
      List.length_map]

end ActorIsolation
