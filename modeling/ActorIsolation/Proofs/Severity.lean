import ActorIsolation.Proofs.Checker
import ActorIsolation.Proofs.Suppression

/-! The mode of a check and the severity of what it finds. Every analysis goes the same way in both modes
and comes to the same, except that violations carry the mode's severity. Neither violations nor
diagnostics are sorted by severity, so the lists correspond position by position.
-/

set_option autoImplicit false

namespace ActorIsolation

def Options.inMode (options : Options) (mode : Mode) : Options := { options with mode }

def Violation.inMode (mode : Mode) (violation : Violation) : Violation :=
  { violation with severity := mode.severity }

/-! ### What the mode plays no part in -/

namespace Walk

variable {graph : Graph} {options other : Options}

end Walk

section

variable {graph : Graph} {options : Options} {mode : Mode}

end

/-! ### Violations in two modes -/

/-- The second analysis goes the same way as the first, and finds the same violations with the severity of
the mode. -/
def Analysis.Switches (mode : Mode) (analysis switched : Analysis (List Violation)) : Prop :=
  switched = List.map (Violation.inMode mode) <$> analysis

namespace Analysis.Switches

variable {α : Type} {mode : Mode} {analysis switched rest restSwitched : Analysis (List Violation)}

theorem none : Switches mode (pure []) (pure []) := by
  simp [Switches]

theorem one (violation : Violation) : Switches mode (pure [violation]) (pure [violation.inMode mode]) := by
  simp [Switches]

theorem bind {first : Analysis α} {next nextSwitched : α → Analysis (List Violation)}
    (each : ∀ value, Switches mode (next value) (nextSwitched value)) :
    Switches mode (first >>= next) (first >>= nextSwitched) := by
  rw [Switches, map_bind]
  exact bind_congr each

theorem append (first : Switches mode analysis switched) (second : Switches mode rest restSwitched) :
    Switches mode (do return (← analysis) ++ (← rest)) (do return (← switched) ++ (← restSwitched)) := by
  rw [Switches] at *
  simp [first, second]

theorem forEach {work workSwitched : α → Analysis (List Violation)}
    (each : ∀ item, Switches mode (work item) (workSwitched item)) (items : List α) :
    Switches mode (Analysis.forEach work items) (Analysis.forEach workSwitched items) := by
  induction items with
  | nil => exact none
  | cons item items ih => exact append (each item) ih

theorem tracked (query : Query) (work : Switches mode analysis switched) :
    Switches mode (Analysis.tracked query Boundary.foundAny analysis)
      (Analysis.tracked query Boundary.foundAny switched) := by
  rw [Switches] at *
  simp [Analysis.tracked, Boundary.foundAny, work]

end Analysis.Switches

namespace Boundary

open Analysis (Switches)

variable {graph : Graph} {options : Options} {mode : Mode}

end Boundary

/-! ### Passes in two modes -/

def Findings.inMode (mode : Mode) (findings : Findings) : Findings :=
  { findings with violations := findings.violations.map (Violation.inMode mode) }

namespace Pass

variable (graph : Graph) (options : Options) (mode : Mode)

end Pass

/-! ### Diagnostics in two modes -/

theorem Mode.severity_ne_note (mode : Mode) : mode.severity ≠ .note := by
  cases mode <;> decide

namespace Diagnostic

def inMode (mode : Mode) (diagnostic : Diagnostic) : Diagnostic :=
  { diagnostic with severity := if diagnostic.severity = .note then .note else mode.severity }

theorem inMode_of_severity {diagnostic : Diagnostic} {mode : Mode}
    (graded : diagnostic.severity = mode.severity) (other : Mode) :
    diagnostic.inMode other = { diagnostic with severity := other.severity } := by
  rw [inMode, graded, if_neg mode.severity_ne_note]

end Diagnostic

namespace Rendering

variable {graph : Graph} {mode other : Mode}

end Rendering

/-! ### Severities -/

/-- The violations are the same but for their severities, each that of its mode. -/
structure Violation.Switched (mode other : Mode) (violation counterpart : Violation) : Prop where
  severity : violation.severity = mode.severity
  counterpart : counterpart = { violation with severity := other.severity }

/-- The diagnostics are the same but for their severities. An audit note is a note in both modes, and
everything else has the severity of its mode. -/
structure Diagnostic.Switched (mode other : Mode) (diagnostic counterpart : Diagnostic) : Prop where
  same : counterpart = { diagnostic with severity := counterpart.severity }
  audit : diagnostic.code ∈ Code.ofAudits.map (·.id) →
    diagnostic.severity = .note ∧ counterpart.severity = .note
  fault : diagnostic.code ∉ Code.ofAudits.map (·.id) →
    diagnostic.severity = mode.severity ∧ counterpart.severity = other.severity

namespace Diagnostic

variable {mode : Mode} {diagnostic : Diagnostic}

def Graded (mode : Mode) (diagnostic : Diagnostic) : Prop :=
  (diagnostic.code ∈ Code.ofAudits.map (·.id) ∧ diagnostic.severity = .note) ∨
    (diagnostic.code ∉ Code.ofAudits.map (·.id) ∧ diagnostic.severity = mode.severity)

theorem Graded.switched (graded : diagnostic.Graded mode) (other : Mode) :
    Switched mode other diagnostic (diagnostic.inMode other) := by
  rcases graded with ⟨audit, note⟩ | ⟨fault, severity⟩
  · refine ⟨rfl, fun _ => ⟨note, ?_⟩, fun unlisted => absurd audit unlisted⟩
    rw [inMode, if_pos note]
  · refine ⟨rfl, fun listed => absurd listed fault, fun _ => ⟨severity, ?_⟩⟩
    rw [inMode_of_severity severity]

end Diagnostic

namespace Rendering

variable {graph : Graph} {mode : Mode}

end Rendering

section

variable {graph : Graph} {options : Options} {findings : Findings}

end

end ActorIsolation
