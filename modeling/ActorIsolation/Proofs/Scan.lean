import ActorIsolation.Boundary.Scan
import ActorIsolation.Proofs.Walk
import ActorIsolation.Sendability.Conformance

/-! The scans of declarations, as far as they leave the ledger alone. Contracts and default values are
judged by isolation only, and the check of assertions touches the ledger through verdicts only.
-/

set_option autoImplicit false

namespace ActorIsolation

open Analysis (Yields)

variable {graph : Graph} {options : Options} {answers : DeclId → Isolation} {kept : Ledger → Prop}

theorem conformanceIssues_yields
    (verdicts : ∀ type site,
      Yields answers kept (fun _ => True) (sendabilityFrom graph options type site)) :
    Yields answers kept (fun _ => True) (conformanceIssues graph options) := by
  have sendability (home : ModuleId) (field : Declaration) : Yields answers kept (fun _ => True)
      (Conformance.fieldSendability graph options home field) := by
    unfold Conformance.fieldSendability
    split
    · exact .pure True.intro
    · exact verdicts _ _
  have fields (owner : DeclId) (kind : TypeKind) (field : Declaration) :
      Yields answers kept (fun _ => True)
        (Conformance.fieldIssues graph options owner kind field) := by
    refine (Walk.isGuarded_yields field).bind fun guarded _ => ?_
    split
    · exact .pure True.intro
    · exact (sendability _ field).bind fun _ _ => .pure True.intro
  have isolated (kind : TypeKind) (decl : Declaration) :
      Yields answers kept (fun _ => True) (Conformance.isIsolatedType kind decl) := by
    unfold Conformance.isIsolatedType
    split
    · exact .pure True.intro
    · exact (Yields.domain _).bind fun _ _ => .pure True.intro
  refine Yields.bind (.forEach fun decl => ?_) fun _ _ => .pure True.intro
  unfold Conformance.declIssues
  split
  · refine (isolated _ decl).bind fun isolated _ => ?_
    split
    · exact .pure True.intro
    · exact (Yields.forEach fun field => fields _ _ field).bind fun _ _ => .pure True.intro
  · exact .pure True.intro

namespace Boundary

def AtDecl (violation : Violation) : Prop := ∃ id, violation.subject = .decl id

theorem atDecl_declViolation {decl : Declaration} {category : Category} {related : Option DeclId}
    {source target : Domain} {span : Option Span} :
    AtDecl (declViolation options decl category related source target span) :=
  ⟨decl.id, rfl⟩

theorem contractViolations_yields :
    Yields answers kept (fun found => ∀ violation ∈ found, AtDecl violation)
      (contractViolations graph options) := by
  have exempt (target : Declaration) (witness : Domain) :
      Yields answers kept (fun _ => True) (isExempt graph target witness) := by
    unfold isExempt
    split
    · exact .pure True.intro
    · split
      · exact .pure True.intro
      · split
        · exact .pure True.intro
        · exact (Yields.domain _).bind fun _ _ => .pure True.intro
  have targets (decl : Declaration) (witness : Domain) (id : DeclId) :
      Yields answers kept (fun found => ∀ violation ∈ found, AtDecl violation)
        (targetViolations graph options decl witness id) := by
    unfold targetViolations
    split
    · exact .pure (by simp)
    · refine (Yields.domain _).bind fun expected _ => ?_
      split
      · exact .pure (by simp)
      · refine (exempt _ _).bind fun isExempt _ => ?_
        split
        · exact .pure (by simp)
        · exact .pure (by simp [atDecl_declViolation])
  refine Yields.forEach_all fun decl => ?_
  unfold declContractViolations
  split
  · exact .pure (by simp)
  · refine (Yields.domain _).bind fun witness _ => ?_
    split
    · exact Yields.forEach_all fun id => targets decl witness id
    · exact .pure (by simp)

theorem defaultViolations_yields :
    Yields answers kept (fun found => ∀ violation ∈ found, AtDecl violation)
      (defaultViolations graph options) := by
  have synthesized (owner : Declaration) :
      Yields answers kept (fun _ => True) (synthesizedContext owner) := by
    refine (Yields.domain _).bind fun domain _ => ?_
    split
    · exact .pure True.intro
    · exact .pure True.intro
  have contexts (owner : Declaration) :
      Yields answers kept (fun _ => True) (initContexts graph owner) := by
    unfold initContexts
    split
    · exact (synthesized owner).bind fun _ _ => .pure True.intro
    · refine Yields.bind (.forEach fun initializer => ?_) fun _ _ => .pure True.intro
      exact (Yields.domain _).bind fun _ _ => .pure True.intro
  have references (decl : Declaration) (span : Option Span) (domains : List Domain) (id : DeclId) :
      Yields answers kept (fun found => ∀ violation ∈ found, AtDecl violation)
        (referenceViolations options decl span domains id) := by
    refine (Yields.domain _).bind fun needed _ => ?_
    split
    · split
      · exact .pure (by simp [atDecl_declViolation])
      · exact .pure (by simp)
    · exact .pure (by simp)
  refine Yields.forEach_all fun decl => ?_
  unfold declDefaultViolations
  split
  · split
    · exact (contexts _).bind fun domains _ => Yields.forEach_all fun id => references _ _ domains id
    · exact .pure (by simp)
  · exact .pure (by simp)

/-- Several domains can reach the property: it is global, static, or storage of an actor or of a type of
a global actor. -/
inductive Reachable (graph : Graph) (answers : DeclId → Isolation) (decl : Declaration) : Prop where
  | topLevel : decl.enclosing = none → Reachable graph answers decl
  | static : decl.isStatic → Reachable graph answers decl
  | actorStorage {owner : Declaration} : graph.InType decl owner →
      owner.typeKind? = some .actor → Reachable graph answers decl
  | globalActorStorage {owner : Declaration} : graph.InType decl owner →
      (answers owner.id).domain.isGlobalActor → Reachable graph answers decl

theorem reachable_iff_of_instance {decl : Declaration}
    (instanceMember : ¬ (decl.isTopLevel || decl.isStatic) = true) :
    Reachable graph answers decl ↔ ∃ owner, graph.enclosingType? decl = some owner ∧
      (owner.typeKind? = some .actor ∨ (answers owner.id).domain.isGlobalActor) := by
  simp only [Declaration.isTopLevel, Bool.or_eq_true, Option.isNone_iff_eq_none, not_or] at instanceMember
  simp only [Graph.enclosingType?_eq_some]
  constructor
  · intro reachable
    cases reachable with
    | topLevel top => exact absurd top instanceMember.1
    | static static => exact absurd static instanceMember.2
    | actorStorage owned actor => exact ⟨_, owned, .inl actor⟩
    | globalActorStorage owned guarded => exact ⟨_, owned, .inr guarded⟩
  · rintro ⟨owner, owned, actor | guarded⟩
    · exact .actorStorage owned actor
    · exact .globalActorStorage owned guarded

theorem isShared_yields (decl : Declaration) :
    Yields answers kept (fun shared => shared = true ↔ Reachable graph answers decl)
      (isShared graph decl) := by
  unfold isShared
  split
  · rename_i outside
    refine .pure (iff_of_true rfl ?_)
    rcases (Bool.or_eq_true ..).mp outside with top | static
    · exact .topLevel (Option.isNone_iff_eq_none.mp top)
    · exact .static static
  · rename_i instanceMember
    simp only [reachable_iff_of_instance instanceMember]
    unfold isIsolatedStorage
    split
    · rename_i unowned
      exact .pure (by simp [unowned])
    · rename_i owner owned
      split
      · rename_i actor
        exact .pure (by simp [owned, actor])
      · rename_i notActor
        refine (Yields.domain owner.id).bind fun domain found => .pure ?_
        subst found
        simp [owned, notActor]

end Boundary

end ActorIsolation
