import ActorIsolation.Proofs.Graph
import ActorIsolation.Sendability.Walk
import Mathlib.Logic.Relation
import Mathlib.Order.FixedPoints
import Mathlib.Order.CompletePartialOrder

/-! Sendability without a walk and without a memory. A use site is bad when the declaration there
settles the matter against it; otherwise it may point to the use sites of its fields' types. The
acceptable use sites are the largest set without bad sites that is closed under pointing, and these
are the sites from which no bad site can be reached.
-/

set_option autoImplicit false

namespace ActorIsolation

namespace TypeRef

mutual

def holdsPlainFunction : TypeRef → Bool
  | .primitive _ => false
  | .nominal _ => false
  | .tuple items => itemsHoldPlainFunction items
  | .optional wrapped => wrapped.holdsPlainFunction
  | .function sendable => !sendable

def itemsHoldPlainFunction : List TypeRef → Bool
  | [] => false
  | item :: items => item.holdsPlainFunction || itemsHoldPlainFunction items

end

/-- What a list of parts tells of the nominal types and of the functions in a type. -/
structure Lists (parts : List Part) (nominals : List DeclId) (plainFunction : Bool) : Prop where
  nominal : ∀ id, Part.nominal id ∈ parts ↔ id ∈ nominals
  refused : Part.plain .notSendable ∈ parts ↔ plainFunction
  unchecked : Part.plain .uncheckedSendable ∉ parts

mutual

theorem parts_list : ∀ type : TypeRef, Lists type.parts type.nominals type.holdsPlainFunction
  | .primitive _ => by constructor <;> simp [parts, nominals, holdsPlainFunction]
  | .nominal _ => by constructor <;> simp [parts, nominals, holdsPlainFunction]
  | .tuple items => by simpa only [parts, nominals, holdsPlainFunction] using partsOfItems_list items
  | .optional wrapped => by simpa only [parts, nominals, holdsPlainFunction] using parts_list wrapped
  | .function sendable => by
    cases sendable <;> constructor <;> simp [parts, nominals, holdsPlainFunction]

theorem partsOfItems_list : ∀ items : List TypeRef,
    Lists (partsOfItems items) (nominalsOfItems items) (itemsHoldPlainFunction items)
  | [] => by constructor <;> simp [partsOfItems, nominalsOfItems, itemsHoldPlainFunction]
  | item :: items => by
    have first := parts_list item
    have rest := partsOfItems_list items
    constructor
    · intro id
      simp only [partsOfItems, nominalsOfItems, List.mem_append, first.nominal, rest.nominal]
    · simp only [partsOfItems, itemsHoldPlainFunction, List.mem_append, first.refused, rest.refused,
        Bool.or_eq_true]
    · simp only [partsOfItems, List.mem_append, not_or]
      exact ⟨first.unchecked, rest.unchecked⟩

end

end TypeRef

namespace UseSite

variable (graph : Graph) (options : Options) (answers : DeclId → Isolation)

/-- An instance field that its type answers for. A class does not answer for one that a global actor
guards. -/
structure Counts (decl field : Declaration) : Prop where
  listed : graph.HasField decl.id field
  unguarded : decl.typeKind? = some .classType → (answers field.id).domain.isGlobalActor = false

def countedFields (decl : Declaration) : List Declaration :=
  (graph.storedFields decl.id).filter fun field =>
    !(decl.typeKind? = some .classType && (answers field.id).domain.isGlobalActor)

/-- Decided in the type's favour, whatever its fields. -/
inductive AcceptedAtSight (decl : Declaration) : Prop where
  | actor : decl.typeKind? = some .actor → AcceptedAtSight decl
  | globalActor : (answers decl.id).domain.isGlobalActor → AcceptedAtSight decl
  | unchecked : decl.sendable = .unchecked → AcceptedAtSight decl
  | checkedProtocol : decl.sendable = .checked → decl.typeKind? = some .protocol →
      AcceptedAtSight decl

/-- Decided against the type by its own declaration or by one of its fields, unless it was accepted
at sight. -/
inductive RefusedAtSight (decl : Declaration) (site : ModuleId) : Prop where
  | unassertedClass : decl.sendable = .absent → decl.typeKind? = some .classType →
      RefusedAtSight decl site
  | unassertedProtocol : decl.sendable = .absent → decl.typeKind? = some .protocol →
      RefusedAtSight decl site
  | subclassable : decl.sendable = .checked → decl.typeKind? = some .classType →
      decl.isFinal = false → RefusedAtSight decl site
  | foreignValue {kind : TypeKind} : decl.sendable = .absent → decl.typeKind? = some kind →
      kind.isValueType → site ≠ options.moduleOf decl.id → RefusedAtSight decl site
  | mutableField {field : Declaration} : decl.sendable = .checked →
      decl.typeKind? = some .classType → decl.isFinal → Counts graph answers decl field →
      field.isMutable → RefusedAtSight decl site
  | functionField {field : Declaration} {type : TypeRef} :
      Counts graph answers decl field → field.type = some type →
      type.holdsPlainFunction → RefusedAtSight decl site

inductive Bad : UseSite → Prop where
  | undeclared {id : DeclId} {site : ModuleId} : graph.decl? id = none → Bad ⟨id, site⟩
  | notType {id : DeclId} {site : ModuleId} {decl : Declaration} : graph.decl? id = some decl →
      decl.isType = false → Bad ⟨id, site⟩
  | refused {id : DeclId} {site : ModuleId} {decl : Declaration} : graph.decl? id = some decl →
      decl.isType → ¬ AcceptedAtSight answers decl →
      RefusedAtSight graph options answers decl site → Bad ⟨id, site⟩

/-- The types of a type's fields are used from the type's home. -/
inductive PointsTo : UseSite → UseSite → Prop where
  | field {id next : DeclId} {site : ModuleId} {decl field : Declaration} {type : TypeRef} :
      graph.decl? id = some decl → decl.isType → ¬ AcceptedAtSight answers decl →
      ¬ RefusedAtSight graph options answers decl site →
      Counts graph answers decl field → field.type = some type →
      next ∈ type.nominals → PointsTo ⟨id, site⟩ ⟨next, options.moduleOf decl.id⟩

def RestsOnWord (id : DeclId) : Prop :=
  ∃ decl, graph.decl? id = some decl ∧ decl.isType ∧ decl.typeKind? ≠ some .actor ∧
    ¬ (answers id).domain.isGlobalActor ∧ decl.sendable = .unchecked

/-- One round of demands on a set of use sites: none is bad, and none points out of the set. -/
def demand : Set UseSite →o Set UseSite where
  toFun accepted := {here | ¬ Bad graph options answers here ∧
    ∀ next, PointsTo graph options answers here next → next ∈ accepted}
  monotone' := fun _ _ wider _ ⟨sound, inside⟩ =>
    ⟨sound, fun next points => wider (inside next points)⟩

/-- The largest set of use sites that meets the demands. -/
def acceptable : Set UseSite := OrderHom.gfp (demand graph options answers)

/-- Around this use site lies a set of sites that is closed under pointing, and all of them are fine,
except that nothing is asked of the sites that are assumed. -/
def Upheld (fine : UseSite → Prop) (assumed : Set UseSite) (here : UseSite) : Prop :=
  ∃ held : Set UseSite, here ∈ held ∧ ∀ site ∈ held, site ∈ assumed ∨
    fine site ∧ ∀ next, PointsTo graph options answers site next → next ∈ held

def Tenable (assumed : Set UseSite) (here : UseSite) : Prop :=
  ∃ held : Set UseSite, here ∈ held ∧ held ⊆ assumed ∪ demand graph options answers held

open Classical in
/-- The verdict on a type used from a module, as the acceptable use sites alone determine it. -/
noncomputable def verdictOn (type : TypeRef) (site : ModuleId) : Sendability :=
  if type.holdsPlainFunction ∨
      ∃ id ∈ type.nominals, ⟨id, site⟩ ∉ acceptable graph options answers then .notSendable
  else if ∃ id ∈ type.nominals, RestsOnWord graph answers id then .uncheckedSendable
  else .sendable

variable {graph options answers} {assumed wider : Set UseSite} {here : UseSite}

theorem mem_countedFields {decl field : Declaration} :
    field ∈ countedFields graph answers decl ↔ Counts graph answers decl field := by
  rw [countedFields, List.mem_filter, Graph.mem_storedFields]
  simp only [Bool.not_eq_true', Bool.and_eq_false_imp, decide_eq_true_eq]
  exact ⟨fun ⟨listed, unguarded⟩ => ⟨listed, unguarded⟩, fun ⟨listed, unguarded⟩ => ⟨listed, unguarded⟩⟩

theorem verdictOn_eq_notSendable {type : TypeRef} {site : ModuleId} :
    verdictOn graph options answers type site = .notSendable ↔
      type.holdsPlainFunction ∨
        ∃ id ∈ type.nominals, ⟨id, site⟩ ∉ acceptable graph options answers := by
  unfold verdictOn
  split
  · simpa
  · rename_i clear
    simp only [clear, iff_false]
    split <;> simp

theorem tenable_empty : Tenable graph options answers ∅ here ↔
    here ∈ acceptable graph options answers := by
  constructor
  · rintro ⟨held, inside, closed⟩
    rw [Set.empty_union] at closed
    exact OrderHom.le_gfp (demand graph options answers) closed inside
  · intro accepted
    refine ⟨acceptable graph options answers, accepted, ?_⟩
    rw [Set.empty_union]
    exact (OrderHom.map_gfp (demand graph options answers)).ge

namespace Upheld

variable {fine finer : UseSite → Prop} {other : UseSite}

theorem mono (upheld : Upheld graph options answers finer assumed here)
    (weaken : ∀ site, finer site → fine site) (widen : assumed ⊆ wider) :
    Upheld graph options answers fine wider here := by
  obtain ⟨held, inside, closed⟩ := upheld
  refine ⟨held, inside, fun site mem => ?_⟩
  rcases closed site mem with mem | ⟨isFine, points⟩
  · exact .inl (widen mem)
  · exact .inr ⟨weaken site isFine, points⟩

theorem of_mem (mem : here ∈ assumed) : Upheld graph options answers fine assumed here :=
  ⟨assumed, mem, fun _ inside => .inl inside⟩

/-- What was assumed of a site while its fields were looked at need not be assumed once they all have
been upheld: the sets around them, together with the site, make up a set around it. -/
theorem discharge (isFine : fine here)
    (fields : ∀ next, PointsTo graph options answers here next →
      Upheld graph options answers fine (insert here assumed) next) :
    Upheld graph options answers fine assumed here := by
  let held : Set UseSite := {site | site = here ∨ ∃ around : Set UseSite, site ∈ around ∧
    ∀ site ∈ around, site ∈ insert here assumed ∨
      fine site ∧ ∀ next, PointsTo graph options answers site next → next ∈ around}
  have closed : ∀ next, PointsTo graph options answers here next → next ∈ held :=
    fun next points => .inr (fields next points)
  refine ⟨held, .inl rfl, ?_⟩
  rintro site (rfl | ⟨around, inside, closedAround⟩)
  · exact .inr ⟨isFine, closed⟩
  · -- Where the sets around the fields relied on the site, they now rely on its fields.
    rcases closedAround site inside with (rfl | mem) | ⟨siteFine, points⟩
    · exact .inr ⟨isFine, closed⟩
    · exact .inl mem
    · exact .inr ⟨siteFine, fun next step => .inr ⟨around, points next step, closedAround⟩⟩

theorem cut (upheld : Upheld graph options answers fine (insert other assumed) here)
    (discharged : Upheld graph options answers fine assumed other) :
    Upheld graph options answers fine assumed here := by
  obtain ⟨held, inside, closed⟩ := upheld
  obtain ⟨around, insideAround, closedAround⟩ := discharged
  have closedBoth : ∀ site ∈ around, site ∈ assumed ∨
      fine site ∧ ∀ next, PointsTo graph options answers site next → next ∈ held ∪ around := by
    intro site mem
    rcases closedAround site mem with mem | ⟨isFine, points⟩
    · exact .inl mem
    · exact .inr ⟨isFine, fun next step => .inr (points next step)⟩
  refine ⟨held ∪ around, .inl inside, ?_⟩
  rintro site (mem | mem)
  · rcases closed site mem with (rfl | mem) | ⟨isFine, points⟩
    · exact closedBoth site insideAround
    · exact .inl mem
    · exact .inr ⟨isFine, fun next step => .inl (points next step)⟩
  · exact closedBoth site mem

/-- Without assumptions, all that can be reached is fine. -/
theorem reached (upheld : Upheld graph options answers fine ∅ here)
    (leads : Relation.ReflTransGen (PointsTo graph options answers) here other) : fine other := by
  obtain ⟨held, inside, closed⟩ := upheld
  have clear : ∀ site ∈ held,
      fine site ∧ ∀ next, PointsTo graph options answers site next → next ∈ held :=
    fun site mem => (closed site mem).resolve_left (Set.notMem_empty site)
  have last : other ∈ held := by
    induction leads with
    | refl => exact inside
    | tail _ points ih => exact (clear _ ih).2 _ points
  exact (clear other last).1

end Upheld

theorem Tenable.mono (tenable : Tenable graph options answers assumed here)
    (widen : assumed ⊆ wider) : Tenable graph options answers wider here :=
  Upheld.mono tenable (fun _ sound => sound) widen

theorem Tenable.of_mem (mem : here ∈ assumed) : Tenable graph options answers assumed here :=
  Upheld.of_mem mem

theorem Tenable.discharge (sound : ¬ Bad graph options answers here)
    (fields : ∀ next, PointsTo graph options answers here next →
      Tenable graph options answers (insert here assumed) next) :
    Tenable graph options answers assumed here :=
  Upheld.discharge sound fields

theorem Tenable.cut {other : UseSite}
    (tenable : Tenable graph options answers (insert other assumed) here)
    (discharged : Tenable graph options answers assumed other) :
    Tenable graph options answers assumed here :=
  Upheld.cut tenable discharged

theorem not_acceptable_of_bad (bad : Bad graph options answers here) :
    here ∉ acceptable graph options answers := by
  intro accepted
  rw [acceptable, ← OrderHom.map_gfp] at accepted
  exact accepted.1 bad

theorem acceptable_of_pointsTo {next : UseSite} (accepted : here ∈ acceptable graph options answers)
    (points : PointsTo graph options answers here next) :
    next ∈ acceptable graph options answers := by
  rw [acceptable, ← OrderHom.map_gfp] at accepted
  exact accepted.2 next points

/-- Acceptable use sites are those from which no bad one can be reached. -/
theorem mem_acceptable_iff : here ∈ acceptable graph options answers ↔
    ∀ other, Relation.ReflTransGen (PointsTo graph options answers) here other →
      ¬ Bad graph options answers other := by
  constructor
  · intro accepted other reached
    exact Upheld.reached (tenable_empty.mpr accepted) reached
  · intro clean
    -- All that is reached meets the demands on its own, so it is below the largest such set.
    let reachable : Set UseSite :=
      {other | Relation.ReflTransGen (PointsTo graph options answers) here other}
    have closed : reachable ≤ demand graph options answers reachable := by
      intro other reached
      exact ⟨clean other reached, fun next points => reached.tail points⟩
    exact OrderHom.le_gfp _ closed .refl

end UseSite

end ActorIsolation
