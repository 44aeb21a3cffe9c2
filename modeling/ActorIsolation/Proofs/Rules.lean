import ActorIsolation.Isolation.Rule
import ActorIsolation.Proofs.Graph
import ActorIsolation.Proofs.Inquiry
import ActorIsolation.Proofs.Order
import Mathlib.Data.Set.Subsingleton

/-! The order of the rules as one equation. Given the isolation of every other declaration, each rule
either says something of a declaration or nothing, and the first that says something is right.
Candidates are taken as a set: neither their order nor how often one is met plays a part.
-/

set_option autoImplicit false

namespace ActorIsolation

namespace Annotation

/-- Both ways to write that a declaration is not isolated count as one. -/
def plain : Annotation → Annotation
  | .nonisolatedUnsafe => .nonisolated
  | mark => mark

def meaning : Annotation → Isolation
  | .nonisolated | .nonisolatedUnsafe => .nonisolated .explicit
  | .globalActor actor => ⟨.globalActor actor, .explicit⟩
  | .isolatedParameter _ actor => ⟨.actorInstance actor, .isolatedParameter⟩

theorem meaning_plain (mark : Annotation) : mark.plain.meaning = mark.meaning := by
  cases mark <;> rfl

end Annotation

/-! ### What each rule says -/

namespace Prescription

noncomputable def election (origin : Origin) (candidates : Set DeclId) : Option Isolation :=
  open Classical in
  if candidates.Nontrivial then some (.nonisolated .ambiguous)
  else if candidate : candidates.Nonempty then some ⟨.globalActor candidate.some, origin⟩
  else none

theorem election_none {origin : Origin} {candidates : Set DeclId} (empty : candidates = ∅) :
    election origin candidates = none := by
  rw [election, if_neg (by simp [empty]), dif_neg (by simp [empty])]

theorem election_one {origin : Origin} {candidates : Set DeclId} {actor : DeclId}
    (only : candidates = {actor}) :
    election origin candidates = some ⟨.globalActor actor, origin⟩ := by
  have chosen : ∀ candidate : candidates.Nonempty, candidate.some = actor := by
    intro candidate
    exact Set.mem_singleton_iff.mp (only ▸ candidate.some_mem)
  have single : ¬ candidates.Nontrivial := by simp [only]
  have present : candidates.Nonempty := by simp [only]
  rw [election, if_neg single, dif_pos present, chosen]

theorem election_several {origin : Origin} {candidates : Set DeclId}
    (several : candidates.Nontrivial) :
    election origin candidates = some (.nonisolated .ambiguous) := by
  rw [election, if_pos several]

variable (graph : Graph) (options : Options) (table : DeclId → Isolation) (decl : Declaration)

def actorsOf (ids : Set DeclId) : Set DeclId :=
  {actor | ∃ id ∈ ids, (table id).domain = .globalActor actor}

def written : Option Isolation :=
  if ∃ one ∈ decl.annotations, ∃ other ∈ decl.annotations, one.plain ≠ other.plain then
    some (.nonisolated .conflict)
  else decl.annotations.head?.map Annotation.meaning

def surroundings (inherits : Bool) : Option Isolation :=
  if inherits then decl.enclosing.map fun parent => ⟨(table parent).domain, .closureContext⟩
  else none

def actorness : Option Isolation :=
  if decl.kind = .type .actor then
    some ⟨if decl.isGlobalActor then .globalActor decl.id else .actorInstance decl.id, .actorType⟩
  else none

def primaryProtocols : Set DeclId :=
  {protocol | ∃ conformance ∈ decl.conformances,
    conformance.scope = .primary ∧ conformance.protocol = protocol}

open Classical in
noncomputable def actorInstance : Option Isolation :=
  if ∃ owner, graph.InType decl owner ∧ owner.isPlainActor ∧ ¬ decl.isStatic then
    decl.enclosing.map fun owner => ⟨.actorInstance owner,
      if decl.kind = .storedProperty then .actorStorage else .actorSelf⟩
  else none

/-- The program starts here, or this is mutable state at the top level of the file where it does. -/
def IsEntry : Prop :=
  decl.isEntryPoint ∨
    decl.enclosing = none ∧ decl.inEntryFile ∧ decl.kind = .storedProperty ∧ decl.isMutable

instance : Decidable (IsEntry decl) := inferInstanceAs (Decidable (_ ∨ _))

def entry : Option Isolation :=
  if IsEntry decl then options.entryPointActor.map fun actor => ⟨.globalActor actor, .entryPoint⟩
  else none

def extensionActor : Option Isolation :=
  match decl.scope with
  | .primary => none
  | .extension id => ((graph.extension? id).bind (·.globalActor)).map fun actor =>
      ⟨.globalActor actor, .extension⟩

open Classical in
/-- A type's global actor is that of its members too. What it has from a conformance stays in the
scope that states the conformance. -/
noncomputable def typeActor : Option Isolation :=
  if ∃ owner, graph.InType decl owner ∧
      ¬ (decl.scope ≠ .primary ∧ (table owner.id).origin = .conformance) then
    decl.enclosing.bind fun owner =>
      (table owner).domain.globalActor?.map fun actor => ⟨.globalActor actor, .enclosingType⟩
  else none

def witnessed : Set DeclId :=
  {id | id ∈ decl.satisfies ∧ ∃ owner required protocol,
    graph.InType decl owner ∧ graph.decl? id = some required ∧
      required.enclosing = some protocol ∧ graph.Conforms owner.id protocol decl.scope}

/-- What the rules say of a declaration, in the order in which they count. -/
noncomputable def opinions : List (Option Isolation) :=
  written decl ::
    match decl.kind with
    | .closure inherits => [surroundings table decl inherits]
    | .type _ =>
      [actorness decl,
        election .conformance (actorsOf table (primaryProtocols decl)),
        election .inheritance (actorsOf table {id | id ∈ decl.supertypes})]
    | .function | .storedProperty =>
      [actorInstance graph decl,
        entry options decl,
        extensionActor graph decl,
        typeActor graph table decl,
        election .requirement (actorsOf table (witnessed graph decl)),
        election .override (actorsOf table {id | id ∈ decl.overrides})]

end Prescription

/-- The isolation that the rules prescribe, where that of the other declarations is as in the table. -/
noncomputable def Declaration.prescribed (graph : Graph) (options : Options)
    (table : DeclId → Isolation) (decl : Declaration) : Isolation :=
  ((Prescription.opinions graph options table decl).findSome? fun opinion => opinion).getD .fallback

/-! ### What the inquiries come to -/

namespace Rule

variable (graph : Graph) (options : Options) (table : DeclId → Isolation) (decl : Declaration)

def opinion (rule : Rule) : Option Isolation := (rule.against table).map (·.isolation)

theorem opinion_skip : opinion table skip = none := rfl

theorem opinion_decide (domain : Domain) (origin : Origin) :
    opinion table (decide domain origin) = some ⟨domain, origin⟩ := rfl

theorem firstOf_against (rules : List Rule) :
    ((firstOf rules).against table).isolation =
      ((rules.map (opinion table)).findSome? fun opinion => opinion).getD .fallback := by
  induction rules with
  | nil => rfl
  | cons rule rest ih =>
    cases said : rule.against table with
    | none => simpa [firstOf, opinion, said] using ih
    | some ruling => simp [firstOf, opinion, said]

theorem mem_globalActors (ids : List DeclId) (actor : DeclId) :
    actor ∈ (globalActors ids).against table ↔
      actor ∈ Prescription.actorsOf table {id | id ∈ ids} := by
  induction ids with
  | nil => simp [globalActors, Prescription.actorsOf]
  | cons id rest ih =>
    have first : (table id).domain.globalActor? = some actor ↔
        (table id).domain = .globalActor actor := by
      cases (table id).domain <;> simp [Domain.globalActor?]
    simp only [Prescription.actorsOf, Set.mem_ofPred_eq] at ih ⊢
    simp [globalActors, ih, first]

theorem elect_isolation (origin : Origin) (candidates : List DeclId) :
    (Ruling.elect origin candidates).map (·.isolation) =
      Prescription.election origin {actor | actor ∈ candidates} := by
  have same : ∀ actor, actor ∈ ascending candidates ↔ actor ∈ candidates := fun actor =>
    mem_ascending Rank.delimited_declId.injective
  have distinct := (ascending_ascends candidates).nodup
  unfold Ruling.elect
  split
  · rename_i none
    rw [Prescription.election_none (by ext actor; simp [← same, none])]
    rfl
  · rename_i actor only
    have single : {actor | actor ∈ candidates} = {actor} := by
      ext other
      simp [← same, only]
    rw [Prescription.election_one single]
    rfl
  · rename_i noneLeft notOne
    obtain ⟨first, second, rest, several⟩ :
        ∃ first second rest, ascending candidates = first :: second :: rest := by
      match shape : ascending candidates with
      | [] => exact absurd shape noneLeft
      | [actor] => exact absurd shape (notOne actor)
      | first :: second :: rest => exact ⟨first, second, rest, rfl⟩
    rw [several] at same distinct
    have different : first ≠ second := by
      rintro rfl
      simp at distinct
    rw [Prescription.election_several
      ⟨first, (same first).mp (by simp), second, (same second).mp (by simp), different⟩]
    rfl

theorem opinion_electFrom (origin : Origin) (ids : List DeclId) :
    opinion table (electFrom origin ids) =
      Prescription.election origin (Prescription.actorsOf table {id | id ∈ ids}) := by
  have candidates : {actor | actor ∈ (globalActors ids).against table} =
      Prescription.actorsOf table {id | id ∈ ids} := by
    ext actor
    exact mem_globalActors table ids actor
  rw [← candidates, ← elect_isolation]
  simp [opinion, electFrom]

theorem mem_writtenAnnotations (mark : Annotation) :
    mark ∈ writtenAnnotations decl ↔ ∃ one ∈ decl.annotations, one.plain = mark := by
  change mark ∈ ascending (decl.annotations.map Annotation.plain) ↔ _
  rw [mem_ascending Rank.delimited_annotation.injective, List.mem_map]

theorem opinion_explicit : opinion table (explicit decl) = Prescription.written decl := by
  have mem := mem_writtenAnnotations decl
  have distinct : (writtenAnnotations decl).Nodup := (ascending_ascends _).nodup
  match shape : writtenAnnotations decl with
  | [] =>
    have none : decl.annotations = [] := List.eq_nil_iff_forall_not_mem.mpr fun mark present => by
      have listed := (mem mark.plain).mpr ⟨mark, present, rfl⟩
      simp [shape] at listed
    simp [explicit, shape, opinion_skip, Prescription.written, none]
  | [mark] =>
    have all : ∀ one ∈ decl.annotations, one.plain = mark := fun one present => by
      have listed := (mem one.plain).mpr ⟨one, present, rfl⟩
      simpa [shape] using listed
    have agree : ¬ ∃ one ∈ decl.annotations, ∃ other ∈ decl.annotations, one.plain ≠ other.plain := by
      rintro ⟨one, present, other, also, different⟩
      exact different ((all one present).trans (all other also).symm)
    obtain ⟨first, present, rfl⟩ := (mem mark).mp (by simp [shape])
    obtain ⟨head, rest, list⟩ := List.exists_cons_of_ne_nil (List.ne_nil_of_mem present)
    have said : opinion table (explicit decl) = some first.plain.meaning := by
      unfold explicit
      rw [shape]
      cases first.plain <;> rfl
    rw [said, ← all head (by simp [list]), head.meaning_plain]
    rw [Prescription.written, if_neg agree, list, List.head?_cons, Option.map_some]
  | first :: second :: rest =>
    obtain ⟨one, present, rfl⟩ := (mem first).mp (by simp [shape])
    obtain ⟨other, also, rfl⟩ := (mem second).mp (by simp [shape])
    have different : one.plain ≠ other.plain := by
      intro same
      simp [shape, same] at distinct
    have conflict : ∃ one ∈ decl.annotations, ∃ other ∈ decl.annotations, one.plain ≠ other.plain :=
      ⟨one, present, other, also, different⟩
    simp only [Prescription.written, if_pos conflict]
    simp [explicit, shape, opinion]

theorem opinion_closureContext (inherits : Bool) :
    opinion table (closureContext decl inherits) = Prescription.surroundings table decl inherits := by
  unfold closureContext Prescription.surroundings
  cases inherits <;> cases decl.enclosing <;> rfl

theorem opinion_actorType : opinion table (actorType decl) = Prescription.actorness decl := by
  have same : decl.typeKind? = some .actor ↔ decl.kind = .type .actor := by
    cases kind : decl.kind <;> simp [Declaration.typeKind?, kind]
  by_cases actor : decl.kind = .type .actor
  · simp [actorType, same, actor, Prescription.actorness, opinion_decide]
  · simp [actorType, same, actor, Prescription.actorness, opinion_skip]

theorem opinion_conformance : opinion table (conformance decl) =
    Prescription.election .conformance
      (Prescription.actorsOf table (Prescription.primaryProtocols decl)) := by
  rw [conformance, opinion_electFrom]
  congr 2
  ext protocol
  simp [Prescription.primaryProtocols, and_assoc]

theorem opinion_actorMember :
    opinion table (actorMember graph decl) = Prescription.actorInstance graph decl := by
  unfold actorMember Prescription.actorInstance
  simp only [← Graph.enclosingType?_eq_some]
  cases found : graph.enclosingType? decl with
  | none => simp [opinion_skip]
  | some owner =>
    have inside := (Graph.enclosingType?_eq_some.mp found).inside
    cases actor : owner.isPlainActor <;> cases static : decl.isStatic <;>
      simp [actor, inside, opinion_decide, opinion_skip]

theorem isEntry_iff : (decl.isEntryPoint || isEntryState decl) = true ↔ Prescription.IsEntry decl := by
  simp [isEntryState, Prescription.IsEntry, Declaration.isTopLevel, and_assoc]

theorem opinion_entryPoint :
    opinion table (entryPoint options decl) = Prescription.entry options decl := by
  unfold entryPoint Prescription.entry
  cases options.entryPointActor with
  | none => simp [opinion_skip]
  | some actor =>
    by_cases entry : Prescription.IsEntry decl
    · simp only [isEntry_iff, entry, if_true, opinion_decide, Option.map_some]
    · simp only [isEntry_iff, entry, if_false, opinion_skip]

theorem opinion_extensionAttribute :
    opinion table (extensionAttribute graph decl) = Prescription.extensionActor graph decl := by
  unfold extensionAttribute Prescription.extensionActor
  cases decl.scope with
  | primary => rfl
  | extension id =>
    cases on : (graph.extension? id).bind (·.globalActor) <;>
      simp [on, opinion_decide, opinion_skip]

theorem opinion_enclosingType :
    opinion table (enclosingType graph decl) = Prescription.typeActor graph table decl := by
  unfold enclosingType Prescription.typeActor
  simp only [← Graph.enclosingType?_eq_some]
  cases found : graph.enclosingType? decl with
  | none => simp [opinion_skip]
  | some owner =>
    have inside := (Graph.enclosingType?_eq_some.mp found).inside
    cases actor : (table owner.id).domain.globalActor? with
    | none => simp [opinion, actor, inside, skip]
    | some actor' =>
      by_cases primary : decl.scope = .primary <;>
        by_cases conformed : (table owner.id).origin = .conformance <;>
          simp [opinion, actor, inside, primary, conformed, decide, skip, Ruling.plain]

theorem opinion_requirement : opinion table (requirement graph decl) =
    Prescription.election .requirement
      (Prescription.actorsOf table (Prescription.witnessed graph decl)) := by
  rw [requirement, opinion_electFrom]
  congr 2
  ext id
  simp only [List.mem_filter, Prescription.witnessed, Set.mem_ofPred_eq, isInScope,
    ← Graph.enclosingType?_eq_some, ← Graph.conformanceScope?_eq_some]
  cases graph.enclosingType? decl <;> cases graph.decl? id <;> simp [Option.bind_eq_some_iff]

end Rule

theorem ruling_against (graph : Graph) (options : Options) (table : DeclId → Isolation)
    (decl : Declaration) : ((decl.ruling graph options).against table).isolation =
      decl.prescribed graph options table := by
  rw [Declaration.ruling, Rule.firstOf_against, Declaration.prescribed]
  have said : (Rule.rules graph options decl).map (Rule.opinion table) =
      Prescription.opinions graph options table decl := by
    unfold Rule.rules Prescription.opinions
    cases decl.kind <;>
      simp only [List.map_cons, List.map_nil, Rule.opinion_explicit, Rule.opinion_closureContext,
        Rule.opinion_actorType, Rule.opinion_conformance, Rule.inheritance, Rule.opinion_electFrom,
        Rule.opinion_actorMember, Rule.opinion_entryPoint, Rule.opinion_extensionAttribute,
        Rule.opinion_enclosingType, Rule.opinion_requirement, Rule.overridden]
  rw [said]

/-! ### What the inquiries are made of -/

namespace Rule

section

variable {allowed : DeclId → Prop} {holds : (α : Type) → Inquiry α → Prop}
  (composable : Inquiry.Composable allowed holds)

include composable

theorem firstOf_holds {rules : List Rule} (each : ∀ rule ∈ rules, holds (Option Ruling) rule) :
    holds Ruling (firstOf rules) := by
  induction rules with
  | nil => exact composable.done _
  | cons rule rest ih =>
    refine composable.bind (each rule (by simp)) fun decision => ?_
    cases decision with
    | none => exact ih fun later mem => each later (List.mem_cons_of_mem _ mem)
    | some ruling => exact composable.done ruling

theorem electFrom_holds {origin : Origin} {ids : List DeclId} (each : ∀ id ∈ ids, allowed id) :
    holds (Option Ruling) (electFrom origin ids) := by
  refine composable.bind ?_ fun _ => composable.done _
  induction ids with
  | nil => exact composable.done _
  | cons id rest ih =>
    refine composable.bind (composable.isolation (each id (by simp))) fun isolation => ?_
    have others := ih fun other mem => each other (List.mem_cons_of_mem _ mem)
    exact composable.bind others fun _ => composable.done _

end

variable {graph : Graph} {options : Options} {decl : Declaration}
  {holds : (α : Type) → Inquiry α → Prop}

section

variable (composable : Inquiry.Composable (· ∈ decl.dependencies) holds)

include composable

theorem closureContext_holds (inherits : Bool) :
    holds (Option Ruling) (closureContext decl inherits) := by
  unfold closureContext
  split
  · rename_i enclosing
    have permitted := Declaration.mem_dependencies.mpr (.inl enclosing)
    exact composable.bind (composable.isolation permitted) fun _ => composable.done _
  · exact composable.done _

theorem enclosingType_holds : holds (Option Ruling) (enclosingType graph decl) := by
  unfold enclosingType
  split
  · exact composable.done _
  · rename_i owner found
    have enclosing := (Graph.enclosingType?_eq_some.mp found).inside
    have permitted := Declaration.mem_dependencies.mpr (.inl enclosing)
    refine composable.bind (composable.isolation permitted) fun outer => ?_
    split
    · split <;> exact composable.done _
    · exact composable.done _

theorem ruling_holds : holds Ruling (decl.ruling graph options) := by
  have allowed := @Declaration.mem_dependencies decl
  apply firstOf_holds composable
  intro rule mem
  unfold Rule.rules at mem
  -- What is written comes first for every kind; the other rules depend on the kind.
  rcases List.mem_cons.mp mem with rfl | mem
  · unfold Rule.explicit
    split <;> exact composable.done _
  cases kind : decl.kind with
  | closure inherits =>
    rw [kind, List.mem_singleton] at mem
    exact mem ▸ closureContext_holds composable inherits
  | type type =>
    simp only [kind, List.mem_cons, List.not_mem_nil, or_false] at mem
    rcases mem with rfl | rfl | rfl
    · unfold Rule.actorType
      split <;> exact composable.done _
    · apply electFrom_holds composable
      intro id mem
      obtain ⟨conformance, stated, rfl⟩ := List.mem_map.mp mem
      exact allowed.mpr (.inr (.inr (.inr (.inl ⟨conformance, List.mem_of_mem_filter stated, rfl⟩))))
    · exact electFrom_holds composable fun id mem => allowed.mpr (.inr (.inr (.inr (.inr mem))))
  | function | storedProperty =>
    simp only [kind, List.mem_cons, List.not_mem_nil, or_false] at mem
    rcases mem with rfl | rfl | rfl | rfl | rfl | rfl
    · unfold Rule.actorMember
      split
      · split <;> exact composable.done _
      · exact composable.done _
    · unfold Rule.entryPoint
      split
      · split <;> exact composable.done _
      · exact composable.done _
    · unfold Rule.extensionAttribute
      split
      · exact composable.done _
      · split <;> exact composable.done _
    · exact enclosingType_holds composable
    · exact electFrom_holds composable fun id mem =>
        allowed.mpr (.inr (.inl (List.mem_of_mem_filter mem)))
    · exact electFrom_holds composable fun id mem => allowed.mpr (.inr (.inr (.inl mem)))

end

end Rule

theorem ruling_asksOnly (graph : Graph) (options : Options) (decl : Declaration) :
    (decl.ruling graph options).AsksOnly (· ∈ decl.dependencies) :=
  Rule.ruling_holds (Inquiry.AsksOnly.composable _)

/-- The rules write nothing down: what they find fault with is part of their ruling. -/
theorem ruling_mute (graph : Graph) (options : Options) (decl : Declaration) :
    (decl.ruling graph options).Mute :=
  Rule.ruling_holds (Inquiry.Mute.composable _)

/-- What is prescribed hangs on the isolation of dependencies only. -/
theorem prescribed_congr {graph : Graph} {options : Options} {decl : Declaration}
    {table other : DeclId → Isolation} (agree : ∀ id ∈ decl.dependencies, table id = other id) :
    decl.prescribed graph options table = decl.prescribed graph options other := by
  -- Read back as an inquiry, which asks for nothing but dependencies.
  rw [← ruling_against, ← ruling_against, (ruling_asksOnly graph options decl).against_congr _ agree]

/-! ### Which rule has spoken -/

namespace Prescription

def From (origins : List Origin) (opinion : Option Isolation) : Prop :=
  ∀ isolation ∈ opinion, isolation.origin ∈ origins

@[simp] theorem from_none {origins : List Origin} : From origins none := by
  rintro _ ⟨⟩

@[simp] theorem from_some {origins : List Origin} {isolation : Isolation} :
    From origins (some isolation) ↔ isolation.origin ∈ origins := by
  simp [From]

theorem From.without {origins : List Origin} {opinion : Option Isolation} {origin : Origin}
    (spoken : From origins opinion) (absent : origin ∉ origins) :
    ∀ isolation ∈ opinion, isolation.origin ≠ origin :=
  fun isolation said same => absent (same ▸ spoken isolation said)

theorem from_map {α : Type} {origins : List Origin} {reading : α → Isolation}
    (each : ∀ value, (reading value).origin ∈ origins) (value : Option α) :
    From origins (value.map reading) := by
  cases value with
  | none => exact from_none
  | some value => exact from_some.mpr (each value)

theorem from_election (origin : Origin) (candidates : Set DeclId) :
    From [.ambiguous, origin] (election origin candidates) := by
  rcases candidates.subsingleton_or_nontrivial with few | several
  · rcases few.eq_empty_or_singleton with empty | ⟨actor, only⟩
    · rw [election_none empty]
      exact from_none
    · simp [election_one only]
  · simp [election_several several, Isolation.nonisolated]

variable (graph : Graph) (options : Options) (table : DeclId → Isolation) (decl : Declaration)

theorem from_written : From [.conflict, .explicit, .isolatedParameter] (written decl) := by
  unfold written
  split
  · simp [Isolation.nonisolated]
  · apply from_map
    intro mark
    cases mark <;> simp [Isolation.nonisolated, Annotation.meaning]

theorem from_surroundings (inherits : Bool) :
    From [.closureContext] (surroundings table decl inherits) := by
  cases inherits
  · exact from_none
  · exact from_map (by simp) _

theorem from_actorness : From [.actorType] (actorness decl) := by
  unfold actorness
  split <;> simp

theorem from_actorInstance : From [.actorStorage, .actorSelf] (actorInstance graph decl) := by
  unfold actorInstance
  split
  · refine from_map (fun owner => ?_) _
    dsimp only
    split <;> simp
  · simp

theorem from_entry : From [.entryPoint] (entry options decl) := by
  unfold entry
  split
  · exact from_map (by simp) _
  · simp

theorem from_extensionActor : From [.extension] (extensionActor graph decl) := by
  unfold extensionActor
  split
  · simp
  · exact from_map (by simp) _

theorem from_typeActor : From [.enclosingType] (typeActor graph table decl) := by
  unfold typeActor
  split
  · cases decl.enclosing with
    | none => exact from_none
    | some owner => exact from_map (by simp) _
  · simp

theorem opinions_without_cycle : ∀ opinion ∈ opinions graph options table decl,
    ∀ isolation ∈ opinion, isolation.origin ≠ .cycle := by
  unfold opinions
  refine List.forall_mem_cons.mpr ⟨(from_written decl).without (by simp), ?_⟩
  cases decl.kind with
  | closure inherits =>
    simp only [List.forall_mem_singleton]
    exact (from_surroundings table decl inherits).without (by simp)
  | type type =>
    simp only [List.forall_mem_cons, List.not_mem_nil, false_imp_iff, implies_true, and_true]
    exact ⟨(from_actorness decl).without (by simp), (from_election _ _).without (by simp),
      (from_election _ _).without (by simp)⟩
  | function | storedProperty =>
    simp only [List.forall_mem_cons, List.not_mem_nil, false_imp_iff, implies_true, and_true]
    exact ⟨(from_actorInstance graph decl).without (by simp), (from_entry options decl).without (by simp),
      (from_extensionActor graph decl).without (by simp),
      (from_typeActor graph table decl).without (by simp), (from_election _ _).without (by simp),
      (from_election _ _).without (by simp)⟩

end Prescription

theorem prescribed_origin (graph : Graph) (options : Options) (table : DeclId → Isolation)
    (decl : Declaration) : (decl.prescribed graph options table).origin ≠ .cycle := by
  unfold Declaration.prescribed
  cases said : (Prescription.opinions graph options table decl).findSome? fun opinion => opinion with
  | none => decide
  | some isolation =>
    obtain ⟨opinion, mem, rfl⟩ := List.exists_of_findSome?_eq_some said
    exact Prescription.opinions_without_cycle graph options table decl _ mem isolation rfl

end ActorIsolation
