import ActorIsolation.Proofs.Crossing
import ActorIsolation.Proofs.Order
import Mathlib.Logic.Relation

/-! Which programs are accepted. What a well-formed program is, is said by its references alone: where a
reference can stand, what it has to lead to, and that nothing encloses itself. Accepting is shown to be
exact from both sides: an accepted graph has all of this, and a defect that is reported is there.
-/

set_option autoImplicit false

namespace ActorIsolation

/-! ### References -/

inductive TypeRef.Mentions : TypeRef → DeclId → Prop where
  | nominal {id : DeclId} : Mentions (.nominal id) id
  | item {items : List TypeRef} {item : TypeRef} {id : DeclId} : item ∈ items → Mentions item id →
      Mentions (.tuple items) id
  | wrapped {type : TypeRef} {id : DeclId} : Mentions type id → Mentions (.optional type) id

namespace TypeRef

theorem mem_nominalsOfItems {id : DeclId} {items : List TypeRef} :
    id ∈ nominalsOfItems items ↔ ∃ item ∈ items, id ∈ item.nominals := by
  induction items with
  | nil => simp [nominalsOfItems]
  | cons item items ih => simp [nominalsOfItems, ih]

theorem mentions_of_mem_nominals {id : DeclId} : ∀ type : TypeRef, id ∈ type.nominals → type.Mentions id
  | .primitive _, mem => by simp [nominals] at mem
  | .nominal _, mem => by
    obtain rfl := List.mem_singleton.mp mem
    exact .nominal
  | .tuple items, mem => by
    obtain ⟨item, listed, inside⟩ := mem_nominalsOfItems.mp mem
    exact .item listed (mentions_of_mem_nominals item inside)
  | .optional wrapped, mem => .wrapped (mentions_of_mem_nominals wrapped mem)
  | .function _, mem => by simp [nominals] at mem

theorem mem_nominals {type : TypeRef} {id : DeclId} : id ∈ type.nominals ↔ type.Mentions id := by
  refine ⟨mentions_of_mem_nominals type, fun mentions => ?_⟩
  induction mentions with
  | nominal => exact List.mem_singleton_self _
  | item listed _ ih => exact mem_nominalsOfItems.mpr ⟨_, listed, ih⟩
  | wrapped _ ih => exact ih

end TypeRef

inductive Declaration.RefersTo (decl : Declaration) : Role → DeclId → Prop where
  | enclosing {id : DeclId} : decl.enclosing = some id → RefersTo decl .enclosing id
  | globalActor {id : DeclId} : .globalActor id ∈ decl.annotations → RefersTo decl .actor id
  | isolatedParameter {name : String} {id : DeclId} : .isolatedParameter name id ∈ decl.annotations →
      RefersTo decl .actor id
  | requirement {id : DeclId} : id ∈ decl.satisfies → RefersTo decl .requirement id
  | overridden {id : DeclId} : id ∈ decl.overrides → RefersTo decl .overridden id
  | protocol {conformance : Conformance} : conformance ∈ decl.conformances →
      RefersTo decl .protocol conformance.protocol
  | supertype {id : DeclId} : id ∈ decl.supertypes → RefersTo decl .supertype id
  | type {type : TypeRef} {id : DeclId} : decl.type = some type → type.Mentions id → RefersTo decl .type id
  | defaultReference {value : DefaultValue} {id : DeclId} : decl.defaultValue = some value →
      id ∈ value.references → RefersTo decl .defaultReference id

inductive Declaration.WrittenIn (decl : Declaration) (id : ExtensionId) : Prop where
  | member : decl.scope = .extension id → WrittenIn decl id
  | conformance {conformance : Conformance} : conformance ∈ decl.conformances →
      conformance.scope = .extension id → WrittenIn decl id

inductive Extension.RefersTo (extension : Extension) : Role → DeclId → Prop where
  | extended : RefersTo extension .extended extension.extended
  | actor {id : DeclId} : extension.globalActor = some id → RefersTo extension .actor id

inductive CallEdge.RefersTo (edge : CallEdge) : Role → DeclId → Prop where
  | caller : RefersTo edge .caller edge.caller
  | callee : RefersTo edge .callee edge.callee
  | argument {value : Transfer} {id : DeclId} : value ∈ edge.arguments → value.type.Mentions id →
      RefersTo edge .type id
  | capture {value : Transfer} {id : DeclId} : value ∈ edge.captures → value.type.Mentions id →
      RefersTo edge .type id
  | result {type : TypeRef} {id : DeclId} : edge.result = some type → type.Mentions id →
      RefersTo edge .type id

namespace Draft

def Declares (draft : Draft) (id : DeclId) : Prop := ∃ decl ∈ draft.decls, decl.id = id

def Extends (draft : Draft) (id : ExtensionId) : Prop := ∃ extension ∈ draft.extensions, extension.id = id

inductive Refers (draft : Draft) : Referrer → Role → DeclId → Prop where
  | decl {decl : Declaration} {role : Role} {id : DeclId} : decl ∈ draft.decls → decl.RefersTo role id →
      Refers draft (.decl decl.id) role id
  | extension {extension : Extension} {role : Role} {id : DeclId} : extension ∈ draft.extensions →
      extension.RefersTo role id → Refers draft (.extension extension.id) role id
  | edge {edge : CallEdge} {role : Role} {id : DeclId} : edge ∈ draft.edges → edge.RefersTo role id →
      Refers draft (.edge edge.id) role id

structure WellFormed (draft : Draft) : Prop where
  decls_distinct : (draft.decls.map (·.id)).Nodup
  extensions_distinct : (draft.extensions.map (·.id)).Nodup
  edges_distinct : (draft.edges.map (·.id)).Nodup
  resolves : ∀ referrer role id, draft.Refers referrer role id → draft.Declares id
  extended : ∀ decl ∈ draft.decls, ∀ id, decl.WrittenIn id → draft.Extends id
  typed : ∀ decl ∈ draft.decls, decl.kind = .storedProperty → ∃ type, decl.type = some type
  /-- No declaration is inside itself, however far. -/
  acyclic : ∀ id, ¬ Relation.TransGen draft.Inside id id

/-- The defect is there: what it names is in the program, and is wrong in the way it says. -/
inductive Has (draft : Draft) : Defect → Prop where
  | repeatedDecl {id : DeclId} : 2 ≤ (draft.decls.map (·.id)).count id → Has draft (.repeatedDecl id)
  | repeatedExtension {id : ExtensionId} : 2 ≤ (draft.extensions.map (·.id)).count id →
      Has draft (.repeatedExtension id)
  | repeatedEdge {id : EdgeId} : 2 ≤ (draft.edges.map (·.id)).count id → Has draft (.repeatedEdge id)
  | unknownDecl {referrer : Referrer} {role : Role} {id : DeclId} : draft.Refers referrer role id →
      ¬ draft.Declares id → Has draft (.unknownDecl referrer id role)
  | unknownExtension {decl : Declaration} {id : ExtensionId} : decl ∈ draft.decls → decl.WrittenIn id →
      ¬ draft.Extends id → Has draft (.unknownExtension (.decl decl.id) id)
  | untypedProperty {decl : Declaration} : decl ∈ draft.decls → decl.kind = .storedProperty →
      decl.type = none → Has draft (.untypedProperty decl.id)
  /-- The way outwards from the declaration leads to one that is inside itself. -/
  | endlessEnclosing {decl : Declaration} {id : DeclId} : decl ∈ draft.decls →
      Relation.ReflTransGen draft.Inside decl.id id → Relation.TransGen draft.Inside id id →
      Has draft (.endlessEnclosing decl.id)

theorem WellFormed.not_has {draft : Draft} (wellFormed : draft.WellFormed) {defect : Defect} :
    ¬ draft.Has defect := by
  have once {α : Type} [DecidableEq α] {ids : List α} {id : α} (distinct : ids.Nodup) :
      ¬ 2 ≤ ids.count id := by
    have atMostOnce := List.nodup_iff_count_le_one.mp distinct id
    omega
  intro has
  cases has with
  | repeatedDecl twice => exact once wellFormed.decls_distinct twice
  | repeatedExtension twice => exact once wellFormed.extensions_distinct twice
  | repeatedEdge twice => exact once wellFormed.edges_distinct twice
  | unknownDecl refers unknown => exact unknown (wellFormed.resolves _ _ _ refers)
  | unknownExtension declared written unknown => exact unknown (wellFormed.extended _ declared _ written)
  | untypedProperty declared property untyped =>
    obtain ⟨type, typed⟩ := wellFormed.typed _ declared property
    rw [untyped] at typed
    cases typed
  | endlessEnclosing _ _ cycle => exact wellFormed.acyclic _ cycle

/-! ### Defects that are reported -/

variable {draft : Draft} {defect : Defect} {referrer : Referrer} {role : Role} {id : DeclId}

theorem decl?_isSome : (draft.decl? id).isSome ↔ draft.Declares id := by
  simp [decl?, Declares]

theorem extension?_isSome {id : ExtensionId} : (draft.extension? id).isSome ↔ draft.Extends id := by
  simp [extension?, Extends]

@[simp] theorem mem_unknownDecl : defect ∈ draft.unknownDecl referrer role id ↔
    ¬ draft.Declares id ∧ defect = .unknownDecl referrer id role := by
  rw [unknownDecl, ← decl?_isSome]
  split <;> simp [*]

@[simp] theorem mem_unknownNominals {type : TypeRef} : defect ∈ draft.unknownNominals referrer type ↔
    ∃ id, type.Mentions id ∧ ¬ draft.Declares id ∧ defect = .unknownDecl referrer id .type := by
  simp [unknownNominals, TypeRef.mem_nominals]

@[simp] theorem mem_unknownScope {scope : Scope} : defect ∈ draft.unknownScope referrer scope ↔
    ∃ id, scope = .extension id ∧ ¬ draft.Extends id ∧ defect = .unknownExtension referrer id := by
  cases scope with
  | primary => simp [unknownScope]
  | extension id =>
    by_cases known : draft.Extends id
    · simp [unknownScope, extension?_isSome.mpr known, known]
    · simp [unknownScope, extension?_isSome.not.mpr known, known]

@[simp] theorem mem_unknownActor {mark : Annotation} :
    defect ∈ draft.unknownActor referrer mark ↔
      ∃ id, (mark = .globalActor id ∨ ∃ name, mark = .isolatedParameter name id) ∧
        ¬ draft.Declares id ∧ defect = .unknownDecl referrer id .actor := by
  cases mark <;> simp [unknownActor]

theorem mem_declDefects {decl : Declaration} : defect ∈ draft.declDefects decl ↔
    (∃ role id, decl.RefersTo role id ∧ ¬ draft.Declares id ∧
      defect = .unknownDecl (.decl decl.id) id role) ∨
    (∃ id, decl.WrittenIn id ∧ ¬ draft.Extends id ∧ defect = .unknownExtension (.decl decl.id) id) ∨
    (decl.kind = .storedProperty ∧ decl.type = none ∧ defect = .untypedProperty decl.id) := by
  constructor
  · intro mem
    simp only [declDefects, List.mem_append, List.mem_flatMap, Option.mem_toList, mem_unknownDecl,
      mem_unknownScope, mem_unknownActor] at mem
    rcases mem with (((((((enclosing | scope) | actor) | requirement) | overridden) | conformance) |
      supertype) | typed) | default
    · obtain ⟨id, inside, unknown, rfl⟩ := enclosing
      exact .inl ⟨_, id, .enclosing inside, unknown, rfl⟩
    · obtain ⟨id, written, unknown, rfl⟩ := scope
      exact .inr (.inl ⟨id, .member written, unknown, rfl⟩)
    · obtain ⟨mark, written, id, rfl | ⟨name, rfl⟩, unknown, rfl⟩ := actor
      · exact .inl ⟨_, id, .globalActor written, unknown, rfl⟩
      · exact .inl ⟨_, id, .isolatedParameter written, unknown, rfl⟩
    · obtain ⟨id, listed, unknown, rfl⟩ := requirement
      exact .inl ⟨_, id, .requirement listed, unknown, rfl⟩
    · obtain ⟨id, listed, unknown, rfl⟩ := overridden
      exact .inl ⟨_, id, .overridden listed, unknown, rfl⟩
    · obtain ⟨conformance, stated, ⟨unknown, rfl⟩ | ⟨id, written, unknown, rfl⟩⟩ := conformance
      · exact .inl ⟨_, _, .protocol stated, unknown, rfl⟩
      · exact .inr (.inl ⟨id, .conformance stated written, unknown, rfl⟩)
    · obtain ⟨id, listed, unknown, rfl⟩ := supertype
      exact .inl ⟨_, id, .supertype listed, unknown, rfl⟩
    · cases ascribed : decl.type with
      | some type =>
        rw [ascribed] at typed
        obtain ⟨id, mentions, unknown, rfl⟩ := mem_unknownNominals.mp typed
        exact .inl ⟨_, id, .type ascribed mentions, unknown, rfl⟩
      | none =>
        rw [ascribed] at typed
        obtain ⟨property, rfl⟩ : decl.kind = .storedProperty ∧ defect = .untypedProperty decl.id := by
          simpa using typed
        exact .inr (.inr ⟨property, rfl, rfl⟩)
    · obtain ⟨value, given, id, listed, unknown, rfl⟩ := default
      exact .inl ⟨_, id, .defaultReference given listed, unknown, rfl⟩
  · have ofAnnotation : defect ∈ decl.annotations.flatMap (draft.unknownActor (.decl decl.id)) →
        defect ∈ draft.declDefects decl := by
      intro found
      simp only [declDefects, List.mem_append, found, true_or, or_true]
    have ofConformance : (defect ∈ decl.conformances.flatMap fun conformance =>
        draft.unknownDecl (.decl decl.id) .protocol conformance.protocol ++
          draft.unknownScope (.decl decl.id) conformance.scope) → defect ∈ draft.declDefects decl := by
      intro found
      simp only [declDefects, List.mem_append, found, true_or, or_true]
    rintro (⟨role, id, refers, unknown, rfl⟩ | ⟨id, written, unknown, rfl⟩ | ⟨property, untyped, rfl⟩)
    · cases refers with
      | enclosing inside => simp [declDefects, inside, unknown]
      | globalActor written =>
        exact ofAnnotation (List.mem_flatMap.mpr
          ⟨_, written, mem_unknownActor.mpr ⟨id, .inl rfl, unknown, rfl⟩⟩)
      | isolatedParameter written =>
        exact ofAnnotation (List.mem_flatMap.mpr
          ⟨_, written, mem_unknownActor.mpr ⟨id, .inr ⟨_, rfl⟩, unknown, rfl⟩⟩)
      | requirement listed => simp [declDefects, listed, unknown]
      | overridden listed => simp [declDefects, listed, unknown]
      | protocol stated =>
        exact ofConformance (List.mem_flatMap.mpr
          ⟨_, stated, List.mem_append_left _ (mem_unknownDecl.mpr ⟨unknown, rfl⟩)⟩)
      | supertype listed => simp [declDefects, listed, unknown]
      | type typed mentions => simp [declDefects, typed, mentions, unknown]
      | defaultReference given listed => simp [declDefects, given, listed, unknown]
    · cases written with
      | member written => simp [declDefects, written, unknown]
      | conformance stated written =>
        exact ofConformance (List.mem_flatMap.mpr
          ⟨_, stated, List.mem_append_right _ (mem_unknownScope.mpr ⟨id, written, unknown, rfl⟩)⟩)
    · simp [declDefects, property, untyped]

theorem mem_extensionDefects {extension : Extension} : defect ∈ draft.extensionDefects extension ↔
    ∃ role id, extension.RefersTo role id ∧ ¬ draft.Declares id ∧
      defect = .unknownDecl (.extension extension.id) id role := by
  constructor
  · intro mem
    simp only [extensionDefects, List.mem_append, List.mem_flatMap, Option.mem_toList,
      mem_unknownDecl] at mem
    rcases mem with ⟨unknown, rfl⟩ | ⟨id, isolated, unknown, rfl⟩
    · exact ⟨_, _, .extended, unknown, rfl⟩
    · exact ⟨_, id, .actor isolated, unknown, rfl⟩
  · rintro ⟨role, id, refers, unknown, rfl⟩
    cases refers with
    | extended => simp [extensionDefects, unknown]
    | actor isolated => simp [extensionDefects, isolated, unknown]

theorem mem_edgeDefects {edge : CallEdge} : defect ∈ draft.edgeDefects edge ↔
    ∃ role id, edge.RefersTo role id ∧ ¬ draft.Declares id ∧
      defect = .unknownDecl (.edge edge.id) id role := by
  constructor
  · intro mem
    simp only [edgeDefects, List.mem_append, List.mem_flatMap, Option.mem_toList, mem_unknownDecl,
      mem_unknownNominals] at mem
    rcases mem with ((⟨unknown, rfl⟩ | ⟨unknown, rfl⟩) |
      ⟨value, listed | listed, id, mentions, unknown, rfl⟩) | ⟨type, returned, id, mentions, unknown, rfl⟩
    · exact ⟨_, _, .caller, unknown, rfl⟩
    · exact ⟨_, _, .callee, unknown, rfl⟩
    · exact ⟨_, id, .argument listed mentions, unknown, rfl⟩
    · exact ⟨_, id, .capture listed mentions, unknown, rfl⟩
    · exact ⟨_, id, .result returned mentions, unknown, rfl⟩
  · rintro ⟨role, id, refers, unknown, rfl⟩
    have ofValue {value : Transfer} (listed : value ∈ edge.arguments ++ edge.captures)
        (mentions : value.type.Mentions id) :
        .unknownDecl (.edge edge.id) id .type ∈ draft.edgeDefects edge := by
      simp only [edgeDefects, List.mem_append, List.mem_flatMap, mem_unknownNominals]
      exact .inl (.inr ⟨value, List.mem_append.mp listed, id, mentions, unknown, rfl⟩)
    cases refers with
    | caller => simp [edgeDefects, unknown]
    | callee => simp [edgeDefects, unknown]
    | argument listed mentions => exact ofValue (List.mem_append_left _ listed) mentions
    | capture listed mentions => exact ofValue (List.mem_append_right _ listed) mentions
    | result returned mentions => simp [edgeDefects, returned, mentions, unknown]

theorem mem_referenceDefects_of_refers (refers : draft.Refers referrer role id)
    (unknown : ¬ draft.Declares id) : .unknownDecl referrer id role ∈ draft.referenceDefects := by
  simp only [referenceDefects, List.mem_append, List.mem_flatMap]
  cases refers with
  | decl declared refers =>
    exact .inl (.inl (.inl ⟨_, declared, mem_declDefects.mpr (.inl ⟨role, id, refers, unknown, rfl⟩)⟩))
  | extension listed refers =>
    exact .inl (.inr ⟨_, listed, mem_extensionDefects.mpr ⟨role, id, refers, unknown, rfl⟩⟩)
  | edge listed refers => exact .inr ⟨_, listed, mem_edgeDefects.mpr ⟨role, id, refers, unknown, rfl⟩⟩

theorem has_of_mem_referenceDefects (mem : defect ∈ draft.referenceDefects) : draft.Has defect := by
  simp only [referenceDefects, List.mem_append, List.mem_flatMap, List.mem_map, List.mem_filter] at mem
  rcases mem with ((⟨decl, declared, inDecl⟩ | ⟨decl, ⟨declared, endless⟩, rfl⟩) |
    ⟨extension, listed, inExtension⟩) | ⟨edge, listed, inEdge⟩
  · rcases mem_declDefects.mp inDecl with ⟨role, id, refers, unknown, rfl⟩ | ⟨id, written, unknown, rfl⟩ |
      ⟨property, untyped, rfl⟩
    · exact .unknownDecl (.decl declared refers) unknown
    · exact .unknownExtension declared written unknown
    · exact .untypedProperty declared property untyped
  · obtain ⟨outer, reached, cycle⟩ := leadsToCycle_of_isEndless declared endless
    exact .endlessEnclosing declared reached cycle
  · obtain ⟨role, id, refers, unknown, rfl⟩ := mem_extensionDefects.mp inExtension
    exact .unknownDecl (.extension listed refers) unknown
  · obtain ⟨role, id, refers, unknown, rfl⟩ := mem_edgeDefects.mp inEdge
    exact .unknownDecl (.edge listed refers) unknown

/-! ### Repeated ids -/

theorem count_of_mem_repeatsAfter {α : Type} [DecidableEq α] {values seen : List α} {value : α}
    (mem : value ∈ repeatsAfter seen values) :
    value ∈ values ∧ (value ∈ seen ∨ 2 ≤ values.count value) := by
  induction values generalizing seen with
  | nil => simp [repeatsAfter] at mem
  | cons first rest ih =>
    unfold repeatsAfter at mem
    split at mem
    · rename_i before
      rcases List.mem_cons.mp mem with rfl | later
      · exact ⟨List.mem_cons_self, .inl before⟩
      · obtain ⟨inRest, known⟩ := ih later
        refine ⟨List.mem_cons_of_mem _ inRest, known.imp_right fun twice => ?_⟩
        exact Nat.le_trans twice List.count_le_count_cons
    · obtain ⟨inRest, known⟩ := ih mem
      refine ⟨List.mem_cons_of_mem _ inRest, ?_⟩
      rcases known with known | twice
      · rcases List.mem_cons.mp known with rfl | before
        · -- Met now and again in the rest.
          rw [List.count_cons_self]
          exact .inr (Nat.succ_le_succ (List.count_pos_iff.mpr inRest))
        · exact .inl before
      · exact .inr (Nat.le_trans twice List.count_le_count_cons)

theorem count_of_mem_repeats {α : Type} [DecidableEq α] {values : List α} {value : α}
    (mem : value ∈ repeats values) : 2 ≤ values.count value := by
  simpa using (count_of_mem_repeatsAfter mem).2

theorem has_of_mem_repetitions (mem : defect ∈ draft.repetitions) : draft.Has defect := by
  simp only [repetitions, List.mem_append, List.mem_map] at mem
  rcases mem with (⟨id, twice, rfl⟩ | ⟨id, twice, rfl⟩) | ⟨id, twice, rfl⟩
  · exact .repeatedDecl (count_of_mem_repeats twice)
  · exact .repeatedExtension (count_of_mem_repeats twice)
  · have sortedTwice := count_of_mem_repeats twice
    rw [sorted, (sortOn_perm rank _).count_eq] at sortedTwice
    exact .repeatedEdge sortedTwice

/-! ### The order of the items -/

/-- The same items in another order. -/
structure Rearranges (draft other : Draft) : Prop where
  decls : draft.decls.Perm other.decls
  extensions : draft.extensions.Perm other.extensions
  edges : draft.edges.Perm other.edges

theorem inOrder_rearranges (draft : Draft) : draft.inOrder.Rearranges draft :=
  ⟨sortOn_perm _ _, sortOn_perm _ _, sortOn_perm _ _⟩

namespace Rearranges

variable {other : Draft}

theorem symm (same : draft.Rearranges other) : other.Rearranges draft :=
  ⟨same.decls.symm, same.extensions.symm, same.edges.symm⟩

theorem declares (same : draft.Rearranges other) : draft.Declares id ↔ other.Declares id := by
  simp only [Declares, same.decls.mem_iff]

theorem extends_iff (same : draft.Rearranges other) {id : ExtensionId} :
    draft.Extends id ↔ other.Extends id := by
  simp only [Extends, same.extensions.mem_iff]

theorem inside (same : draft.Rearranges other) : draft.Inside = other.Inside := by
  funext inner outer
  simp only [Inside, same.decls.mem_iff]

theorem refers (same : draft.Rearranges other) (refers : draft.Refers referrer role id) :
    other.Refers referrer role id := by
  cases refers with
  | decl declared refers => exact .decl (same.decls.mem_iff.mp declared) refers
  | extension listed refers => exact .extension (same.extensions.mem_iff.mp listed) refers
  | edge listed refers => exact .edge (same.edges.mem_iff.mp listed) refers

theorem has (same : draft.Rearranges other) (has : draft.Has defect) : other.Has defect := by
  cases has with
  | repeatedDecl twice =>
    rw [(same.decls.map _).count_eq] at twice
    exact .repeatedDecl twice
  | repeatedExtension twice =>
    rw [(same.extensions.map _).count_eq] at twice
    exact .repeatedExtension twice
  | repeatedEdge twice =>
    rw [(same.edges.map _).count_eq] at twice
    exact .repeatedEdge twice
  | unknownDecl refers unknown =>
    exact .unknownDecl (same.refers refers) (mt same.declares.mpr unknown)
  | unknownExtension declared written unknown =>
    exact .unknownExtension (same.decls.mem_iff.mp declared) written (mt same.extends_iff.mpr unknown)
  | untypedProperty declared property untyped =>
    exact .untypedProperty (same.decls.mem_iff.mp declared) property untyped
  | endlessEnclosing declared reached cycle =>
    rw [same.inside] at reached cycle
    exact .endlessEnclosing (same.decls.mem_iff.mp declared) reached cycle

theorem wellFormed (same : draft.Rearranges other) (wellFormed : draft.WellFormed) : other.WellFormed where
  decls_distinct := (same.decls.map _).nodup_iff.mp wellFormed.decls_distinct
  extensions_distinct := (same.extensions.map _).nodup_iff.mp wellFormed.extensions_distinct
  edges_distinct := (same.edges.map _).nodup_iff.mp wellFormed.edges_distinct
  resolves referrer role id refers :=
    same.declares.mp (wellFormed.resolves referrer role id (same.symm.refers refers))
  extended decl declared id written :=
    same.extends_iff.mp (wellFormed.extended decl (same.decls.mem_iff.mpr declared) id written)
  typed decl declared := wellFormed.typed decl (same.decls.mem_iff.mpr declared)
  acyclic := same.inside ▸ wellFormed.acyclic

theorem inOrder_eq (same : draft.Rearranges other) (wellFormed : draft.WellFormed) :
    draft.inOrder = other.inOrder := by
  have byId {α β : Type} [Ranked β] (injective : Function.Injective (rank : β → List Nat)) {key : α → β}
      {items others : List α} (perm : items.Perm others) (distinct : (items.map key).Nodup) :
      sortOn (fun item => rank (key item)) items = sortOn (fun item => rank (key item)) others := by
    refine sortOn_eq_of_perm perm fun left mem right mem' ranks => ?_
    exact List.inj_on_of_nodup_map distinct mem mem' (injective ranks)
  unfold inOrder
  rw [byId Rank.delimited_declId.injective same.decls wellFormed.decls_distinct,
    byId (by rintro ⟨_⟩ ⟨_⟩ same; simpa [rank] using same) same.extensions wellFormed.extensions_distinct,
    byId (by rintro ⟨_⟩ ⟨_⟩ same; simpa [rank] using same) same.edges wellFormed.edges_distinct]

end Rearranges

theorem has_of_mem_defects (mem : defect ∈ draft.defects) : draft.Has defect := by
  rcases List.mem_append.mp mem with repetition | reference
  · exact has_of_mem_repetitions repetition
  · exact draft.inOrder_rearranges.has (has_of_mem_referenceDefects reference)

end Draft

/-! ### Accepted graphs -/

namespace Graph

variable {graph : Graph} {draft : Draft}

/-- All that a well-formed program promises holds of an accepted graph. -/
theorem wellFormed (graph : Graph) : graph.WellFormed where
  decls_distinct := graph.ids_nodup
  extensions_distinct := nodup_of_ascending graph.extensions_ascending
  edges_distinct := nodup_of_ascending graph.edges_ascending
  resolves referrer role id refers := by
    by_contra unknown
    have listed := Draft.mem_referenceDefects_of_refers refers unknown
    rw [graph.sound] at listed
    cases listed
  extended decl declared id written := by
    by_contra unknown
    have listed := Draft.mem_declDefects.mpr (.inr (.inl ⟨id, written, unknown, rfl⟩))
    rw [declDefects_eq_nil declared] at listed
    cases listed
  typed decl declared property := storedProperty_typed declared property
  acyclic _ := not_onCycle

theorem eq_of_toDraft {other : Graph} (same : graph.toDraft = other.toDraft) : graph = other := by
  cases graph with
  | mk toDraft plan plan_eq =>
    cases other with
    | mk toDraft' plan' plan_eq' =>
      obtain rfl : toDraft = toDraft' := same
      subst plan_eq plan_eq'
      rfl

theorem inOrder_of_build (built : build draft = .ok graph) : graph.toDraft = draft.inOrder := by
  unfold build at built
  split at built
  · cases built
  · cases built
    rfl

theorem has_of_build {defect : Defect} (refused : build draft = .error defect) : draft.Has defect := by
  unfold build at refused
  split at refused
  · rename_i first rest found
    cases refused
    exact Draft.has_of_mem_defects (found ▸ List.mem_cons_self)
  · cases refused

theorem build_of_wellFormed (wellFormed : draft.WellFormed) : ∃ graph, build draft = .ok graph := by
  cases outcome : build draft with
  | ok graph => exact ⟨graph, rfl⟩
  | error defect => exact absurd (has_of_build outcome) wellFormed.not_has

theorem wellFormed_of_build (built : build draft = .ok graph) : draft.WellFormed := by
  refine draft.inOrder_rearranges.wellFormed ?_
  rw [← inOrder_of_build built]
  exact graph.wellFormed

theorem build_eq_of_inOrder (wellFormed : draft.WellFormed) (same : graph.toDraft = draft.inOrder) :
    build draft = .ok graph := by
  obtain ⟨built, accepted⟩ := build_of_wellFormed wellFormed
  rw [accepted, eq_of_toDraft (same.trans (inOrder_of_build accepted).symm)]

/-- The graph holds the items of the program, those and no others, and in order. -/
structure Holds (graph : Graph) (draft : Draft) : Prop where
  decls : graph.decls.Perm draft.decls
  extensions : graph.extensions.Perm draft.extensions
  edges : graph.edges.Perm draft.edges
  decls_ascend : graph.decls.Pairwise fun left right => left.id.number < right.id.number
  edges_ascend : graph.edges.Pairwise fun left right => left.id.number < right.id.number
  decl? : ∀ id decl, graph.decl? id = some decl ↔ decl ∈ draft.decls ∧ decl.id = id
  extension? : ∀ id extension,
    graph.extension? id = some extension ↔ extension ∈ draft.extensions ∧ extension.id = id
  members : ∀ parent decl,
    decl ∈ graph.members parent ↔ decl ∈ draft.decls ∧ decl.enclosing = some parent
  members_ascend : ∀ parent,
    (graph.members parent).Pairwise fun left right => left.id.number < right.id.number

theorem holds_of_build (built : build draft = .ok graph) : graph.Holds draft := by
  have same : graph.toDraft.Rearranges draft := inOrder_of_build built ▸ draft.inOrder_rearranges
  have ascending := graph.decls_ascending
  refine
    { decls := same.decls
      extensions := same.extensions
      edges := same.edges
      decls_ascend := ascending
      edges_ascend := graph.edges_ascending
      decl? := fun id decl => ?_
      extension? := fun id extension => ?_
      members := fun parent decl => ?_
      members_ascend := fun parent => ascending.sublist List.filter_sublist }
  · rw [← same.decls.mem_iff]
    exact find?_key_eq_some graph.ids_nodup
  · rw [← same.extensions.mem_iff]
    exact find?_key_eq_some graph.wellFormed.extensions_distinct
  · rw [← same.decls.mem_iff]
    simp [Graph.members]

end Graph

/-- A program is accepted just when it is well-formed. The graph then holds its items, in whatever order
they are given, and a program that is refused has the defect that is reported. -/
theorem build_exact (draft : Draft) :
    ((∃ graph, Graph.build draft = .ok graph) ↔ draft.WellFormed) ∧
      (∀ graph, Graph.build draft = .ok graph →
        graph.Holds draft ∧ ∀ other, draft.Rearranges other → Graph.build other = .ok graph) ∧
      ∀ defect, Graph.build draft = .error defect → draft.Has defect := by
  refine ⟨⟨fun ⟨graph, built⟩ => Graph.wellFormed_of_build built, Graph.build_of_wellFormed⟩,
    fun graph built => ?_, fun defect => Graph.has_of_build⟩
  have wellFormed := Graph.wellFormed_of_build built
  refine ⟨Graph.holds_of_build built, fun other same => ?_⟩
  refine Graph.build_eq_of_inOrder (same.wellFormed wellFormed) ?_
  rw [Graph.inOrder_of_build built, same.inOrder_eq wellFormed]

end ActorIsolation
