import ActorIsolation.Proofs.Confinement

/-! What is found at declarations, said in full. Mismatched contracts and unsafe default values hang on
isolation only, so each declaration has its list of them, and a report holds these lists, one after the
other, apart from the order.
-/

set_option autoImplicit false

namespace ActorIsolation

open Analysis (Yields)

namespace Boundary

variable {graph : Graph} {options : Options} {answers : DeclId → Isolation} {kept : Ledger → Prop}

/-! ### Contracts -/

/-- A witness in this domain may take the place of the target although the target is isolated
otherwise. -/
inductive Exempt (graph : Graph) (answers : DeclId → Isolation) (target : Declaration)
    (witness : Domain) : Prop where
  | awaited : target.isAsync → Exempt graph answers target witness
  | actorOnly {container : Declaration} {actor : DeclId} :
      target.enclosing.bind graph.decl? = some container → container.actorOnly →
      witness = .actorInstance actor → Exempt graph answers target witness
  | container {container : Declaration} : target.enclosing.bind graph.decl? = some container →
      (answers container.id).domain = witness → Exempt graph answers target witness

theorem isExempt_yields (target : Declaration) (witness : Domain) :
    Yields answers kept (fun exempt => exempt = true ↔ Exempt graph answers target witness)
      (isExempt graph target witness) := by
  unfold isExempt
  split
  · rename_i awaited
    exact .pure (iff_of_true rfl (.awaited awaited))
  · rename_i direct
    split
    · rename_i outside
      refine .pure (iff_of_false Bool.false_ne_true fun exempt => ?_)
      cases exempt with
      | awaited awaited => exact direct awaited
      | actorOnly inside => simp [outside] at inside
      | container inside => simp [outside] at inside
    · rename_i container inside
      split
      · rename_i actor only
        exact .pure (iff_of_true rfl (.actorOnly inside only rfl))
      · rename_i shared
        refine (Yields.domain _).bind fun domain same => .pure ?_
        rw [decide_eq_true_iff, same]
        constructor
        · exact .container inside
        · intro exempt
          cases exempt with
          | awaited awaited => exact absurd awaited direct
          | actorOnly found only witness =>
            obtain rfl := Option.some.inj (inside.symm.trans found)
            exact (shared _ only witness).elim
          | container found same =>
            obtain rfl := Option.some.inj (inside.symm.trans found)
            exact same

/-- The declaration is isolated, and not as the target is, although nothing exempts it. -/
structure Mismatch (graph : Graph) (answers : DeclId → Isolation) (decl : Declaration)
    (target : DeclId) : Prop where
  isolated : (answers decl.id).domain.isIsolated
  differs : (answers target).domain ≠ (answers decl.id).domain
  held : ∃ found, graph.decl? target = some found ∧
    ¬ Exempt graph answers found (answers decl.id).domain

def mismatchWith (options : Options) (answers : DeclId → Isolation) (decl : Declaration)
    (target : DeclId) : Violation :=
  declViolation options decl .contractMismatch (some target) (answers target).domain
    (answers decl.id).domain decl.span

open Classical in
noncomputable def mismatches (graph : Graph) (options : Options) (answers : DeclId → Isolation)
    (decl : Declaration) : List Violation :=
  ((decl.satisfies ++ decl.overrides).filter (Mismatch graph answers decl ·)).map
    (mismatchWith options answers decl)

open Classical in
theorem filter_map_eq_flatMap {α β : Type} (keeps : α → Prop) (make : α → β) (items : List α) :
    (items.filter (keeps ·)).map make =
      items.flatMap fun item => if keeps item then [make item] else [] := by
  induction items with
  | nil => rfl
  | cons item rest ih => by_cases keep : keeps item <;> simp [keep, ih]

theorem targetViolations_yields {decl : Declaration} {target : DeclId} {found : List Violation}
    (isolated : (answers decl.id).domain.isIsolated)
    (mismatched : Mismatch graph answers decl target → found = [mismatchWith options answers decl target])
    (matched : ¬ Mismatch graph answers decl target → found = []) :
    Yields answers kept (· = found)
      (targetViolations graph options decl (answers decl.id).domain target) := by
  unfold targetViolations
  split
  · rename_i absent
    refine .pure (matched fun mismatch => ?_).symm
    obtain ⟨_, present, -⟩ := mismatch.held
    simp [absent] at present
  · rename_i other present
    refine (Yields.domain _).bind fun expected same => ?_
    subst same
    split
    · rename_i agrees
      exact .pure (matched fun mismatch => mismatch.differs agrees).symm
    · rename_i differs
      refine (isExempt_yields other _).bind fun exempt meaning => ?_
      split
      · rename_i yes
        refine .pure (matched fun mismatch => ?_).symm
        obtain ⟨_, known, held⟩ := mismatch.held
        obtain rfl := Option.some.inj (present.symm.trans known)
        exact held (meaning.mp yes)
      · rename_i no
        exact .pure (mismatched ⟨isolated, differs, other, present, mt meaning.mpr no⟩).symm

theorem declContractViolations_yields (decl : Declaration) :
    Yields answers kept (· = mismatches graph options answers decl)
      (declContractViolations graph options decl) := by
  unfold declContractViolations
  split
  · rename_i nothing
    simp only [Bool.and_eq_true, List.isEmpty_iff] at nothing
    exact .pure (by simp [mismatches, nothing.1, nothing.2])
  · refine (Yields.domain _).bind fun witness same => ?_
    subst same
    rw [mismatches, filter_map_eq_flatMap]
    split
    · rename_i isolated
      exact Yields.forEach_exact
        (fun target => targetViolations_yields isolated (fun met => if_pos met) fun unmet => if_neg unmet) _
    · rename_i free
      refine .pure (Eq.symm (List.flatMap_eq_nil_iff.mpr fun target _ => if_neg fun mismatch => ?_))
      exact free mismatch.isolated

theorem contractViolations_exact :
    Yields answers kept (· = graph.decls.flatMap (mismatches graph options answers))
      (contractViolations graph options) :=
  .forEach_exact declContractViolations_yields graph.decls

/-! ### Default values -/

/-- The domains in which the default values of a type's properties are evaluated: those of its
initializers, or else that of the one which the type gets by itself. -/
def contextsOf (graph : Graph) (answers : DeclId → Isolation) (owner : Declaration) : List Domain :=
  if (graph.initializers owner.id).isEmpty then
    [((answers owner.id).domain.globalActor?).elim .nonisolated .globalActor]
  else ascending ((graph.initializers owner.id).map fun initializer => (answers initializer.id).domain)

theorem synthesizedContext_yields (owner : Declaration) :
    Yields answers kept
      (· = ((answers owner.id).domain.globalActor?).elim .nonisolated .globalActor)
      (synthesizedContext owner) := by
  refine (Yields.domain _).bind fun domain same => ?_
  rw [← same]
  cases domain <;> exact .pure rfl

theorem initContexts_yields (owner : Declaration) :
    Yields answers kept (· = contextsOf graph answers owner) (initContexts graph owner) := by
  unfold initContexts
  split
  · rename_i none
    refine (synthesizedContext_yields owner).bind fun context same => .pure ?_
    rw [contextsOf, if_pos (by simp [none]), same]
  · rename_i some
    have each (initializer : Declaration) : Yields answers kept
        (· = [(answers initializer.id).domain])
        (do return [← Analysis.domain initializer.id] : Analysis (List Domain)) :=
      (Yields.domain _).bind fun domain same => .pure (by rw [same])
    refine (Yields.forEach_exact each _).bind fun domains same => .pure ?_
    rw [contextsOf, if_neg (by simpa using some), same, ← List.map_eq_flatMap]

def clash? (contexts : List Domain) (needed : Domain) : Option Domain :=
  if needed.isIsolated then contexts.find? (· ≠ needed) else none

def unsafeDefault (options : Options) (answers : DeclId → Isolation) (decl : Declaration)
    (span : Option Span) (reference : DeclId) (context : Domain) : Violation :=
  declViolation options decl .unsafeIsolatedDefault (some reference) context (answers reference).domain
    span

/-- The references in the default value of a declaration that some initializer cannot evaluate, in the
order in which they occur. -/
def unsafeDefaults (graph : Graph) (options : Options) (answers : DeclId → Isolation)
    (decl : Declaration) : List Violation :=
  if decl.kind = .storedProperty ∧ decl.isStatic = false then
    match decl.defaultValue, graph.enclosingType? decl with
    | some value, some owner => value.references.filterMap fun reference =>
      (clash? (contextsOf graph answers owner) (answers reference).domain).map
        (unsafeDefault options answers decl (value.span.or decl.span) reference)
    | _, _ => []
  else []

theorem referenceViolations_yields (decl : Declaration) (span : Option Span) (contexts : List Domain)
    (reference : DeclId) :
    Yields answers kept (· = ((clash? contexts (answers reference).domain).map
        (unsafeDefault options answers decl span reference)).toList)
      (referenceViolations options decl span contexts reference) := by
  refine (Yields.domain _).bind fun needed same => ?_
  subst same
  split
  · rename_i isolated
    split
    · rename_i context clash
      exact .pure (by rw [clash?, if_pos isolated, clash]; rfl)
    · rename_i fits
      exact .pure (by rw [clash?, if_pos isolated, fits]; rfl)
  · rename_i free
    exact .pure (by rw [clash?, if_neg free]; rfl)

theorem declDefaultViolations_yields (decl : Declaration) :
    Yields answers kept (· = unsafeDefaults graph options answers decl)
      (declDefaultViolations graph options decl) := by
  unfold declDefaultViolations
  split
  · rename_i stored
    have stored : decl.kind = .storedProperty ∧ decl.isStatic = false := by simpa using stored
    split
    · rename_i value owner given inside
      rw [unsafeDefaults, if_pos stored, given, inside]
      dsimp only
      refine (initContexts_yields owner).bind fun contexts same => ?_
      subst same
      refine (Yields.forEach_exact (fun reference => referenceViolations_yields decl _ _ reference)
        _).imp fun found same => ?_
      rw [same, List.filterMap_eq_flatMap_toList]
    · rename_i incomplete
      rw [unsafeDefaults, if_pos stored]
      split
      · rename_i value owner given inside
        exact (incomplete value owner given inside).elim
      · exact .pure rfl
  · rename_i other
    exact .pure (by rw [unsafeDefaults, if_neg (by simpa using other)])

theorem defaultViolations_exact :
    Yields answers kept (· = graph.decls.flatMap (unsafeDefaults graph options answers))
      (defaultViolations graph options) :=
  .forEach_exact declDefaultViolations_yields graph.decls

/-! ### Categories -/

variable {decl : Declaration} {edge : CallEdge} {violation : Violation}

theorem mismatch_of_mem (mem : violation ∈ mismatches graph options answers decl) :
    ∃ target ∈ decl.satisfies ++ decl.overrides, Mismatch graph answers decl target ∧
      violation = mismatchWith options answers decl target := by
  obtain ⟨target, listed, rfl⟩ := List.mem_map.mp mem
  obtain ⟨named, mismatch⟩ := List.mem_filter.mp listed
  exact ⟨target, named, by simpa using mismatch, rfl⟩

theorem unsafeDefault_of_mem (mem : violation ∈ unsafeDefaults graph options answers decl) :
    ∃ value owner, decl.defaultValue = some value ∧ graph.enclosingType? decl = some owner ∧
      ∃ reference ∈ value.references, ∃ context ∈ contextsOf graph answers owner,
        violation = unsafeDefault options answers decl (value.span.or decl.span) reference context := by
  unfold unsafeDefaults at mem
  split at mem
  · split at mem
    · rename_i value owner given inside
      obtain ⟨reference, listed, found⟩ := List.mem_filterMap.mp mem
      obtain ⟨context, clash, rfl⟩ := Option.map_eq_some_iff.mp found
      unfold clash? at clash
      split at clash
      · exact ⟨value, owner, given, inside, reference, listed, context,
          List.mem_of_find?_eq_some clash, rfl⟩
      · cases clash
    · cases mem
  · cases mem

theorem demandedAt_of_mem (mem : violation ∈ demandedAt graph options answers decl) :
    violation = declViolation options decl .unsafeSharedMutable none .nonisolated .nonisolated
      decl.span := by
  unfold demandedAt at mem
  split at mem
  · exact List.mem_singleton.mp mem
  · cases mem

theorem demanded_of_mem {values : List ValueRef}
    (mem : violation ∈ demanded graph options answers edge values) :
    ∃ category value, (category = .missingSuspension ∧ value = none ∨
        category = .concurrentAccess ∧ ∃ handed ∈ values, value = some handed) ∧
      violation = violationAt graph options answers edge category value := by
  unfold demanded at mem
  split at mem
  · rcases List.mem_append.mp mem with mem | mem
    · split at mem
      · cases mem
      · exact ⟨_, _, .inl ⟨rfl, rfl⟩, List.mem_singleton.mp mem⟩
    · obtain ⟨value, handed, mem⟩ := List.mem_flatMap.mp mem
      unfold demandedFor at mem
      split at mem
      · exact ⟨_, _, .inr ⟨rfl, value, handed, rfl⟩, List.mem_singleton.mp mem⟩
      · cases mem
  · cases mem

end Boundary

/-! ### Reports -/

open Boundary

namespace Pass

theorem violations_perm (graph : Graph) (options : Options) :
    let answers := (graph.resolution options).isolation
    (findings graph options).violations.Perm
      (graph.decls.flatMap (demandedAt graph options answers) ++
        graph.decls.flatMap (mismatches graph options answers) ++
        graph.decls.flatMap (unsafeDefaults graph options answers) ++
        graph.edges.flatMap fun edge =>
          demanded graph options answers edge (transferred graph edge)) := by
  intro answers
  rw [← (run_eq graph options .sequential).1, violations_eq graph options .sequential, Graph.pieces,
    List.flatMap_cons, List.flatMap_map, found_declarations contractViolations_exact
      defaultViolations_exact]
  simp only [found_call]
  exact sortOn_perm _ _

/-- Where the rest of a report is of other categories, or about other declarations, the violations of this
category about one declaration are its own. -/
theorem filter_about {graph : Graph} {options : Options} {category : Category}
    {each : Declaration → List Violation} {before after : List Violation}
    (parts : (findings graph options).violations.Perm (before ++ graph.decls.flatMap each ++ after))
    (own : ∀ decl, ∀ violation ∈ each decl, violation.category = category ∧ violation.decl = decl.id)
    (others : ∀ violation ∈ before ++ after, violation.category ≠ category)
    {decl : Declaration} (declared : decl ∈ graph.decls) :
    ((findings graph options).violations.filter fun violation =>
      violation.category = category ∧ violation.decl = decl.id).Perm (each decl) := by
  have none {list : List Violation} (listed : list ⊆ before ++ after) : list.filter (fun violation =>
      violation.category = category ∧ violation.decl = decl.id) = [] :=
    List.filter_eq_nil_iff.mpr fun violation mem => by
      simpa using fun same => absurd same (others violation (listed mem))
  have about : (graph.decls.flatMap each).filter (fun violation =>
      violation.category = category ∧ violation.decl = decl.id) = each decl := by
    rw [← filter_flatMap graph.ids_nodup (fun other violation mem => (own other violation mem).2) declared]
    refine List.filter_congr fun violation mem => ?_
    obtain ⟨other, -, mem⟩ := List.mem_flatMap.mp mem
    simp [(own other violation mem).1]
  have sorted := parts.filter fun violation => violation.category = category ∧ violation.decl = decl.id
  rwa [List.filter_append, List.filter_append, none (List.subset_append_left _ _),
    none (List.subset_append_right _ _), List.nil_append, List.append_nil, about] at sorted

variable {graph : Graph} {options : Options} {decl : Declaration}

theorem mismatches_perm (declared : decl ∈ graph.decls) :
    ((findings graph options).violations.filter fun violation =>
        violation.category = .contractMismatch ∧ violation.decl = decl.id).Perm
      (mismatches graph options (graph.resolution options).isolation decl) := by
  have parts := violations_perm graph options
  simp only [List.append_assoc] at parts
  rw [← List.append_assoc] at parts
  refine filter_about parts ?_ ?_ declared
  · intro decl violation mem
    obtain ⟨target, -, -, rfl⟩ := mismatch_of_mem mem
    exact ⟨rfl, rfl⟩
  · intro violation mem
    simp only [List.mem_append, List.mem_flatMap] at mem
    rcases mem with ⟨decl, -, mem⟩ | ⟨decl, -, mem⟩ | ⟨edge, -, mem⟩
    · rw [demandedAt_of_mem mem]
      exact Category.noConfusion
    · obtain ⟨_, _, -, -, _, -, _, -, rfl⟩ := unsafeDefault_of_mem mem
      exact Category.noConfusion
    · obtain ⟨category, value, ⟨rfl, -⟩ | ⟨rfl, -⟩, rfl⟩ := demanded_of_mem mem <;>
        exact Category.noConfusion

theorem unsafeDefaults_perm (declared : decl ∈ graph.decls) :
    ((findings graph options).violations.filter fun violation =>
        violation.category = .unsafeIsolatedDefault ∧ violation.decl = decl.id).Perm
      (unsafeDefaults graph options (graph.resolution options).isolation decl) := by
  refine filter_about (violations_perm graph options) ?_ ?_ declared
  · intro decl violation mem
    obtain ⟨_, _, -, -, _, -, _, -, rfl⟩ := unsafeDefault_of_mem mem
    exact ⟨rfl, rfl⟩
  · intro violation mem
    simp only [List.mem_append, List.mem_flatMap] at mem
    rcases mem with (⟨decl, -, mem⟩ | ⟨decl, -, mem⟩) | ⟨edge, -, mem⟩
    · rw [demandedAt_of_mem mem]
      exact Category.noConfusion
    · obtain ⟨target, -, -, rfl⟩ := mismatch_of_mem mem
      exact Category.noConfusion
    · obtain ⟨category, value, ⟨rfl, -⟩ | ⟨rfl, -⟩, rfl⟩ := demanded_of_mem mem <;>
        exact Category.noConfusion

end Pass

end ActorIsolation
