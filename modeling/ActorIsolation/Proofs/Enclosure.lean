import ActorIsolation.Proofs.Acceptance

/-! Which declaration is blamed for an endless enclosing. A declaration has one parent at most, so the way
outwards from it either ends at the top level or runs into a cycle for good. The check follows the way from
each declaration in turn and blames the first from which it does not end. That one leads to a cycle, but
need not lie on it.
-/

set_option autoImplicit false

namespace ActorIsolation

namespace Draft

variable {draft : Draft} {id inner outer : DeclId}

structure DistinctIds (draft : Draft) : Prop where
  decls : (draft.decls.map (·.id)).Nodup
  extensions : (draft.extensions.map (·.id)).Nodup
  edges : (draft.edges.map (·.id)).Nodup

/-- What the declarations refer to is there, and stored properties have types. -/
structure DeclsResolve (draft : Draft) : Prop where
  resolves : ∀ decl ∈ draft.decls, ∀ role id, decl.RefersTo role id → draft.Declares id
  extended : ∀ decl ∈ draft.decls, ∀ id, decl.WrittenIn id → draft.Extends id
  typed : ∀ decl ∈ draft.decls, decl.kind = .storedProperty → decl.type ≠ none

theorem LeadsToCycle.declared (leads : draft.LeadsToCycle id) : draft.Declares id := by
  obtain ⟨_, decl, declared, same, _⟩ := leads.inside
  exact ⟨decl, declared, same⟩

/-! ### Defects in the order they are looked for -/

theorem head?_append_of_notMem {α : Type} {first second : List α} {value : α} (absent : value ∉ first) :
    (first ++ second).head? = some value ↔ first = [] ∧ second.head? = some value := by
  cases first with
  | nil => simp
  | cons head rest =>
    have different : head ≠ value := fun same => absent (same ▸ List.mem_cons_self)
    simp [different]

theorem head?_append_of_notMem_right {α : Type} {first second : List α} {value : α}
    (absent : value ∉ second) : (first ++ second).head? = some value ↔ first.head? = some value := by
  cases first with
  | nil => simpa using fun first => absent (List.mem_of_head? first)
  | cons head rest => simp

theorem find?_ascending {decls : List Declaration} {decl : Declaration} {blamed : Declaration → Bool}
    (order : decls.Pairwise fun left right => left.id.number < right.id.number) :
    decls.find? blamed = some decl ↔ (decl ∈ decls ∧ blamed decl) ∧
      ∀ other ∈ decls, blamed other → decl.id.number ≤ other.id.number := by
  induction decls with
  | nil => simp
  | cons first rest ih =>
    obtain ⟨least, order⟩ := List.pairwise_cons.mp order
    rw [List.find?_cons]
    cases here : blamed first with
    | true =>
      constructor
      · rintro ⟨⟩
        refine ⟨⟨List.mem_cons_self, here⟩, fun other mem _ => ?_⟩
        rcases List.mem_cons.mp mem with rfl | mem
        · exact Nat.le_refl _
        · exact Nat.le_of_lt (least other mem)
      · rintro ⟨⟨mem, _⟩, atMost⟩
        have bound := atMost first List.mem_cons_self here
        rcases List.mem_cons.mp mem with rfl | mem
        · rfl
        · have := least decl mem
          omega
    | false =>
      dsimp only
      rw [ih order, List.forall_mem_cons, List.mem_cons]
      constructor
      · rintro ⟨⟨mem, blames⟩, atMost⟩
        exact ⟨⟨.inr mem, blames⟩, by simp [here], atMost⟩
      · rintro ⟨⟨rfl | mem, blames⟩, _, atMost⟩
        · rw [here] at blames
          cases blames
        · exact ⟨⟨mem, blames⟩, atMost⟩

theorem repeats_eq_nil_iff {α : Type} [DecidableEq α] {values : List α} :
    repeats values = [] ↔ values.Nodup := by
  refine ⟨nodup_of_repeats, fun distinct => List.eq_nil_iff_forall_not_mem.mpr fun value mem => ?_⟩
  have once := List.nodup_iff_count_le_one.mp distinct value
  have twice := count_of_mem_repeats mem
  omega

theorem repetitions_eq_nil_iff : draft.repetitions = [] ↔ draft.DistinctIds := by
  simp only [repetitions, List.append_eq_nil_iff, List.map_eq_nil_iff, repeats_eq_nil_iff, sorted,
    (sortOn_perm rank _).nodup_iff]
  constructor
  · rintro ⟨⟨decls, extensions⟩, edges⟩
    exact ⟨decls, extensions, edges⟩
  · intro distinct
    exact ⟨⟨distinct.decls, distinct.extensions⟩, distinct.edges⟩

theorem declDefects_eq_nil_iff : draft.decls.flatMap draft.declDefects = [] ↔ draft.DeclsResolve := by
  rw [List.flatMap_eq_nil_iff]
  constructor
  · intro clean
    have none {decl : Declaration} (declared : decl ∈ draft.decls) {defect : Defect} :
        defect ∉ draft.declDefects decl := by simp [clean decl declared]
    refine ⟨fun decl declared role id refers => ?_, fun decl declared id written => ?_,
      fun decl declared property untyped => ?_⟩
    · by_contra unknown
      exact none declared (mem_declDefects.mpr (.inl ⟨role, id, refers, unknown, rfl⟩))
    · by_contra unknown
      exact none declared (mem_declDefects.mpr (.inr (.inl ⟨id, written, unknown, rfl⟩)))
    · exact none declared (mem_declDefects.mpr (.inr (.inr ⟨property, untyped, rfl⟩)))
  · intro resolve decl declared
    refine List.eq_nil_iff_forall_not_mem.mpr fun defect mem => ?_
    rcases mem_declDefects.mp mem with ⟨role, id, refers, unknown, _⟩ | ⟨id, written, unknown, _⟩ |
      ⟨property, untyped, _⟩
    · exact unknown (resolve.resolves decl declared role id refers)
    · exact unknown (resolve.extended decl declared id written)
    · exact resolve.typed decl declared property untyped

namespace Rearranges

variable {other : Draft}

theorem distinctIds (same : draft.Rearranges other) (distinct : draft.DistinctIds) : other.DistinctIds where
  decls := (same.decls.map _).nodup_iff.mp distinct.decls
  extensions := (same.extensions.map _).nodup_iff.mp distinct.extensions
  edges := (same.edges.map _).nodup_iff.mp distinct.edges

theorem declsResolve (same : draft.Rearranges other) (resolve : draft.DeclsResolve) :
    other.DeclsResolve where
  resolves decl declared role id refers :=
    same.declares.mp (resolve.resolves decl (same.decls.mem_iff.mpr declared) role id refers)
  extended decl declared id written :=
    same.extends_iff.mp (resolve.extended decl (same.decls.mem_iff.mpr declared) id written)
  typed decl declared := resolve.typed decl (same.decls.mem_iff.mpr declared)

theorem leadsToCycle (same : draft.Rearranges other) : draft.LeadsToCycle id ↔ other.LeadsToCycle id := by
  simp only [LeadsToCycle, OnCycle, same.inside]

end Rearranges

/-- An endless enclosing is what is found first: no id is repeated and no declaration refers to what is not
there. What the extensions and the calls refer to is looked at later. -/
theorem endlessEnclosing_first : draft.defects.head? = some (.endlessEnclosing id) ↔
    draft.DistinctIds ∧ draft.inOrder.DeclsResolve ∧
      ∃ decl, draft.inOrder.decls.find? draft.inOrder.isEndless = some decl ∧
        decl.id = id := by
  have notRepeated : .endlessEnclosing id ∉ draft.repetitions := by simp [repetitions]
  have notInDecls : .endlessEnclosing id ∉ draft.inOrder.decls.flatMap draft.inOrder.declDefects := by
    simp [mem_declDefects]
  have notInExtensions :
      .endlessEnclosing id ∉ draft.inOrder.extensions.flatMap draft.inOrder.extensionDefects := by
    simp [mem_extensionDefects]
  have notInEdges : .endlessEnclosing id ∉ draft.inOrder.edges.flatMap draft.inOrder.edgeDefects := by
    simp [mem_edgeDefects]
  rw [defects, head?_append_of_notMem notRepeated, repetitions_eq_nil_iff, referenceDefects,
    head?_append_of_notMem_right notInEdges, head?_append_of_notMem_right notInExtensions,
    head?_append_of_notMem notInDecls, declDefects_eq_nil_iff, List.head?_map, List.head?_filter]
  simp only [Option.map_eq_some_iff, Defect.endlessEnclosing.injEq]

theorem endlessEnclosing_first_iff : draft.defects.head? = some (.endlessEnclosing id) ↔
    draft.DistinctIds ∧ draft.DeclsResolve ∧ draft.LeadsToCycle id ∧
      ∀ other, draft.LeadsToCycle other → id.number ≤ other.number := by
  have same := draft.inOrder_rearranges
  rw [endlessEnclosing_first]
  refine and_congr_right fun distinct => ?_
  rw [show draft.inOrder.DeclsResolve ↔ draft.DeclsResolve from ⟨same.declsResolve, same.symm.declsResolve⟩]
  refine and_congr_right fun resolve => ?_
  have order := (Graph.inOrder_ascending draft (repetitions_eq_nil_iff.mpr distinct)).1
  have endless {decl : Declaration} (declared : decl ∈ draft.inOrder.decls) :
      draft.inOrder.isEndless decl ↔ draft.LeadsToCycle decl.id :=
    (isEndless_iff (same.symm.distinctIds distinct).decls declared).trans same.leadsToCycle
  simp only [find?_ascending order]
  constructor
  · rintro ⟨decl, ⟨⟨declared, blamed⟩, least⟩, rfl⟩
    refine ⟨(endless declared).mp blamed, fun other leads => ?_⟩
    obtain ⟨outer, declared', rfl⟩ := same.declares.mpr leads.declared
    exact least outer declared' ((endless declared').mpr leads)
  · rintro ⟨leads, least⟩
    obtain ⟨decl, declared, rfl⟩ := same.declares.mpr leads.declared
    refine ⟨decl, ⟨⟨declared, (endless declared).mpr leads⟩, fun other declared' blamed => ?_⟩, rfl⟩
    exact least other.id ((endless declared').mp blamed)

end Draft

theorem Graph.build_eq_error_iff {draft : Draft} {defect : Defect} :
    Graph.build draft = .error defect ↔ draft.defects.head? = some defect := by
  unfold Graph.build
  split
  · rename_i first rest found
    simp [found]
  · rename_i found
    simp [found]

/-- An endless enclosing is reported just when nothing before it is wrong and some way outwards does not
end. The blamed declaration is the first from which it does not: the way from it leads to a cycle. It lies
on a cycle itself just when each declaration that only leads to one comes after one that lies on one. -/
theorem endless_enclosing_blames (draft : Draft) (id : DeclId) :
    (Graph.build draft = .error (.endlessEnclosing id) ↔
      draft.DistinctIds ∧ draft.DeclsResolve ∧ draft.LeadsToCycle id ∧
        ∀ other, draft.LeadsToCycle other → id.number ≤ other.number) ∧
    (Graph.build draft = .error (.endlessEnclosing id) →
      (draft.OnCycle id ↔ ∀ inner, draft.LeadsToCycle inner → ¬ draft.OnCycle inner →
        ∃ outer, draft.OnCycle outer ∧ outer.number < inner.number)) := by
  have reported : Graph.build draft = .error (.endlessEnclosing id) ↔ _ :=
    Graph.build_eq_error_iff.trans Draft.endlessEnclosing_first_iff
  refine ⟨reported, fun refused => ?_⟩
  obtain ⟨_, _, leads, least⟩ := reported.mp refused
  constructor
  · intro cycle inner leadsToo apart
    refine ⟨id, cycle, Nat.lt_of_le_of_ne (least inner leadsToo) fun sameNumber => ?_⟩
    obtain rfl : id = inner := congrArg DeclId.mk sameNumber
    exact apart cycle
  · intro preceded
    by_contra apart
    obtain ⟨outer, cycle, before⟩ := preceded id leads apart
    have := least outer cycle.leadsToCycle
    omega

/-- Two functions inside each other, and a later one that is inside the second. -/
def ringOfTwo : Draft where
  decls :=
    [{ id := ⟨3⟩, name := "visit", kind := .function, enclosing := some ⟨2⟩ },
      { id := ⟨1⟩, name := "enter", kind := .function, enclosing := some ⟨2⟩ },
      { id := ⟨2⟩, name := "leave", kind := .function, enclosing := some ⟨1⟩ }]

theorem ringOfTwo_blames : Graph.build ringOfTwo = .error (.endlessEnclosing ⟨1⟩) ∧
    ringOfTwo.OnCycle ⟨1⟩ ∧ ∀ inner, ringOfTwo.LeadsToCycle inner → ¬ ringOfTwo.OnCycle inner →
      ∃ outer, ringOfTwo.OnCycle outer ∧ outer.number < inner.number := by
  have refused : Graph.build ringOfTwo = .error (.endlessEnclosing ⟨1⟩) :=
    Graph.build_eq_error_iff.mpr (by decide +kernel)
  have cycle : ringOfTwo.OnCycle ⟨1⟩ :=
    .head ⟨_, .tail _ (.head _), rfl, rfl⟩ (.single ⟨_, .tail _ (.tail _ (.head _)), rfl, rfl⟩)
  exact ⟨refused, cycle, ((endless_enclosing_blames ringOfTwo ⟨1⟩).2 refused).mp cycle⟩

/-- The same ring, with a function inside it that comes before. -/
def ringEnteredLate : Draft where
  decls :=
    [{ id := ⟨1⟩, name := "visit", kind := .function, enclosing := some ⟨2⟩ },
      { id := ⟨2⟩, name := "enter", kind := .function, enclosing := some ⟨3⟩ },
      { id := ⟨3⟩, name := "leave", kind := .function, enclosing := some ⟨2⟩ }]

/-- The first function is said to enclose itself, but it encloses nothing. -/
theorem ringEnteredLate_blames_outside : Graph.build ringEnteredLate = .error (.endlessEnclosing ⟨1⟩) ∧
    (Defect.endlessEnclosing ⟨1⟩).message = "declaration #1 encloses itself" ∧
    ¬ ringEnteredLate.OnCycle ⟨1⟩ ∧ ringEnteredLate.OnCycle ⟨2⟩ := by
  refine ⟨Graph.build_eq_error_iff.mpr (by decide +kernel), rfl, fun cycle => ?_,
    .head ⟨_, .tail _ (.head _), rfl, rfl⟩ (.single ⟨_, .tail _ (.tail _ (.head _)), rfl, rfl⟩)⟩
  obtain ⟨inner, _, decl, declared, _, enclosed⟩ := Relation.TransGen.tail'_iff.mp cycle
  have outside : ∀ decl ∈ ringEnteredLate.decls, decl.enclosing ≠ some ⟨1⟩ := by decide
  exact outside decl declared enclosed

end ActorIsolation
