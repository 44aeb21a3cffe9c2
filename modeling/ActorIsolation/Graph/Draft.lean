import ActorIsolation.Graph.Defect

/-! A program as a front end hands it over, and the list of its defects. The order of the list is
the order in which defects are looked for, so its head is the defect to report.
-/

set_option autoImplicit false

namespace ActorIsolation

variable {α : Type} [DecidableEq α]

/-- The values of a list that have been seen before, each where it comes again. -/
def repeatsAfter (seen : List α) : List α → List α
  | [] => []
  | value :: rest =>
    if value ∈ seen then value :: repeatsAfter seen rest else repeatsAfter (value :: seen) rest

def repeats (values : List α) : List α := repeatsAfter [] values

theorem nodup_of_repeatsAfter {values seen : List α} (h : repeatsAfter seen values = []) :
    values.Nodup ∧ ∀ value ∈ values, value ∉ seen := by
  induction values generalizing seen with
  | nil => simp
  | cons value rest ih =>
    unfold repeatsAfter at h
    split at h
    · simp at h
    · rename_i fresh
      obtain ⟨nodup, disjoint⟩ := ih h
      refine ⟨List.nodup_cons.mpr ⟨fun mem => disjoint value mem (by simp), nodup⟩, ?_⟩
      intro other mem
      rcases List.mem_cons.mp mem with rfl | mem
      · exact fresh
      · exact fun seenOther => disjoint other mem (List.mem_cons_of_mem _ seenOther)

theorem nodup_of_repeats {values : List α} (h : repeats values = []) : values.Nodup :=
  (nodup_of_repeatsAfter h).1

structure Draft where
  decls : List Declaration := []
  extensions : List Extension := []
  edges : List CallEdge := []
  deriving DecidableEq, Repr, Inhabited

namespace Draft

variable (draft : Draft)

def decl? (id : DeclId) : Option Declaration := draft.decls.find? (·.id = id)

def extension? (id : ExtensionId) : Option Extension := draft.extensions.find? (·.id = id)

def inOrder : Draft where
  decls := sortOn (rank ·.id) draft.decls
  extensions := sortOn (rank ·.id) draft.extensions
  edges := sortOn (rank ·.id) draft.edges

def others (decls : List Declaration) (id : DeclId) : List Declaration :=
  decls.filter (·.id ≠ id)

theorem length_others_lt {decls : List Declaration} {id : DeclId} {decl : Declaration}
    (found : decls.find? (·.id = id) = some decl) : (others decls id).length < decls.length := by
  rw [others, List.length_filter_lt_length_iff_exists]
  exact ⟨decl, List.mem_of_find?_eq_some found, by simpa using List.find?_some found⟩

/-- The declarations met on the way outwards from a declaration, itself first, each once. -/
def outward (decls : List Declaration) (id : DeclId) : List Declaration :=
  match _found : decls.find? (·.id = id) with
  | none => []
  | some decl =>
    decl :: match decl.enclosing with
      | none => []
      | some parent => outward (others decls id) parent
termination_by decls.length
decreasing_by exact length_others_lt _found

def chain (id : DeclId) : List Declaration := outward draft.decls id

/-- Follows the way outwards from `start`, by now at a parent. It does not end if it comes back to `start`
or takes more steps than there are declarations. -/
def wanders (start : DeclId) (steps : Nat) : Option DeclId → Bool
  | none => false
  | some id =>
    if id = start ∨ draft.decls.length < steps + 1 then true
    else wanders start (steps + 1) ((draft.decl? id).bind (·.enclosing))
termination_by draft.decls.length - steps

def isEndless (decl : Declaration) : Bool := draft.wanders decl.id 0 decl.enclosing

def repetitions : List Defect :=
  (repeats (draft.decls.map (·.id))).map .repeatedDecl ++
    (repeats (draft.extensions.map (·.id))).map .repeatedExtension ++
      (repeats (sorted (draft.edges.map (·.id)))).map .repeatedEdge

def unknownDecl (referrer : Referrer) (role : Role) (id : DeclId) : List Defect :=
  if (draft.decl? id).isSome then [] else [.unknownDecl referrer id role]

def unknownNominals (referrer : Referrer) (type : TypeRef) : List Defect :=
  type.nominals.flatMap (draft.unknownDecl referrer .type)

def unknownScope (referrer : Referrer) : Scope → List Defect
  | .primary => []
  | .extension id =>
    if (draft.extension? id).isSome then [] else [.unknownExtension referrer id]

def unknownActor (referrer : Referrer) : Annotation → List Defect
  | .nonisolated | .nonisolatedUnsafe => []
  | .globalActor actor | .isolatedParameter _ actor => draft.unknownDecl referrer .actor actor

def declDefects (decl : Declaration) : List Defect :=
  let referrer := .decl decl.id
  decl.enclosing.toList.flatMap (draft.unknownDecl referrer .enclosing) ++
    draft.unknownScope referrer decl.scope ++
    decl.annotations.flatMap (draft.unknownActor referrer) ++
    decl.satisfies.flatMap (draft.unknownDecl referrer .requirement) ++
    decl.overrides.flatMap (draft.unknownDecl referrer .overridden) ++
    decl.conformances.flatMap (fun conformance =>
      draft.unknownDecl referrer .protocol conformance.protocol ++
        draft.unknownScope referrer conformance.scope) ++
    decl.supertypes.flatMap (draft.unknownDecl referrer .supertype) ++
    (match decl.type with
      | some type => draft.unknownNominals referrer type
      | none => if decl.kind = .storedProperty then [.untypedProperty decl.id] else []) ++
    decl.defaultValue.toList.flatMap (fun value =>
      value.references.flatMap (draft.unknownDecl referrer .defaultReference))

def extensionDefects (extension : Extension) : List Defect :=
  let referrer := .extension extension.id
  draft.unknownDecl referrer .extended extension.extended ++
    extension.globalActor.toList.flatMap (draft.unknownDecl referrer .actor)

def edgeDefects (edge : CallEdge) : List Defect :=
  let referrer := .edge edge.id
  draft.unknownDecl referrer .caller edge.caller ++
    draft.unknownDecl referrer .callee edge.callee ++
    (edge.arguments ++ edge.captures).flatMap (fun transfer =>
      draft.unknownNominals referrer transfer.type) ++
    edge.result.toList.flatMap (draft.unknownNominals referrer)

def referenceDefects : List Defect :=
  draft.decls.flatMap draft.declDefects ++
    (draft.decls.filter draft.isEndless).map (.endlessEnclosing ·.id) ++
    draft.extensions.flatMap draft.extensionDefects ++
    draft.edges.flatMap draft.edgeDefects

/-- Repeated ids come first, in the order given; references are looked at in the order of ids. -/
def defects : List Defect := draft.repetitions ++ draft.inOrder.referenceDefects

end Draft

end ActorIsolation
