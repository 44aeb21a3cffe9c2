import ActorIsolation.Graph.Decomposition
import ActorIsolation.Graph.Draft

/-! The declaration graph: a program without defects, in order, with the components of its
dependency relation.
-/

set_option autoImplicit false

namespace ActorIsolation

structure Graph extends Draft where
  plan : Decomposition
  plan_eq : plan = Decomposition.ofDeclarations decls
  decls_ascending : decls.Pairwise fun left right => left.id.number < right.id.number
  extensions_ascending : extensions.Pairwise fun left right => left.id.number < right.id.number
  edges_ascending : edges.Pairwise fun left right => left.id.number < right.id.number
  sound : toDraft.referenceDefects = []

theorem sortOn_ascending {α β : Type} {key : α → β} {number : β → Nat} {items : List α}
    (injective : ∀ a b, number a = number b → a = b) (distinct : (items.map key).Nodup) :
    (sortOn (fun item => [number (key item)]) items).Pairwise fun left right =>
      number (key left) < number (key right) := by
  have perm := sortOn_perm (fun item => [number (key item)]) items
  have nodup : ((sortOn (fun item => [number (key item)]) items).map key).Nodup :=
    (perm.map key).nodup_iff.mpr distinct
  have ordered := sortOn_pairwise (fun item => [number (key item)]) items
  refine (ordered.and (List.pairwise_map.mp nodup)).imp ?_
  intro left right ⟨le, ne⟩
  have : number (key left) ≠ number (key right) := fun same => ne (injective _ _ same)
  rw [Rank.atMost_cons] at le
  omega

namespace Graph

theorem inOrder_ascending (draft : Draft) (h : draft.repetitions = []) :
    (draft.inOrder.decls.Pairwise fun left right => left.id.number < right.id.number) ∧
      (draft.inOrder.extensions.Pairwise fun left right => left.id.number < right.id.number) ∧
      (draft.inOrder.edges.Pairwise fun left right => left.id.number < right.id.number) := by
  simp only [Draft.repetitions, List.append_eq_nil_iff, List.map_eq_nil_iff, and_assoc] at h
  obtain ⟨decls, extensions, edges⟩ := h
  have distinctEdges : (draft.edges.map (·.id)).Nodup :=
    (sortOn_perm rank _).nodup_iff.mp (nodup_of_repeats edges)
  exact ⟨sortOn_ascending (fun ⟨_⟩ ⟨_⟩ same => by cases same; rfl) (nodup_of_repeats decls),
    sortOn_ascending (fun ⟨_⟩ ⟨_⟩ same => by cases same; rfl) (nodup_of_repeats extensions),
    sortOn_ascending (fun ⟨_⟩ ⟨_⟩ same => by cases same; rfl) distinctEdges⟩

/-- Accepts a program without defects, and otherwise names the first. -/
def build (draft : Draft) : Except Defect Graph :=
  match found : draft.defects with
  | defect :: _ => .error defect
  | [] =>
    have clean := List.append_eq_nil_iff.mp found
    have ascending := inOrder_ascending draft clean.1
    .ok { draft.inOrder with
      plan := Decomposition.ofDeclarations draft.inOrder.decls
      plan_eq := rfl
      decls_ascending := ascending.1
      extensions_ascending := ascending.2.1
      edges_ascending := ascending.2.2
      sound := clean.2 }

variable (graph : Graph)

def members (parent : DeclId) : List Declaration :=
  graph.decls.filter (·.enclosing = some parent)

def storedFields (type : DeclId) : List Declaration :=
  (graph.members type).filter fun member => member.kind = .storedProperty && !member.isStatic

def initializers (type : DeclId) : List Declaration :=
  (graph.members type).filter fun member => member.kind = .function && member.isInitializer

def enclosingType? (decl : Declaration) : Option Declaration :=
  (decl.enclosing.bind graph.decl?).filter (·.isType)

def conformanceScope? (type protocol : DeclId) : Option Scope := do
  let decl ← graph.decl? type
  let conformance ← decl.conformances.find? (·.protocol = protocol)
  return conformance.scope

def spanOf? (id : DeclId) : Option Span := (graph.decl? id).bind (·.span)

def nameOf (id : DeclId) : String :=
  match graph.decl? id with
  | some decl => decl.name
  | none => "<unknown>"

end Graph

end ActorIsolation
