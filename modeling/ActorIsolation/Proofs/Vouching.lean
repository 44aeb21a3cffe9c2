import ActorIsolation.Proofs.Acceptance
import ActorIsolation.Proofs.Confinement
import ActorIsolation.Proofs.Conformance
import Mathlib.Data.List.Flatten

/-! What changes when an author vouches for a type. Isolation does not look at assertions, so it stays
as it is. A type that is taken by word is accepted at sight, so fewer use sites are bad and fewer are
pointed to on the way, and whatever still leads to a bad one did so before. Hence nothing new is found
fault with, and what is left stands in the same order.
-/

set_option autoImplicit false

namespace ActorIsolation

open Analysis (Yields)

def Declaration.vouchedFor (id : DeclId) (decl : Declaration) : Declaration :=
  { decl with sendable := if decl.id = id then .unchecked else decl.sendable }

theorem Declaration.vouchedFor_eq {id : DeclId} {decl : Declaration}
    (other : (decl.vouchedFor id).sendable ≠ .unchecked) : decl.vouchedFor id = decl := by
  have different : decl.id ≠ id := fun same => other (if_pos same)
  rw [vouchedFor, if_neg different]

def Draft.vouchFor (draft : Draft) (id : DeclId) : Draft :=
  { draft with decls := draft.decls.map (·.vouchedFor id) }

namespace Draft

variable {draft : Draft} {id : DeclId}

theorem vouchFor_inOrder : (draft.vouchFor id).inOrder = draft.inOrder.vouchFor id := by
  have decls : sortOn (rank ·.id) (draft.decls.map (·.vouchedFor id)) =
      (sortOn (rank ·.id) draft.decls).map (·.vouchedFor id) :=
    (map_sortOn (fun _ => rfl) draft.decls).symm
  simp only [inOrder, vouchFor, decls]

theorem decl?_vouchFor (other : DeclId) :
    (draft.vouchFor id).decl? other = (draft.decl? other).map (·.vouchedFor id) := by
  rw [decl?, vouchFor, List.find?_map]
  rfl

theorem mem_decls_vouchFor {decl : Declaration} :
    decl ∈ (draft.vouchFor id).decls ↔ ∃ plain ∈ draft.decls, plain.vouchedFor id = decl :=
  List.mem_map

theorem declares_vouchFor {other : DeclId} :
    (draft.vouchFor id).Declares other ↔ draft.Declares other := by
  simp only [Declares, mem_decls_vouchFor]
  constructor
  · rintro ⟨_, ⟨decl, declared, rfl⟩, same⟩
    exact ⟨decl, declared, same⟩
  · rintro ⟨decl, declared, same⟩
    exact ⟨_, ⟨decl, declared, rfl⟩, same⟩

theorem inside_vouchFor : (draft.vouchFor id).Inside = draft.Inside := by
  funext inner outer
  refine propext ⟨?_, ?_⟩
  · rintro ⟨_, listed, same, enclosed⟩
    obtain ⟨decl, declared, rfl⟩ := mem_decls_vouchFor.mp listed
    exact ⟨decl, declared, same, enclosed⟩
  · rintro ⟨decl, declared, same, enclosed⟩
    exact ⟨_, mem_decls_vouchFor.mpr ⟨decl, declared, rfl⟩, same, enclosed⟩

theorem WellFormed.vouchFor (wellFormed : draft.WellFormed) (id : DeclId) :
    (draft.vouchFor id).WellFormed where
  decls_distinct := by
    have ids : (draft.vouchFor id).decls.map (·.id) = draft.decls.map (·.id) := List.map_map
    rw [ids]
    exact wellFormed.decls_distinct
  extensions_distinct := wellFormed.extensions_distinct
  edges_distinct := wellFormed.edges_distinct
  resolves referrer role other refers := by
    refine declares_vouchFor.mpr (wellFormed.resolves referrer role other ?_)
    cases refers with
    | decl listed refers =>
      obtain ⟨decl, declared, rfl⟩ := mem_decls_vouchFor.mp listed
      have plain : decl.RefersTo role other := by
        cases refers with
        | enclosing inside => exact .enclosing inside
        | globalActor written => exact .globalActor written
        | isolatedParameter written => exact .isolatedParameter written
        | requirement listed => exact .requirement listed
        | overridden listed => exact .overridden listed
        | protocol stated => exact .protocol stated
        | supertype listed => exact .supertype listed
        | type typed mentions => exact .type typed mentions
        | defaultReference given listed => exact .defaultReference given listed
      have refersToo := Refers.decl declared plain
      exact refersToo
    | extension listed refers => exact .extension listed refers
    | edge listed refers => exact .edge listed refers
  extended decl listed other written := by
    obtain ⟨plain, declared, rfl⟩ := mem_decls_vouchFor.mp listed
    refine wellFormed.extended plain declared other ?_
    cases written with
    | member written => exact .member written
    | conformance stated written => exact .conformance stated written
  typed decl listed property := by
    obtain ⟨plain, declared, rfl⟩ := mem_decls_vouchFor.mp listed
    exact wellFormed.typed plain declared property
  acyclic := by
    rw [inside_vouchFor]
    exact wellFormed.acyclic

theorem outward_vouchedFor (decls : List Declaration) (other : DeclId) :
    outward (decls.map (·.vouchedFor id)) other = (outward decls other).map (·.vouchedFor id) := by
  induction decls, other using outward.induct with
  | case1 decls other absent =>
    have absentToo : (decls.map (·.vouchedFor id)).find? (·.id = other) = none := by
      rw [List.find?_map]
      exact Option.map_eq_none_iff.mpr absent
    rw [outward_eq_nil absent, outward_eq_nil absentToo, List.map_nil]
  | case2 decls other decl found ih =>
    have foundToo : (decls.map (·.vouchedFor id)).find? (·.id = other) = some (decl.vouchedFor id) := by
      rw [List.find?_map]
      exact Option.map_eq_some_iff.mpr ⟨decl, found, rfl⟩
    have others : others (decls.map (·.vouchedFor id)) other =
        (others decls other).map (·.vouchedFor id) := by
      rw [Draft.others, List.filter_map]
      rfl
    rw [outward_eq_cons found, outward_eq_cons foundToo, others, List.map_cons]
    congr 1
    change decl.enclosing.elim [] _ = _
    cases decl.enclosing with
    | none => rfl
    | some parent => exact ih parent

end Draft

/-! ### Findings -/

theorem sublist_of_imp {α : Type} {condition weaker : Prop} {_ : Decidable condition}
    {_ : Decidable weaker} {values : List α} (implies : condition → weaker) :
    (if condition then values else []).Sublist (if weaker then values else []) := by
  by_cases met : condition
  · rw [if_pos met, if_pos (implies met)]
  · rw [if_neg met]
    exact List.nil_sublist _

theorem Pass.sendableIssues_sorted (graph : Graph) (options : Options) :
    let answers := (graph.resolution options).isolation
    ∃ listed, (findings graph options).sendableIssues = sorted listed ∧
      Enumerates (·.Arises graph options answers (UseSite.verdictOn graph options answers)) listed := by
  intro answers
  have yields : Yields answers (Walk.Honest graph options answers) (fun found => ∃ listed,
      found.1 = sorted listed ∧
        Enumerates (·.Arises graph options answers (UseSite.verdictOn graph options answers)) listed)
      (examination graph options) :=
    conformanceIssues_sorted.bind fun issues sorted =>
      Boundary.violations_yields.bind fun _ _ => .pure sorted
  exact (yields {} (by simp [Walk.Honest])).1

/-! ### Declarations at sight -/

/-- Nobody vouches for a declaration that is not accepted at sight. -/
theorem Declaration.vouchedFor_of_unaccepted {answers : DeclId → Isolation} {id : DeclId}
    {decl : Declaration} (unaccepted : ¬ UseSite.AcceptedAtSight answers (decl.vouchedFor id)) :
    decl.vouchedFor id = decl :=
  vouchedFor_eq fun unchecked => unaccepted (.unchecked unchecked)

theorem UseSite.RefusedAtSight.transfer {graph other : Graph} {options : Options}
    {answers : DeclId → Isolation} {decl : Declaration} {site : ModuleId}
    (refused : RefusedAtSight graph options answers decl site)
    (fields : ∀ field, Counts graph answers decl field →
      ∃ counterpart, Counts other answers decl counterpart ∧
        counterpart.isMutable = field.isMutable ∧ counterpart.type = field.type) :
    RefusedAtSight other options answers decl site := by
  cases refused with
  | unassertedClass absent isClass => exact .unassertedClass absent isClass
  | unassertedProtocol absent isProtocol => exact .unassertedProtocol absent isProtocol
  | subclassable checked isClass extensible => exact .subclassable checked isClass extensible
  | foreignValue absent type value foreign => exact .foreignValue absent type value foreign
  | mutableField checked isClass final counted changes =>
    obtain ⟨counterpart, counted, alike, -⟩ := fields _ counted
    exact .mutableField checked isClass final counted (alike.trans changes)
  | functionField counted typed function =>
    obtain ⟨counterpart, counted, -, alike⟩ := fields _ counted
    exact .functionField counted (alike.trans typed) function

/-! ### The graph -/

namespace Graph

/-- The second graph is the first with an unchecked assertion on the declaration with this id. -/
def Vouches (graph vouched : Graph) (id : DeclId) : Prop := vouched.toDraft = graph.vouchFor id

namespace Vouches

variable {graph vouched : Graph} {id : DeclId} (vouches : graph.Vouches vouched id)

include vouches

theorem decls : vouched.decls = graph.decls.map (·.vouchedFor id) :=
  congrArg Draft.decls vouches

theorem edges : vouched.edges = graph.edges := by
  rw [vouches]
  rfl

theorem decl? (other : DeclId) :
    vouched.decl? other = (graph.decl? other).map (·.vouchedFor id) := by
  rw [vouches, Draft.decl?_vouchFor]

theorem extension? (extension : ExtensionId) :
    vouched.extension? extension = graph.extension? extension := by
  rw [vouches]
  rfl

theorem members (parent : DeclId) :
    vouched.members parent = (graph.members parent).map (·.vouchedFor id) := by
  rw [Graph.members, vouches.decls, List.filter_map]
  rfl

theorem storedFields (type : DeclId) :
    vouched.storedFields type = (graph.storedFields type).map (·.vouchedFor id) := by
  rw [Graph.storedFields, vouches.members, List.filter_map]
  rfl

theorem initializers (type : DeclId) :
    vouched.initializers type = (graph.initializers type).map (·.vouchedFor id) := by
  rw [Graph.initializers, vouches.members, List.filter_map]
  rfl

theorem container? (decl : Declaration) :
    (decl.vouchedFor id).enclosing.bind vouched.decl? =
      (decl.enclosing.bind graph.decl?).map (·.vouchedFor id) := by
  change decl.enclosing.bind vouched.decl? = _
  cases decl.enclosing with
  | none => rfl
  | some parent => exact vouches.decl? parent

theorem enclosingType? (decl : Declaration) :
    vouched.enclosingType? (decl.vouchedFor id) =
      (graph.enclosingType? decl).map (·.vouchedFor id) := by
  rw [Graph.enclosingType?, vouches.container?, Option.filter_map]
  rfl

theorem inType {decl owner : Declaration} : vouched.InType (decl.vouchedFor id) owner ↔
    ∃ plain, graph.InType decl plain ∧ plain.vouchedFor id = owner := by
  simp only [← Graph.enclosingType?_eq_some, vouches.enclosingType?, Option.map_eq_some_iff]

theorem conformanceScope? (type protocol : DeclId) :
    vouched.conformanceScope? type protocol = graph.conformanceScope? type protocol := by
  unfold Graph.conformanceScope?
  rw [vouches.decl?]
  cases graph.decl? type <;> rfl

theorem spanOf? (other : DeclId) : vouched.spanOf? other = graph.spanOf? other := by
  unfold Graph.spanOf?
  rw [vouches.decl?]
  cases graph.decl? other <;> rfl

theorem nameOf (other : DeclId) : vouched.nameOf other = graph.nameOf other := by
  unfold Graph.nameOf
  rw [vouches.decl?]
  cases graph.decl? other <;> rfl

theorem plan : vouched.plan = graph.plan := by
  have links : Links.ofDeclarations vouched.decls = Links.ofDeclarations graph.decls := by
    rw [vouches.decls, Links.ofDeclarations, List.map_map]
    refine List.map_congr_left fun decl _ => ?_
    simp only [Function.comp, List.any_map]
    rfl
  rw [vouched.plan_eq, graph.plan_eq, Decomposition.ofDeclarations, links]
  rfl

theorem chain (other : DeclId) :
    vouched.chain other = (graph.chain other).map (·.vouchedFor id) := by
  rw [Draft.chain, vouches.decls, Draft.outward_vouchedFor]
  rfl

theorem binding? : vouched.binding? = graph.binding? := by
  funext other
  rw [Graph.binding?, vouches.chain, List.find?_map, Option.map_map]
  rfl

theorem crosses : vouched.crosses = graph.crosses := by
  have callee : vouched.calleeBinding? = graph.calleeBinding? := by
    funext edge
    unfold Graph.calleeBinding?
    rw [vouches.decl?, vouches.binding?]
    cases graph.decl? edge.callee with
    | none => rfl
    | some callee =>
      obtain ⟨_, _, kind⟩ := callee
      cases kind <;> rfl
  have async : vouched.isAsync = graph.isAsync := by
    funext other
    unfold Graph.isAsync
    rw [vouches.decl?]
    cases graph.decl? other <;> rfl
  have same : vouched.isSameActorValue = graph.isSameActorValue := by
    funext edge
    rw [Graph.isSameActorValue, Graph.isSameActorValue, vouches.binding?, callee]
  unfold Graph.crosses
  rw [async, same]

/-! ### Isolation -/

/-- No rule of isolation looks at assertions. -/
theorem ruling (options : Options) (decl : Declaration) :
    (decl.vouchedFor id).ruling vouched options = decl.ruling graph options := by
  have member : Rule.actorMember vouched (decl.vouchedFor id) = Rule.actorMember graph decl := by
    rw [Rule.actorMember, vouches.enclosingType?, Rule.actorMember]
    cases graph.enclosingType? decl <;> rfl
  have extension : Rule.extensionAttribute vouched (decl.vouchedFor id) =
      Rule.extensionAttribute graph decl := by
    unfold Rule.extensionAttribute
    simp only [vouches.extension?]
    rfl
  have type : Rule.enclosingType vouched (decl.vouchedFor id) = Rule.enclosingType graph decl := by
    rw [Rule.enclosingType, vouches.enclosingType?, Rule.enclosingType]
    cases graph.enclosingType? decl <;> rfl
  have requirement : Rule.requirement vouched (decl.vouchedFor id) = Rule.requirement graph decl := by
    have inScope : Rule.isInScope vouched (decl.vouchedFor id) = Rule.isInScope graph decl := by
      funext required
      rw [Rule.isInScope, vouches.enclosingType?, vouches.decl?, Rule.isInScope]
      cases graph.enclosingType? decl with
      | none => rfl
      | some owner =>
        cases graph.decl? required with
        | none => rfl
        | some required =>
          have stated : vouched.conformanceScope? owner.id = graph.conformanceScope? owner.id :=
            funext (vouches.conformanceScope? owner.id)
          exact congrArg (fun scope => decide (required.enclosing.bind scope = some decl.scope)) stated
    rw [Rule.requirement, Rule.requirement, inScope]
    rfl
  rw [Declaration.ruling, Declaration.ruling, Rule.rules, Rule.rules, member, extension, type, requirement]
  rfl

theorem sameRulings (options : Options) :
    SameRulings graph vouched options options where
  plan := vouches.plan
  alike other _ := by
    rw [vouches.decl?, Option.map_map]
    congr 1
    funext decl
    exact vouches.ruling options decl

/-! ### Use sites -/

variable {options : Options} {answers : DeclId → Isolation} {decl : Declaration} {site : ModuleId}
  {here next : UseSite}

theorem countedFields : UseSite.countedFields vouched answers decl =
    (UseSite.countedFields graph answers decl).map (·.vouchedFor id) := by
  rw [UseSite.countedFields, vouches.storedFields, List.filter_map]
  rfl

theorem counts {field : Declaration} : UseSite.Counts vouched answers decl field ↔
    ∃ plain, UseSite.Counts graph answers decl plain ∧ plain.vouchedFor id = field := by
  simp only [← UseSite.mem_countedFields, vouches.countedFields, List.mem_map]

theorem refused_iff : UseSite.RefusedAtSight vouched options answers decl site ↔
    UseSite.RefusedAtSight graph options answers decl site := by
  constructor
  · refine fun refused => refused.transfer fun field listed => ?_
    obtain ⟨plain, counted, rfl⟩ := vouches.counts.mp listed
    exact ⟨plain, counted, rfl, rfl⟩
  · refine fun refused => refused.transfer fun field counted => ?_
    exact ⟨_, vouches.counts.mpr ⟨field, counted, rfl⟩, rfl, rfl⟩

theorem declared {other : DeclId} (found : vouched.decl? other = some decl) :
    ∃ plain, graph.decl? other = some plain ∧ plain.vouchedFor id = decl :=
  Option.map_eq_some_iff.mp ((vouches.decl? other).symm.trans found)

theorem bad (bad : UseSite.Bad vouched options answers here) :
    UseSite.Bad graph options answers here := by
  cases bad with
  | undeclared absent =>
    rw [vouches.decl?, Option.map_eq_none_iff] at absent
    exact .undeclared absent
  | notType found notType =>
    obtain ⟨plain, declared, rfl⟩ := vouches.declared found
    exact .notType declared notType
  | refused found isType unaccepted refused =>
    obtain ⟨plain, declared, rfl⟩ := vouches.declared found
    have same := Declaration.vouchedFor_of_unaccepted unaccepted
    rw [same] at isType unaccepted refused
    exact .refused declared isType unaccepted (vouches.refused_iff.mp refused)

theorem pointsTo (points : UseSite.PointsTo vouched options answers here next) :
    UseSite.PointsTo graph options answers here next := by
  cases points with
  | field found isType unaccepted unrefused listed typed mentioned =>
    obtain ⟨plain, declared, rfl⟩ := vouches.declared found
    -- What points on is not accepted at sight, so it is as it was and has the fields that it had.
    have same := Declaration.vouchedFor_of_unaccepted unaccepted
    rw [same] at isType unaccepted unrefused listed
    rw [same]
    obtain ⟨field, counted, rfl⟩ := vouches.counts.mp listed
    exact .field declared isType unaccepted (mt vouches.refused_iff.mpr unrefused) counted typed mentioned

theorem leadsToBad {type : TypeRef} (leads : UseSite.LeadsToBad vouched options answers type site) :
    UseSite.LeadsToBad graph options answers type site := by
  rcases leads with function | ⟨mentioned, listed, other, reached, bad⟩
  · exact .inl function
  · have led := Relation.ReflTransGen.mono (fun _ _ => vouches.pointsTo) _ _ reached
    exact .inr ⟨mentioned, listed, other, led, vouches.bad bad⟩

/-! ### Violations -/

theorem transferred : Boundary.transferred vouched = Boundary.transferred graph := by
  have result : Boundary.resultType? vouched = Boundary.resultType? graph := by
    funext edge
    unfold Boundary.resultType?
    rw [vouches.decl?]
    cases graph.decl? edge.callee with
    | none => rfl
    | some callee =>
      obtain ⟨_, _, kind⟩ := callee
      cases kind <;> rfl
  funext edge
  rw [Boundary.transferred, Boundary.transferred, result, vouches.nameOf]

theorem violationAt :
    Boundary.violationAt vouched options answers = Boundary.violationAt graph options answers := by
  funext edge category value
  rw [Boundary.violationAt, Boundary.violationAt, vouches.spanOf?]

theorem demandedFor (edge : CallEdge) (value : ValueRef) :
    (Boundary.demandedFor vouched options answers edge value).Sublist
      (Boundary.demandedFor graph options answers edge value) := by
  rw [Boundary.demandedFor, vouches.violationAt]
  exact sublist_of_imp vouches.leadsToBad

theorem demanded (edge : CallEdge) (values : List ValueRef) :
    (Boundary.demanded vouched options answers edge values).Sublist
      (Boundary.demanded graph options answers edge values) := by
  have crosses : vouched.Crosses answers edge ↔ graph.Crosses answers edge := by
    rw [← crosses_iff, vouches.crosses, crosses_iff]
  rw [Boundary.demanded, Boundary.demanded, vouches.violationAt]
  by_cases leaves : graph.Crosses answers edge
  · rw [if_pos leaves, if_pos (crosses.mpr leaves)]
    exact (List.Sublist.refl _).append (.flatMap_right _ fun value _ => vouches.demandedFor edge value)
  · rw [if_neg leaves, if_neg (mt crosses.mp leaves)]

theorem shared (declared : decl ∈ graph.decls)
    (shared : Boundary.Shared vouched answers (decl.vouchedFor id)) :
    Boundary.Shared graph answers decl where
  declared
  stored := shared.stored
  changes := shared.changes
  unisolated := shared.unisolated
  reachable := by
    cases shared.reachable with
    | topLevel top => exact .topLevel top
    | static static => exact .static static
    | actorStorage owned actor =>
      obtain ⟨plain, encloses, rfl⟩ := vouches.inType.mp owned
      exact .actorStorage encloses actor
    | globalActorStorage owned guarded =>
      obtain ⟨plain, encloses, rfl⟩ := vouches.inType.mp owned
      exact .globalActorStorage encloses guarded

theorem demandedAt (declared : decl ∈ graph.decls) :
    (Boundary.demandedAt vouched options answers (decl.vouchedFor id)).Sublist
      (Boundary.demandedAt graph options answers decl) := by
  refine sublist_of_imp ?_
  rintro ⟨shared, unannotated, type, typed, leads⟩
  exact ⟨vouches.shared declared shared, unannotated, type, typed, vouches.leadsToBad leads⟩

theorem contractViolations :
    Boundary.contractViolations vouched options = Boundary.contractViolations graph options := by
  have exempt (target : Declaration) :
      Boundary.isExempt vouched (target.vouchedFor id) = Boundary.isExempt graph target := by
    funext witness
    rw [Boundary.isExempt, vouches.container?, Boundary.isExempt]
    cases target.enclosing.bind graph.decl? <;> rfl
  have targets (decl : Declaration) : Boundary.targetViolations vouched options (decl.vouchedFor id) =
      Boundary.targetViolations graph options decl := by
    funext witness target
    rw [Boundary.targetViolations, vouches.decl?, Boundary.targetViolations]
    cases graph.decl? target with
    | none => rfl
    | some target =>
      simp only [Option.map_some, exempt]
      rfl
  rw [Boundary.contractViolations, vouches.decls, Analysis.forEach_map]
  congr 1
  funext decl
  rw [Function.comp_apply, Boundary.declContractViolations, targets]
  rfl

theorem defaultViolations :
    Boundary.defaultViolations vouched options = Boundary.defaultViolations graph options := by
  have contexts (owner : Declaration) :
      Boundary.initContexts vouched (owner.vouchedFor id) = Boundary.initContexts graph owner := by
    have listed : vouched.initializers (owner.vouchedFor id).id = _ := vouches.initializers owner.id
    rw [Boundary.initContexts, listed, Boundary.initContexts]
    cases graph.initializers owner.id with
    | nil => rfl
    | cons first rest =>
      exact congrArg (· >>= fun domains => pure (ascending domains))
        (Analysis.forEach_map (fun initializer => return [← Analysis.domain initializer.id])
          (·.vouchedFor id) (first :: rest))
  rw [Boundary.defaultViolations, vouches.decls, Analysis.forEach_map]
  congr 1
  funext decl
  have valued : (decl.vouchedFor id).defaultValue = decl.defaultValue := rfl
  rw [Function.comp_apply, Boundary.declDefaultViolations, vouches.enclosingType?, valued,
    Boundary.declDefaultViolations]
  cases decl.defaultValue with
  | none => rfl
  | some value =>
    cases graph.enclosingType? decl with
    | none => rfl
    | some owner =>
      simp only [Option.map_some, contexts]
      rfl

theorem found (piece : Boundary.Piece) :
    (piece.found vouched options answers).Sublist (piece.found graph options answers) := by
  cases piece with
  | declarations =>
    -- Contracts and default values give the same from every ledger, and so they do in both graphs.
    have composable := @Analysis.Constant.composable answers (fun _ => True) fun _ _ _ => trivial
    obtain ⟨contracts, contracted⟩ := @Sequential.contracts _ composable.toSequential graph options
    obtain ⟨defaults, defaulted⟩ := @Sequential.defaults _ composable.toSequential graph options
    rw [Boundary.found_declarations contracted defaulted]
    rw [← vouches.contractViolations] at contracted
    rw [← vouches.defaultViolations] at defaulted
    rw [Boundary.found_declarations contracted defaulted, vouches.decls, List.flatMap_map]
    refine .append_right (.append_right (.flatMap_right _ fun decl declared => ?_) _) _
    exact vouches.demandedAt declared
  | call edge =>
    rw [Boundary.found_call, Boundary.found_call, vouches.transferred]
    exact vouches.demanded edge _

theorem violations (options : Options) :
    (Pass.findings vouched options).violations.Sublist (Pass.findings graph options).violations := by
  have sorted (graph : Graph) : (Pass.findings graph options).violations = _ :=
    (congrArg Findings.violations (Pass.run_eq graph options .sequential).1).symm.trans
      (Pass.violations_eq graph options .sequential)
  have pieces : vouched.pieces = graph.pieces := by rw [Graph.pieces, vouches.edges, Graph.pieces]
  rw [sorted, sorted, (vouches.sameRulings options).resolution, pieces]
  exact sortOn_sublist _ (.flatMap_right _ fun piece _ => vouches.found piece)

/-! ### Checked assertions -/

theorem failsOn {fault : SendableIssueKind}
    (fails : decl.FailsOn vouched options answers (UseSite.verdictOn vouched options answers) fault) :
    decl.FailsOn graph options answers (UseSite.verdictOn graph options answers) fault := by
  cases fails with
  | subclassable isClass extensible => exact .subclassable isClass extensible
  | field listed fails =>
    obtain ⟨plain, counted, rfl⟩ := vouches.counts.mp listed
    refine .field counted ?_
    cases fails with
    | mutableField isClass changes => exact .mutableField isClass changes
    | nonSendableField typed refused =>
      have leads := vouches.leadsToBad (UseSite.leadsToBad_iff.mpr refused)
      exact .nonSendableField typed (UseSite.leadsToBad_iff.mp leads)

/-- Only a type that nobody vouches for has to answer for a checked assertion. -/
theorem arises {issue : SendableIssue}
    (arises : issue.Arises vouched options answers (UseSite.verdictOn vouched options answers)) :
    issue.Arises graph options answers (UseSite.verdictOn graph options answers) := by
  obtain ⟨decl, declared, about, checked, isType, answerable, fails⟩ := arises
  rw [vouches.decls] at declared
  obtain ⟨plain, listed, rfl⟩ := List.mem_map.mp declared
  have same : plain.vouchedFor id = plain := Declaration.vouchedFor_eq (by simp [checked])
  rw [same] at about checked isType answerable fails
  exact ⟨plain, listed, about, checked, isType, answerable, vouches.failsOn fails⟩

theorem sendableIssues (options : Options) :
    (Pass.findings vouched options).sendableIssues.Sublist
      (Pass.findings graph options).sendableIssues := by
  obtain ⟨listed, sorted, enumerated⟩ := Pass.sendableIssues_sorted graph options
  obtain ⟨listedToo, sortedToo, enumeratedToo⟩ := Pass.sendableIssues_sorted vouched options
  rw [sorted, sortedToo]
  -- No two issues have the same rank, so it is enough that none of them is new.
  refine sortOn_sublist_of_subset Rank.delimited_sendableIssue.injective enumeratedToo.nodup ?_
  intro issue mem
  rw [enumeratedToo.mem_iff, (vouches.sameRulings options).resolution] at mem
  exact (enumerated.mem_iff issue).mpr (vouches.arises mem)

theorem validate (options : Options) : options.validate vouched = options.validate graph := by
  unfold Options.validate
  cases options.entryPointActor with
  | none => rfl
  | some actor =>
    simp only [vouches.decl?]
    cases graph.decl? actor <;> rfl

end Vouches

end Graph

/-- Vouching for a type only relaxes. The program is accepted as before, its isolation and the issues
about it are the same, and of the violations and of the issues about checked assertions part is left, in
the same order. -/
theorem vouching_relaxes {draft : Draft} {graph : Graph} {options : Options} {checker : Checker}
    (built : Graph.build draft = .ok graph) (created : Checker.create graph options = .ok checker)
    (id : DeclId) :
    ∃ vouched relaxed, Graph.build (draft.vouchFor id) = .ok vouched ∧
      Checker.create vouched options = .ok relaxed ∧
      ∀ (requests others : List Checker.Request) (report counterpart : Report),
        report ∈ checker.reports requests → counterpart ∈ relaxed.reports others →
          counterpart.resolution = report.resolution ∧
          counterpart.resolutionIssues = report.resolutionIssues ∧
          counterpart.violations.Sublist report.violations ∧
          counterpart.sendableIssues.Sublist report.sendableIssues := by
  have wellFormed := Graph.wellFormed_of_build built
  obtain ⟨vouched, builtToo⟩ := Graph.build_of_wellFormed (wellFormed.vouchFor id)
  have vouches : graph.Vouches vouched id := by
    rw [Graph.Vouches, Graph.inOrder_of_build builtToo, Draft.vouchFor_inOrder,
      Graph.inOrder_of_build built]
  have accepted := Checker.validate_of_create created
  rw [← vouches.validate] at accepted
  have createdToo := Checker.create_of_validate accepted
  refine ⟨vouched, _, builtToo, createdToo, ?_⟩
  intro requests others report counterpart reported reportedToo
  obtain ⟨findings, resolved⟩ := Checker.findings_of_mem created reported
  obtain ⟨findingsToo, resolvedToo⟩ := Checker.findings_of_mem createdToo reportedToo
  have same := (vouches.sameRulings options).resolution
  refine ⟨?_, ?_, ?_, ?_⟩
  · rw [resolved, resolvedToo, same]
  · rw [findings, findingsToo, Pass.findings, Pass.findings, same]
  · rw [findings, findingsToo]
    exact vouches.violations options
  · rw [findings, findingsToo]
    exact vouches.sendableIssues options

/-- A list that can change, with a cursor that asserts nothing. Global variables keep a cursor and a
list. -/
def keptCursors : Graph where
  decls :=
    [{ id := ⟨1⟩, name := "Cursor", kind := .type .classType },
      { id := ⟨2⟩, name := "Head", kind := .type .classType, isFinal := true, sendable := .checked },
      { id := ⟨3⟩, name := "first", kind := .storedProperty, enclosing := some ⟨2⟩, isMutable := true,
        type := some (.nominal ⟨2⟩) },
      { id := ⟨4⟩, name := "cursor", kind := .storedProperty, enclosing := some ⟨2⟩,
        type := some (.nominal ⟨1⟩) },
      { id := ⟨5⟩, name := "latest", kind := .storedProperty, isMutable := true,
        type := some (.nominal ⟨1⟩) },
      { id := ⟨6⟩, name := "all", kind := .storedProperty, isMutable := true,
        type := some (.nominal ⟨2⟩) }]
  plan := _
  plan_eq := rfl
  decls_ascending := by decide
  extensions_ascending := Graph.noExtensions_ascending
  edges_ascending := Graph.noCalls_ascending
  sound := by decide +kernel

def trustedCursors : Graph where
  toDraft := keptCursors.vouchFor ⟨1⟩
  plan := _
  plan_eq := rfl
  decls_ascending := by decide
  extensions_ascending := Graph.noExtensions_ascending
  edges_ascending := Graph.noCalls_ascending
  sound := by decide +kernel

theorem keptCursors_relaxed :
    ∃ checker relaxed report counterpart,
      Graph.build keptCursors.toDraft = .ok keptCursors ∧
      Checker.create keptCursors {} = .ok checker ∧
      Graph.build (keptCursors.vouchFor ⟨1⟩) = .ok trustedCursors ∧
      Checker.create trustedCursors {} = .ok relaxed ∧
      checker.reports [.sequential] = [report] ∧ relaxed.reports [.sequential] = [counterpart] ∧
      report.violations.length = 2 ∧ counterpart.violations.length = 1 ∧
      counterpart.violations.Sublist report.violations ∧
      report.sendableIssues.length = 3 ∧ counterpart.sendableIssues.length = 2 ∧
      counterpart.sendableIssues.Sublist report.sendableIssues := by
  have built : Graph.build keptCursors.toDraft = .ok keptCursors :=
    Graph.build_eq_of_inOrder keptCursors.wellFormed (by decide +kernel)
  have created : Checker.create keptCursors {} = .ok ⟨keptCursors, {}, {}⟩ := rfl
  obtain ⟨vouched, relaxed, builtToo, createdToo, relaxes⟩ := vouching_relaxes built created ⟨1⟩
  have trusted : vouched = trustedCursors := by
    refine Graph.eq_of_toDraft ((Graph.inOrder_of_build builtToo).trans ?_)
    decide +kernel
  subst trusted
  obtain rfl := Checker.eq_of_create createdToo
  obtain ⟨-, -, violations, issues⟩ := relaxes [.sequential] [.sequential] _ _
    (List.mem_singleton_self _) (List.mem_singleton_self _)
  have before : (Pass.run keptCursors {} .sequential).violations.length = 2 := by decide +kernel
  have after : (Pass.run trustedCursors {} .sequential).violations.length = 1 := by decide +kernel
  have raised : (Pass.run keptCursors {} .sequential).sendableIssues.length = 3 := by decide +kernel
  have left : (Pass.run trustedCursors {} .sequential).sendableIssues.length = 2 := by decide +kernel
  exact ⟨_, _, _, _, built, created, builtToo, createdToo, rfl, rfl, before, after, violations, raised,
    left, issues⟩

end ActorIsolation
