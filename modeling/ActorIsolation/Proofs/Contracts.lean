import ActorIsolation.Proofs.Declarations
import ActorIsolation.Proofs.Resolution

/-! Inference keeps to contracts. A member that takes its global actor from the requirements it witnesses,
or from the members it overrides, takes the only one that they have. So the check of contracts finds no
fault with it against those of them that are on a global actor.
-/

set_option autoImplicit false

namespace ActorIsolation

namespace Prescription

/-- The declarations that a rule of this kind consults, for the rules that a member's contracts enter. -/
def consulted (graph : Graph) (decl : Declaration) : Origin → Set DeclId
  | .requirement => witnessed graph decl
  | .override => {id | id ∈ decl.overrides}
  | _ => ∅

variable {graph : Graph} {options : Options} {table : DeclId → Isolation} {decl : Declaration}
  {isolation : Isolation}

theorem elected_of_mem_opinions (said : some isolation ∈ opinions graph options table decl)
    (contract : isolation.origin = .requirement ∨ isolation.origin = .override) :
    election isolation.origin (actorsOf table (consulted graph decl isolation.origin)) =
      some isolation := by
  have other {origins : List Origin} {opinion : Option Isolation} (spoken : From origins opinion)
      (same : some isolation = opinion) (others : .requirement ∉ origins ∧ .override ∉ origins) :
      False := by
    rcases contract with requirement | override
    · exact spoken.without others.1 isolation same.symm requirement
    · exact spoken.without others.2 isolation same.symm override
  unfold opinions at said
  rcases List.mem_cons.mp said with same | said
  · exact (other (from_written decl) same (by simp)).elim
  cases kind : decl.kind with
  | closure inherits =>
    rw [kind, List.mem_singleton] at said
    exact (other (from_surroundings table decl inherits) said (by simp)).elim
  | type own =>
    simp only [kind, List.mem_cons, List.not_mem_nil, or_false] at said
    rcases said with same | same | same
    · exact (other (from_actorness decl) same (by simp)).elim
    · exact (other (from_election _ _) same (by simp)).elim
    · exact (other (from_election _ _) same (by simp)).elim
  | function | storedProperty =>
    simp only [kind, List.mem_cons, List.not_mem_nil, or_false] at said
    rcases said with same | same | same | same | same | same
    · exact (other (from_actorInstance graph decl) same (by simp)).elim
    · exact (other (from_entry options decl) same (by simp)).elim
    · exact (other (from_extensionActor graph decl) same (by simp)).elim
    · exact (other (from_typeActor graph table decl) same (by simp)).elim
    -- Each of the two elections speaks for its own origin only.
    · have origin : isolation.origin = .requirement := by
        have spoken := from_election _ _ isolation same.symm
        rcases contract with requirement | override
        · exact requirement
        · simp [override] at spoken
      rw [origin]
      exact same.symm
    · have origin : isolation.origin = .override := by
        have spoken := from_election _ _ isolation same.symm
        rcases contract with requirement | override
        · simp [requirement] at spoken
        · exact override
      rw [origin]
      exact same.symm

theorem single_of_election {origin : Origin} {candidates : Set DeclId} (regular : origin ≠ .ambiguous)
    (elected : election origin candidates = some isolation) (own : isolation.origin = origin) :
    ∃ actor, candidates = {actor} ∧ isolation.domain = .globalActor actor := by
  rcases candidates.subsingleton_or_nontrivial with few | several
  · rcases few.eq_empty_or_singleton with empty | ⟨actor, only⟩
    · simp [election_none empty] at elected
    · rw [election_one only, Option.some.injEq] at elected
      exact ⟨actor, only, by rw [← elected]⟩
  · rw [election_several several, Option.some.injEq] at elected
    rw [← own, ← elected] at regular
    exact absurd rfl regular

end Prescription

variable {graph : Graph} {options : Options} {decl : Declaration} {target : DeclId}

open Prescription in
/-- What was consulted and is on a global actor is where the declaration is. -/
theorem consulted_agrees (declared : decl ∈ graph.decls) :
    let table := (graph.resolution options).isolation
    target ∈ consulted graph decl (table decl.id).origin → (table target).domain.isGlobalActor →
      (table target).domain = (table decl.id).domain := by
  intro table member global
  have contract : (table decl.id).origin = .requirement ∨ (table decl.id).origin = .override := by
    cases origin : (table decl.id).origin <;> simp [origin, consulted] at member ⊢
  rcases @resolution_justified graph options decl declared with ⟨cyclic, -⟩ | prescribed
  · change table decl.id = _ at cyclic
    rw [cyclic] at contract
    rcases contract with cycle | cycle <;> cases cycle
  · change table decl.id = _ at prescribed
    have said : (opinions graph options table decl).findSome? (fun opinion => opinion) =
        some (table decl.id) := by
      rw [Declaration.prescribed] at prescribed
      cases found : (opinions graph options table decl).findSome? fun opinion => opinion with
      | some isolation => rw [prescribed, found, Option.getD_some]
      | none =>
        rw [found, Option.getD_none] at prescribed
        rw [prescribed] at contract
        rcases contract with default | default <;> cases default
    obtain ⟨opinion, listed, same⟩ := List.exists_of_findSome?_eq_some said
    subst same
    have elected := elected_of_mem_opinions listed contract
    have regular : (table decl.id).origin ≠ .ambiguous := by
      rcases contract with same | same <;> simp [same]
    obtain ⟨actor, only, domain⟩ := single_of_election regular elected rfl
    obtain ⟨candidate, isolated⟩ := Option.isSome_iff_exists.mp global
    have there : (table target).domain = .globalActor candidate := by
      cases shape : (table target).domain <;> simp_all [Domain.globalActor?]
    have offered : candidate ∈ actorsOf table (consulted graph decl (table decl.id).origin) :=
      ⟨target, member, there⟩
    rw [only, Set.mem_singleton_iff] at offered
    rw [there, domain, offered]

/-! ### Contracts in a report -/

structure Violation.Mismatches (violation : Violation) (decl target : DeclId) : Prop where
  category : violation.category = .contractMismatch
  decl : violation.decl = decl
  related : violation.related = some target

namespace Boundary

theorem mismatch_reported_iff (declared : decl ∈ graph.decls) :
    (∃ violation ∈ (Pass.findings graph options).violations,
        violation.Mismatches decl.id target) ↔
      target ∈ decl.satisfies ++ decl.overrides ∧
        Mismatch graph (graph.resolution options).isolation decl target := by
  have perm := @Pass.mismatches_perm graph options decl declared
  constructor
  · rintro ⟨violation, mem, category, about, related⟩
    have own := perm.mem_iff.mp (List.mem_filter.mpr ⟨mem, by simp [category, about]⟩)
    obtain ⟨named, listed, mismatch, rfl⟩ := mismatch_of_mem own
    obtain rfl : named = target := Option.some.inj related
    exact ⟨listed, mismatch⟩
  · rintro ⟨listed, mismatch⟩
    have own : mismatchWith options (graph.resolution options).isolation decl target ∈
        mismatches graph options (graph.resolution options).isolation decl :=
      List.mem_map.mpr ⟨target, List.mem_filter.mpr ⟨listed, by simpa using mismatch⟩, rfl⟩
    exact ⟨_, (List.mem_filter.mp (perm.mem_iff.mpr own)).1, rfl, rfl, rfl⟩

end Boundary

open Boundary Prescription in
/-- The isolation that a member takes from its contracts is never held against it by them. Whatever a
checker is asked for, its report has a mismatch of a declaration with a target exactly when the two are
isolated differently and nothing exempts the declaration. If its isolation comes from the requirements
that it witnesses where its type conforms, there is none with any of these on a global actor, and
likewise for what it overrides. So what it is at odds with is not on a global actor, or was not consulted
when its isolation was inferred. -/
theorem inferred_isolation_keeps_contracts {graph : Graph} {options : Options} {checker : Checker}
    (created : Checker.create graph options = .ok checker) (requests : List Checker.Request)
    {report : Report} (reported : report ∈ checker.reports requests) {decl : Declaration}
    (declared : decl ∈ graph.decls) :
    let table := report.resolution.isolation
    (∀ target, (∃ violation ∈ report.violations, violation.Mismatches decl.id target) ↔
        target ∈ decl.satisfies ++ decl.overrides ∧ Mismatch graph table decl target) ∧
      ((table decl.id).origin = .requirement → ∀ target ∈ witnessed graph decl,
        (table target).domain.isGlobalActor →
          ∀ violation ∈ report.violations, ¬ violation.Mismatches decl.id target) ∧
      ((table decl.id).origin = .override → ∀ target ∈ decl.overrides,
        (table target).domain.isGlobalActor →
          ∀ violation ∈ report.violations, ¬ violation.Mismatches decl.id target) ∧
      ∀ violation ∈ report.violations, violation.category = .contractMismatch →
        violation.decl = decl.id → ∃ target ∈ decl.satisfies ++ decl.overrides,
          violation.Mismatches decl.id target ∧
            ((table target).domain.isGlobalActor →
              target ∉ consulted graph decl (table decl.id).origin) := by
  obtain ⟨findings, resolved⟩ := Checker.findings_of_mem created reported
  rw [findings, resolved]
  have reportedIff (target : DeclId) := @mismatch_reported_iff graph options decl target declared
  have silent {target : DeclId}
      (member : target ∈ consulted graph decl ((graph.resolution options).isolation decl.id).origin)
      (global : ((graph.resolution options).isolation target).domain.isGlobalActor) :
      ∀ violation ∈ (Pass.findings graph options).violations,
        ¬ violation.Mismatches decl.id target := by
    intro violation mem mismatches
    have mismatch := ((reportedIff target).mp ⟨violation, mem, mismatches⟩).2
    exact mismatch.differs (consulted_agrees declared member global)
  refine ⟨reportedIff, fun origin target member => silent (by rwa [origin]),
    fun origin target member => silent (by rwa [origin]), fun violation mem category about => ?_⟩
  have own := (@Pass.mismatches_perm graph options decl declared).mem_iff.mp
    (List.mem_filter.mpr ⟨mem, by simp [category, about]⟩)
  obtain ⟨target, listed, -, rfl⟩ := mismatch_of_mem own
  exact ⟨target, listed, ⟨rfl, rfl, rfl⟩, fun global member =>
    silent member global _ mem ⟨rfl, rfl, rfl⟩⟩

/-- A panel draws where the protocol says, and forgets that a reset can come from anywhere; its heir
follows the panel. -/
def drawnPanel : Graph where
  decls :=
    [{ id := ⟨0⟩, name := "Main", kind := .type .actor, isGlobalActor := true },
      { id := ⟨1⟩, name := "Drawable", kind := .type .protocol },
      { id := ⟨2⟩, name := "draw", kind := .function, enclosing := some ⟨1⟩,
        annotations := [.globalActor ⟨0⟩] },
      { id := ⟨3⟩, name := "reset", kind := .function, enclosing := some ⟨1⟩ },
      { id := ⟨4⟩, name := "Panel", kind := .type .classType, conformances := [⟨⟨1⟩, .primary⟩] },
      { id := ⟨5⟩, name := "draw", kind := .function, enclosing := some ⟨4⟩,
        satisfies := [⟨2⟩, ⟨3⟩] },
      { id := ⟨6⟩, name := "redraw", kind := .function, overrides := [⟨5⟩, ⟨3⟩] }]
  plan := _
  plan_eq := rfl
  decls_ascending := by decide
  extensions_ascending := Graph.noExtensions_ascending
  edges_ascending := Graph.noCalls_ascending
  sound := by decide +kernel

/-- Neither method is at odds with what it takes its actor from, and the first is with the reset. -/
theorem drawnPanel_keeps_contracts :
    ∃ checker report, Checker.create drawnPanel {} = .ok checker ∧
      report ∈ checker.reports [.check] ∧
      report.resolution.isolation ⟨5⟩ = ⟨.globalActor ⟨0⟩, .requirement⟩ ∧
      report.resolution.isolation ⟨6⟩ = ⟨.globalActor ⟨0⟩, .override⟩ ∧
      (∀ violation ∈ report.violations, ¬ violation.Mismatches ⟨5⟩ ⟨2⟩) ∧
      (∀ violation ∈ report.violations, ¬ violation.Mismatches ⟨6⟩ ⟨5⟩) ∧
      ∃ violation ∈ report.violations, violation.Mismatches ⟨5⟩ ⟨3⟩ := by
  have created : Checker.create drawnPanel {} = .ok ⟨drawnPanel, {}, {}⟩ := rfl
  obtain ⟨report, reported⟩ : ∃ report, report ∈ Checker.reports ⟨drawnPanel, {}, {}⟩ [.check] :=
    ⟨_, List.mem_cons_self⟩
  have entries : report.resolution.entries =
      [(⟨0⟩, ⟨.globalActor ⟨0⟩, .actorType⟩), (⟨1⟩, .fallback), (⟨2⟩, ⟨.globalActor ⟨0⟩, .explicit⟩),
        (⟨3⟩, .fallback), (⟨4⟩, .fallback), (⟨5⟩, ⟨.globalActor ⟨0⟩, .requirement⟩),
        (⟨6⟩, ⟨.globalActor ⟨0⟩, .override⟩)] := by
    rw [(Checker.findings_of_mem created reported).2]
    decide +kernel
  have isolation (id : DeclId) : report.resolution.isolation id =
      (List.lookup id report.resolution.entries).getD .fallback := rfl
  rw [entries] at isolation
  have drawn : report.resolution.isolation ⟨5⟩ = ⟨.globalActor ⟨0⟩, .requirement⟩ := isolation ⟨5⟩
  have redrawn : report.resolution.isolation ⟨6⟩ = ⟨.globalActor ⟨0⟩, .override⟩ := isolation ⟨6⟩
  obtain ⟨reportedIff, witness, -, -⟩ := inferred_isolation_keeps_contracts created [.check] reported
    (Graph.mem_of_decl? (rfl : drawnPanel.decl? ⟨5⟩ = some _))
  obtain ⟨-, -, override, -⟩ := inferred_isolation_keeps_contracts created [.check] reported
    (Graph.mem_of_decl? (rfl : drawnPanel.decl? ⟨6⟩ = some _))
  refine ⟨_, report, created, reported, drawn, redrawn, ?_, ?_, (reportedIff ⟨3⟩).mpr ⟨by simp, ?_⟩⟩
  · exact witness (by rw [drawn]) ⟨2⟩ ⟨by simp, _, _, _, Graph.enclosingType?_eq_some.mp rfl, rfl, rfl,
      Graph.conformanceScope?_eq_some.mp rfl⟩ (by rw [isolation]; rfl)
  · exact override (by rw [redrawn]) ⟨5⟩ (by simp) (by rw [drawn]; rfl)
  · refine ⟨by rw [drawn]; rfl, by rw [drawn, isolation]; decide, _, rfl, fun exempt => ?_⟩
    rw [drawn] at exempt
    cases exempt with
    | awaited awaited => cases awaited
    | actorOnly inside only => cases inside; cases only
    | container inside same =>
      cases inside
      rw [isolation] at same
      cases same

end ActorIsolation
