import CircuitSections.Proofs.Combinator.Settled
import CircuitSections.Proofs.Engine.Operations
import Mathlib.Data.List.Perm.Basic

/-!
# Restoring an engine

A saved engine is its ledger's entries and the saved rules of each of its
combinators.  What comes back from them, in whichever order the combinators are
added, is the engine with combinators that know nothing but their rules
(`Engine.restored_eq`).  A round in which every pass leaves the ledger alone
changes the combinators and nothing else (`Engine.evaluateEach_idle`).
-/

namespace CircuitSections

/-! ### Saved rules -/

namespace Engine

theorem restoreRules_snapshots {limits : Limits} {rules : List Rule}
    (valid : ∀ rule ∈ rules, rule.config.validate limits = .ok ()) :
    restoreRules limits (rules.map Rule.snapshot) = .ok rules := by
  refine restoreRules_eq_ok_iff.mpr ⟨List.forall_mem_map.mpr valid, ?_⟩
  rw [List.map_map]
  exact (List.map_id rules).symm

theorem addRestored_snapshots {engine : Engine} {combinator : Combinator}
    (absent : engine.combinator? combinator.id = none)
    (valid : combinator.Valid engine.limits) :
    engine.addRestored combinator.id combinator.snapshots =
      (.ok (), engine.putCombinator combinator.bare) := by
  obtain ⟨few, rules⟩ := valid
  have unheld : engine.combinators.contains combinator.id = false := by
    simpa [combinator?, Ascending.contains] using absent
  have counted : engine.limits.checkRuleCount combinator.rules.length =
      .ok () := by
    rw [Limits.checkRuleCount, if_neg (by omega)]
  have made :
      Combinator.withRules combinator.id combinator.rules engine.limits =
        .ok combinator.bare := by
    rw [Combinator.withRules, counted]
    rfl
  have read : restoreRules engine.limits combinator.snapshots =
      .ok combinator.rules :=
    restoreRules_snapshots rules
  have all : (restoreRules engine.limits combinator.snapshots >>= fun rules =>
      Combinator.withRules combinator.id rules engine.limits) =
        .ok combinator.bare := by
    rw [read]
    exact made
  simp only [addRestored, unheld, all]
  rfl

/-! ### Saved engines -/

/-- Adds the combinators of another engine from their saved forms, one after the
other. -/
def addRestoredFrom (source : Engine) :
    List CombinatorId → Engine → List (Except EngineError Unit) × Engine
  | [], engine => ([], engine)
  | id :: rest, engine =>
    let (answer, engine) :=
      match source.snapshots id with
      | .error cause => (.error cause, engine)
      | .ok snapshots => engine.addRestored id snapshots
    let (answers, engine) := addRestoredFrom source rest engine
    (answer :: answers, engine)

/-- What comes back when an engine is saved and loaded under its own limits, its
combinators in a given order. -/
def restored (source : Engine) (order : List CombinatorId)
    (ids : RuleIdSupply) :
    List (Except EngineError Unit) × Engine :=
  let blank := { empty ids with limits := source.limits }
  addRestoredFrom source order (blank.restoreLedger source.ledger.entries)

theorem addRestoredFrom_eq {source : Engine} {order : List Combinator}
    {engine : Engine}
    (held : ∀ combinator ∈ order, source.combinator? combinator.id =
      some combinator)
    (valid : ∀ combinator ∈ order, combinator.Valid engine.limits)
    (apart : order.Pairwise fun a b => a.id ≠ b.id)
    (absent : ∀ combinator ∈ order, engine.combinator? combinator.id = none) :
    addRestoredFrom source (order.map Combinator.id) engine =
      (order.map fun _ => .ok (),
        { engine with
          combinators := order.foldl (fun held c => held.put c.bare)
            engine.combinators }) := by
  induction order generalizing engine with
  | nil => rfl
  | cons first rest induction =>
      obtain ⟨firstApart, restApart⟩ := List.pairwise_cons.mp apart
      have saved : source.snapshots first.id = .ok first.snapshots := by
        rw [snapshots, held first List.mem_cons_self]
      have added := addRestored_snapshots (absent first List.mem_cons_self)
        (valid first List.mem_cons_self)
      have restAbsent : ∀ other ∈ rest,
          (engine.putCombinator first.bare).combinator? other.id = none := by
        intro other member
        rw [combinator?_putCombinator, Combinator.bare_id,
          if_neg (firstApart other member)]
        exact absent other (List.mem_cons_of_mem first member)
      have restValid : ∀ other ∈ rest,
          other.Valid (engine.putCombinator first.bare).limits :=
        fun other member => valid other (List.mem_cons_of_mem first member)
      have later := induction
        (fun other member => held other (List.mem_cons_of_mem first member))
        restValid restApart restAbsent
      simp only [List.map_cons, addRestoredFrom, saved, added, later]
      rfl

theorem exists_listed {engine : Engine} {order : List CombinatorId}
    (all : order.Perm engine.combinatorIds) :
    ∃ listed : List Combinator, order = listed.map Combinator.id ∧
      listed.Perm engine.combinators.toList := by
  have named : List.Forall₂ (fun id combinator => id = combinator.id)
      engine.combinatorIds
      engine.combinators.toList := by
    rw [combinatorIds, List.forall₂_map_left_iff, List.forall₂_same]
    exact fun combinator _ => rfl
  obtain ⟨listed, sameIds, perm⟩ := List.perm_comp_forall₂ all named
  rw [← List.forall₂_map_right_iff, List.forall₂_eq_eq_eq] at sameIds
  exact ⟨listed, sameIds, perm⟩

/-- Every combinator comes back, with its rules only, and so do the entries of
the ledger. -/
theorem restored_eq {source : Engine} {order : List CombinatorId}
    (valid : ∀ combinator ∈ source.combinators.toList,
      combinator.Valid source.limits)
    (all : order.Perm source.combinatorIds) (ids : RuleIdSupply) :
    source.restored order ids =
      (order.map fun _ => .ok (),
        { limits := source.limits
          ledger := .ofEntries source.ledger.entries
          combinators :=
            source.combinators.mapKeeping Combinator.bare fun _ => rfl
          ids }) := by
  obtain ⟨listed, rfl, perm⟩ := exists_listed all
  have apart : listed.Pairwise fun a b => a.id ≠ b.id :=
    (perm.pairwise_iff fun {a b} => Ne.symm).mpr source.combinators.keys_apart
  have combined : listed.foldl (fun held c => held.put c.bare)
      (.empty : Ascending Combinator.id) =
        source.combinators.mapKeeping Combinator.bare fun _ => rfl := by
    apply Ascending.foldl_put_perm Combinator.bare_id perm
    exact fun _ member => absurd member List.not_mem_nil
  rw [restored, addRestoredFrom_eq]
  · simp only [restoreLedger, empty, combined, List.map_map]
    rfl
  · exact fun combinator member => Ascending.find?_key (perm.mem_iff.mp member)
  · exact fun combinator member => valid combinator (perm.mem_iff.mp member)
  · exact apart
  · exact fun _ _ => rfl

/-! ### Quiet rounds -/

section Rounds

variable {σ : Type} [ChannelReader σ] [WiringReader σ] [SectionEditor σ]
  {Inside : σ → Prop}

/-- A round of passes that fire nothing and leave the ledger alone changes the
combinators and nothing else. -/
theorem evaluateEach_idle {before after : Combinator → Combinator}
    {ledger : Ledger} {tick : UInt64} {combinators : List Combinator}
    (idle : ∀ combinator ∈ combinators, ∀ {state : σ}, Inside state →
      ∃ report next, Inside next ∧ report.combinator = combinator.id ∧
        report.edges = [] ∧
        (before combinator).pass tick ledger state =
          (report, after combinator, ledger, next))
    (engine : Engine) (tracked : engine.ledger = ledger) {state : σ}
    (inside : Inside state) :
    ∃ reports next, Inside next ∧
      reports.map PassReport.combinator = combinators.map Combinator.id ∧
      (∀ report ∈ reports, report.edges = []) ∧
      evaluateEach tick (combinators.map before) engine state =
        (reports,
          { engine with
            combinators :=
              combinators.foldl (fun held c => held.put (after c))
                engine.combinators },
          next) := by
  induction combinators generalizing engine state with
  | nil => exact ⟨[], state, inside, rfl, by simp, rfl⟩
  | cons first rest induction =>
      obtain ⟨report, between, insideBetween, named, still, passed⟩ :=
        idle first List.mem_cons_self inside
      obtain ⟨reports, next, insideNext, restNamed, restStill, ran⟩ := induction
        (fun other member => idle other (List.mem_cons_of_mem first member))
        { engine.putCombinator (after first) with ledger } rfl insideBetween
      refine ⟨report :: reports, next, insideNext, ?_, ?_, ?_⟩
      · rw [List.map_cons, List.map_cons, named, restNamed]
      · intro other member
        rcases List.mem_cons.mp member with rfl | listed
        · exact still
        · exact restStill other listed
      · simp only [List.map_cons, evaluateEach, passOf, tracked, passed, ran]
        rw [← tracked]
        rfl

/-- A round over combinators of which each was changed before and is changed
again by its pass. -/
theorem evaluateAll_idle (before after : Combinator → Combinator)
    (keepsBefore : ∀ combinator, (before combinator).id = combinator.id)
    (keepsAfter : ∀ combinator, (after combinator).id = combinator.id)
    {source : Ascending Combinator.id} (engine : Engine) (tick : UInt64)
    (held : engine.combinators = source.mapKeeping before keepsBefore)
    (idle : ∀ combinator ∈ source.toList, ∀ {state : σ}, Inside state →
      ∃ report next, Inside next ∧ report.combinator = combinator.id ∧
        report.edges = [] ∧
        (before combinator).pass tick engine.ledger state =
          (report, after combinator, engine.ledger, next))
    {state : σ} (inside : Inside state) :
    ∃ reports next, Inside next ∧
      reports.map PassReport.combinator = source.toList.map Combinator.id ∧
      (∀ report ∈ reports, report.edges = []) ∧
      engine.evaluateAll tick state =
        (reports, { engine with
          combinators := source.mapKeeping after keepsAfter }, next) := by
  obtain ⟨reports, next, insideNext, named, still, ran⟩ :=
    evaluateEach_idle idle engine rfl inside
  have round : source.toList.foldl (fun held c => held.put (after c))
      engine.combinators =
        source.mapKeeping after keepsAfter := by
    apply Ascending.foldl_put_perm keepsAfter (List.Perm.refl _)
    intro combinator member
    rw [held] at member
    obtain ⟨old, listed, same⟩ := Ascending.mem_mapKeeping.mp member
    exact ⟨old, listed, by rw [← same, keepsBefore]⟩
  have all : engine.combinators.toList = source.toList.map before := by
    rw [held]; rfl
  refine ⟨reports, next, insideNext, named, still, ?_⟩
  rw [evaluateAll, all, ran, round]

end Rounds

end Engine

end CircuitSections
