import CircuitSections.Proofs.Combinator.Outcome
import CircuitSections.Proofs.Combinator.Policy
import CircuitSections.Proofs.Run.Orderly

/-!
# Passes keep the policy up

A pass reconciles only if an edge, a change of the wiring or new rules call for
it.  Where combinators share no spec and wired targets accept edits, this misses
nothing: after every pass of a combinator the ledger and the host have what its
rules ask for while the channels are what they are now
(`World.pass_follows_policy`).  The invariant that carries the passes that do
nothing is `Upkept`: without new rules a combinator has what it desired at its
latest reconciliation, on the targets of that reconciliation.
-/

namespace CircuitSections

/-! ### One pass -/

/-- How a pass leaves a combinator, and what is tracked for it then. -/
structure PassOutcome (combinator after : Combinator) (ledger : Ledger)
    (channels : Channels) (targets : List TargetId) : Prop where
  id : after.id = combinator.id
  wired : after.wired = some (combinator.wiredOr targets)
  reconciled : after.reconciled = TargetSet.ofList (combinator.wiredOr targets)
  unchanged : after.rulesChanged = false
  configs : ∀ rule ∈ after.rules, ∃ old ∈ combinator.rules,
    old.config = rule.config
  policy : after.desired = after.policy channels
  owns : ∀ target key, ledger.Owns combinator.id target key ↔
    target ∈ combinator.wiredOr targets ∧ after.desired.contains key = true

/-- The combinator has what it desires on the targets of its latest
reconciliation, unless its rules were set since. -/
def Combinator.Current (combinator : Combinator) (ledger : Ledger) : Prop :=
  combinator.rulesChanged = false → ∀ target key,
    ledger.Owns combinator.id target key ↔
      combinator.reconciled.contains target = true ∧
        combinator.desired.contains key = true

theorem Combinator.pass_outcome {combinator : Combinator} {ledger : Ledger}
    {host : MemoryHost} (tick : UInt64)
    (accepts : ∀ target ∈ combinator.wiredOr (host.wiring combinator.id),
      host.Accepts target)
    (owned : ∀ target key, ledger.Owns combinator.id target key →
      host.Accepts target)
    (current : combinator.Current ledger) :
    let (_, after, ledger', _) := combinator.pass tick ledger host
    PassOutcome combinator after ledger' (host.channelsOf combinator.id)
      (host.wiring combinator.id) := by
  by_cases quiet : combinator.Quiet tick (host.channels combinator.id)
      (host.wiring combinator.id)
  · rw [pass_eq_of_quiet host.answers quiet]
    obtain ⟨still, sameWiring, sameRules⟩ := quiet
    have rules := stepped_rules_of_fired tick (host.channels combinator.id)
      (host.wiring combinator.id) still
    refine ⟨rfl, rfl, sameWiring.symm, sameRules, ?_,
      stepped_desired _ _ _ _, ?_⟩
    · intro rule member
      rw [rules] at member
      exact ⟨rule, member, rfl⟩
    · intro target key
      have desired : (combinator.stepped tick (host.channels combinator.id)
          (host.wiring combinator.id)).desired = combinator.desired := by
        rw [Combinator.desired, Combinator.desired, rules]
      rw [current sameRules, ← sameWiring, TargetSet.contains_ofList, desired]
  · rw [pass_eq_of_not_quiet host.answers quiet]
    refine ⟨rfl, rfl, rfl, rfl, ?_, ?_, ?_⟩
    · intro rule member
      exact (mem_stepped_rules tick _ _ member).2
    · exact stepped_desired combinator tick (host.channels combinator.id)
        (host.wiring combinator.id)
    · intro target key
      exact reconcile_owns (·.elim (accepts target) (owned target key))

/-! ### The invariant -/

/-- Nobody is in the way of anybody, only wired targets are known to
combinators, and what they have is current. -/
structure Upkept (used : CombinatorId → SpecKey → Prop)
    (wired : TargetId → Prop) (world : MemoryWorld) : Prop where
  orderly : Orderly used wired world.scene
  rules : ∀ id combinator, world.engine.combinator? id = some combinator →
    ∀ rule ∈ combinator.rules, rule.config.action = .inject →
      used id rule.config.spec.key
  known : ∀ id combinator, world.engine.combinator? id = some combinator →
    ∀ target ∈ combinator.wired.getD [], wired target
  wiring : ∀ id, ∀ target ∈ world.host.wiring id, wired target
  current : ∀ id combinator, world.engine.combinator? id = some combinator →
    combinator.Current world.engine.ledger

namespace Upkept

variable {used : CombinatorId → SpecKey → Prop} {wired : TargetId → Prop}
  {world : MemoryWorld}

theorem wiredOr (upkept : Upkept used wired world) {id : CombinatorId}
    {combinator : Combinator}
    (found : world.engine.combinator? id = some combinator) :
    ∀ target ∈ combinator.wiredOr (world.host.wiring id), wired target := by
  intro target member
  have known := upkept.known id combinator found target
  cases cached : combinator.wired with
  | none =>
      rw [Combinator.wiredOr, cached] at member
      exact upkept.wiring id target member
  | some targets =>
      rw [Combinator.wiredOr, cached] at member
      rw [cached] at known
      exact known member

theorem outcome (upkept : Upkept used wired world) {id : CombinatorId}
    {combinator : Combinator}
    (found : world.engine.combinator? id = some combinator) (tick : UInt64) :
    let (_, after, ledger, _) :=
      combinator.pass tick world.engine.ledger world.host
    PassOutcome combinator after ledger (world.host.channelsOf id)
      (world.host.wiring id) := by
  have named := Engine.combinator?_id found
  subst named
  apply Combinator.pass_outcome tick
  · intro target member
    exact upkept.orderly.accepting target (upkept.wiredOr found target member)
  · intro target key owns
    obtain ⟨entry, member, _, place⟩ := owns
    have known := upkept.orderly.onWired entry member
    rw [(SlotKey.mk.inj place).1] at known
    exact upkept.orderly.accepting target known
  · exact upkept.current _ combinator found

theorem turn (upkept : Upkept used wired world)
    (sole : ∀ a b key, used a key → used b key → a = b) (tick : UInt64)
    (id : CombinatorId) :
    Upkept used wired (world.turn tick id) := by
  cases found : world.engine.combinator? id with
  | none =>
      rw [World.turn_of_none tick found]
      exact upkept
  | some combinator =>
      obtain ⟨scene, edits, turned⟩ := World.turn_edits tick found
      have outcome := upkept.outcome found tick
      have engine := World.turn_of_some tick found
      have named := Engine.combinator?_id found
      rcases ran : combinator.pass tick world.engine.ledger world.host with
        ⟨report, after, ledger, host⟩
      rw [ran] at edits outcome engine
      simp only at edits outcome engine
      have uses : ∀ rule ∈ after.rules, rule.config.action = .inject →
          used id rule.config.spec.key := by
        intro rule member injects
        obtain ⟨old, oldMember, same⟩ := outcome.configs rule member
        rw [← same] at injects ⊢
        exact upkept.rules id combinator found old oldMember injects
      have wants : ∀ target spec, after.Wants target spec → wired target ∧
          used id spec.key := by
        intro target spec want
        obtain ⟨onWired, desired⟩ := want
        rw [outcome.wired] at onWired
        obtain ⟨rule, member, injects, rfl⟩ := Combinator.mem_desired desired
        exact ⟨upkept.wiredOr found target onWired, uses rule member injects⟩
      obtain ⟨orderly, others⟩ := edits.orderly sole wants upkept.orderly
      have sameLedger : (world.turn tick id).engine.ledger = scene.ledger :=
        congrArg Scene.ledger turned
      have afterId : after.id = id := outcome.id.trans named
      have held {other : CombinatorId} {theirs : Combinator}
          (there : (world.turn tick id).engine.combinator? other =
            some theirs) :
          theirs = after ∧ id = other ∨
            id ≠ other ∧ world.engine.combinator? other = some theirs := by
        rw [engine] at there
        rw [← afterId]
        exact Engine.held_putCombinator there
      constructor
      · rw [turned]
        exact orderly.of_fewer [.passed id] (fun _ member => member)
          rfl (by simp) rfl
          (fun _ known => known) orderly.accepting
      · intro other theirs foundOther rule member injects
        rcases held foundOther with ⟨rfl, rfl⟩ | ⟨_, before⟩
        · exact uses rule member injects
        · exact upkept.rules other theirs before rule member injects
      · intro other theirs foundOther target member
        rcases held foundOther with ⟨rfl, _⟩ | ⟨_, before⟩
        · rw [outcome.wired] at member
          exact upkept.wiredOr found target member
        · exact upkept.known other theirs before target member
      · intro other target member
        have sameHost : (world.turn tick id).host = scene.host :=
          congrArg Scene.host turned
        have sameWiring : scene.host.wiring = world.host.wiring := edits.frame.2
        rw [sameHost, sameWiring] at member
        exact upkept.wiring other target member
      · intro other theirs foundOther
        rcases held foundOther with ⟨rfl, _⟩ | ⟨apart, before⟩
        · intro _ target key
          have ledgerEq : (world.turn tick id).engine.ledger = ledger := by
            rw [engine]
          rw [ledgerEq, outcome.id, outcome.owns, outcome.reconciled,
            TargetSet.contains_ofList]
        · intro unchanged target key
          have theirsApart : theirs.id ≠ id := by
            rw [Engine.combinator?_id before]
            exact Ne.symm apart
          rw [sameLedger, others theirs.id target key theirsApart]
          exact upkept.current other theirs before unchanged target key

theorem turns (upkept : Upkept used wired world)
    (sole : ∀ a b key, used a key → used b key → a = b) (tick : UInt64)
    (ids : List CombinatorId) : Upkept used wired (world.turns tick ids) :=
  World.turns_induction (Upkept used wired) upkept
    (fun _ id between => between.turn sole tick id) ids

theorem mono (upkept : Upkept used wired world) {more : TargetId → Prop}
    (weaker : ∀ target, wired target → more target)
    (accepting : ∀ target, more target → world.host.Accepts target) :
    Upkept used more world where
  orderly := upkept.orderly.of_fewer [] (fun _ member => member)
    (by simp) (by simp)
    rfl weaker accepting
  rules := upkept.rules
  known id combinator found target member :=
    weaker target (upkept.known id combinator found target member)
  wiring id target member := weaker target (upkept.wiring id target member)
  current := upkept.current

/-- Operations that leave the ledger and the host alone keep everything up, if
what they change of a combinator leaves it current. -/
theorem of_engine (upkept : Upkept used wired world) (engine : Engine)
    (notes : List Event) (ledger : engine.ledger = world.engine.ledger)
    (untouched : ∀ target, Event.cleared target ∉ notes)
    (rules : ∀ id combinator, engine.combinator? id = some combinator →
      ∀ rule ∈ combinator.rules, rule.config.action = .inject →
        used id rule.config.spec.key)
    (held : ∀ id combinator, engine.combinator? id = some combinator →
      world.engine.combinator? id = some combinator ∨
        (∀ target ∈ combinator.wired.getD [], wired target) ∧
          combinator.Current world.engine.ledger) :
    Upkept used wired { world with engine, log := world.log ++ notes } where
  orderly := upkept.orderly.of_fewer notes
    (by
      intro entry member
      simpa [World.scene, ledger] using member)
    rfl (fun entry _ => untouched entry.target) rfl (fun _ known => known)
    upkept.orderly.accepting
  rules := rules
  known id combinator found := by
    rcases held id combinator found with old | new
    · exact upkept.known id combinator old
    · exact new.1
  wiring := upkept.wiring
  current id combinator found := by
    rw [ledger]
    rcases held id combinator found with old | new
    · exact upkept.current id combinator old
    · exact new.2

end Upkept

end CircuitSections
