import CircuitSections.Engine
import CircuitSections.Proofs.Ordered.Keys

/-!
# What the operations of the engine do

Which combinators an engine holds after each operation.  An operation either
refuses and changes nothing, or puts one combinator in.  Rules are only ever
those that the limits accept, and a combinator that was given them has to
reconcile (`Combinator.setRules_ok`); one that was restored does not.
-/

namespace CircuitSections

/-- The rule that comes back from its saved form. -/
def RuleSnapshot.rule (snapshot : RuleSnapshot) : Rule :=
  ⟨snapshot.id, snapshot.config, snapshot.previousResult, snapshot.lastFired⟩

namespace Combinator

/-- The limits accept the rules of the combinator. -/
def Valid (limits : Limits) (combinator : Combinator) : Prop :=
  combinator.rules.length ≤ limits.rulesPerCombinator.toNat ∧
    ∀ rule ∈ combinator.rules, rule.config.validate limits = .ok ()

theorem checkRuleCount_ok {limits : Limits} {count : Nat}
    (checked : limits.checkRuleCount count = .ok ()) :
    count ≤ limits.rulesPerCombinator.toNat := by
  simp only [Limits.checkRuleCount] at checked
  split at checked
  · cases checked
  · omega

theorem mem_takeMatching {config : RuleConfig}
    {old others : List Rule} {kept : Rule}
    (taken : takeMatching config old = some (kept, others)) :
    kept ∈ old ∧ ∀ rule ∈ others, rule ∈ old := by
  induction old generalizing others with
  | nil => cases taken
  | cons first rest induction =>
      simp only [takeMatching] at taken
      split at taken
      · cases taken
        exact ⟨List.mem_cons_self, fun rule member =>
          List.mem_cons_of_mem _ member⟩
      · obtain ⟨⟨found, remaining⟩, matched, same⟩ :=
          Option.map_eq_some_iff.mp taken
        cases same
        obtain ⟨keptOld, othersOld⟩ := induction matched
        refine ⟨List.mem_cons_of_mem _ keptOld, fun rule member => ?_⟩
        rcases List.mem_cons.mp member with rfl | later
        · exact List.mem_cons_self
        · exact List.mem_cons_of_mem _ (othersOld rule later)

theorem bind_ok {ε α β : Type} {first : Except ε α}
    {next : α → Except ε β} {result : β}
    (done : (first >>= next) = .ok result) : ∃ value, first = .ok value ∧
      next value = .ok result := by
  cases first with
  | error cause => cases done
  | ok value => exact ⟨value, rfl, done⟩

/-- Renewed rules are old ones or were just accepted, one for each
configuration. -/
theorem renew_ok {limits : Limits} {old rules : List Rule}
    {configs : List RuleConfig} {ids remaining : RuleIdSupply}
    (renewed : renew limits old configs ids = .ok (rules, remaining)) :
    rules.length = configs.length ∧
      ∀ rule ∈ rules, rule ∈ old ∨ rule.config.validate limits = .ok () := by
  induction configs generalizing old ids rules remaining with
  | nil =>
      cases renewed
      exact ⟨rfl, fun rule member => absurd member List.not_mem_nil⟩
  | cons config rest induction =>
      simp only [renew] at renewed
      split at renewed
      next kept others taken =>
        obtain ⟨keptOld, othersOld⟩ := mem_takeMatching taken
        obtain ⟨⟨later, supply⟩, laterOk, same⟩ := bind_ok renewed
        cases same
        obtain ⟨length, laterRules⟩ := induction laterOk
        refine ⟨by simp [length], fun rule member => ?_⟩
        rcases List.mem_cons.mp member with rfl | listed
        · exact .inl keptOld
        · exact (laterRules rule listed).imp_left (othersOld rule)
      · obtain ⟨⟨created, drawn⟩, createdOk, laterPart⟩ := bind_ok renewed
        obtain ⟨⟨later, supply⟩, laterOk, same⟩ := bind_ok laterPart
        cases same
        obtain ⟨length, laterRules⟩ := induction laterOk
        obtain ⟨_, valid, drew⟩ := bind_ok createdOk
        cases drew
        refine ⟨by simp [length], fun rule member => ?_⟩
        rcases List.mem_cons.mp member with rfl | listed
        · exact .inr valid
        · exact laterRules rule listed

/-- Accepted rules leave the wiring and what was reconciled as it was. -/
theorem setRules_ok {combinator after : Combinator} {configs : List RuleConfig}
    {limits : Limits} {ids remaining : RuleIdSupply}
    (accepted : combinator.setRules configs limits ids =
      .ok (after, remaining)) :
    after.id = combinator.id ∧ after.wired = combinator.wired ∧
      after.reconciled = combinator.reconciled ∧ after.rulesChanged = true ∧
      (combinator.Valid limits → after.Valid limits) := by
  obtain ⟨_, counted, afterCount⟩ := bind_ok accepted
  obtain ⟨_, _, afterConfigs⟩ := bind_ok afterCount
  obtain ⟨⟨rules, supply⟩, renewed, same⟩ := bind_ok afterConfigs
  cases same
  obtain ⟨length, origin⟩ := renew_ok renewed
  refine ⟨rfl, rfl, rfl, rfl, fun valid => ⟨?_, fun rule member => ?_⟩⟩
  · rw [length]
    exact checkRuleCount_ok counted
  · rcases origin rule member with old | new
    · exact valid.2 rule old
    · exact new

end Combinator

namespace Engine

@[simp]
theorem combinator?_putCombinator (engine : Engine) (combinator : Combinator)
    (id : CombinatorId) :
    (engine.putCombinator combinator).combinator? id =
      if combinator.id = id then some combinator
        else engine.combinator? id := by
  simp [combinator?, putCombinator, Ascending.find?_put]

theorem held_putCombinator {engine : Engine} {combinator other : Combinator}
    {id : CombinatorId}
    (found : (engine.putCombinator combinator).combinator? id = some other) :
    other = combinator ∧ combinator.id = id ∨
      combinator.id ≠ id ∧ engine.combinator? id = some other := by
  rw [combinator?_putCombinator] at found
  by_cases same : combinator.id = id
  · rw [if_pos same] at found
    exact .inl ⟨(Option.some.inj found).symm, same⟩
  · rw [if_neg same] at found
    exact .inr ⟨same, found⟩

theorem combinator?_id {engine : Engine} {id : CombinatorId}
    {combinator : Combinator}
    (found : engine.combinator? id = some combinator) : combinator.id = id :=
  Std.LawfulEqOrd.eq_of_compare (Ascending.find?_eq_some_iff.mp found).2

theorem putCombinator_of_held {engine : Engine} {id : CombinatorId}
    {combinator : Combinator} (held : engine.combinator? id = some combinator) :
    engine.putCombinator combinator = engine := by
  have same : engine.combinators.put combinator = engine.combinators := by
    apply Ascending.ext_find?
    intro other
    rw [Ascending.find?_put]
    split
    next equal =>
      have named :=
        (combinator?_id held).symm.trans (Std.LawfulEqOrd.eq_of_compare equal)
      rw [← held, named]
      rfl
    next => rfl
  rw [putCombinator, same]

theorem evaluate_of_some {σ : Type} [ChannelReader σ] [WiringReader σ]
    [SectionEditor σ] {engine : Engine} {id : CombinatorId}
    {combinator : Combinator} (found : engine.combinator? id = some combinator)
    (tick : UInt64) (host : σ) :
    engine.evaluate id tick host =
      let (report, after, ledger, host) :=
        combinator.pass tick engine.ledger host
      (.ok report, { engine.putCombinator after with ledger }, host) := by
  simp only [evaluate, found, passOf]

/-- Adding a combinator is refused, or leaves one that knows nothing and has to
reconcile. -/
theorem add_cases (engine : Engine) (id : CombinatorId)
    (configs : List RuleConfig) :
    (∃ cause, engine.add id configs = (.error cause, engine)) ∨
    ∃ combinator ids, engine.add id configs =
        (.ok (), { engine.putCombinator combinator with ids }) ∧
      engine.combinator? id = none ∧
      combinator.id = id ∧ combinator.wired = none ∧
        combinator.reconciled = .empty ∧
      combinator.rulesChanged = true ∧ combinator.Valid engine.limits := by
  unfold add
  split
  · exact .inl ⟨_, rfl⟩
  next absent =>
    split
    · exact .inl ⟨_, rfl⟩
    next combinator ids accepted =>
      obtain ⟨sameId, wired, reconciled, changed, valid⟩ :=
        Combinator.setRules_ok accepted
      have emptyValid : (Combinator.empty id).Valid engine.limits :=
        ⟨Nat.zero_le _, fun rule member => absurd member List.not_mem_nil⟩
      have missing : engine.combinator? id = none := by
        simpa [combinator?, Ascending.contains] using absent
      exact .inr
        ⟨combinator, ids, rfl, missing, sameId, wired, reconciled, changed,
         valid emptyValid⟩

theorem restoreRules_eq_ok_iff {limits : Limits} {snapshots : List RuleSnapshot}
    {rules : List Rule} :
    restoreRules limits snapshots = .ok rules ↔
      (∀ snapshot ∈ snapshots, snapshot.config.validate limits = .ok ()) ∧
        rules = snapshots.map RuleSnapshot.rule := by
  induction snapshots generalizing rules with
  | nil =>
      constructor
      · intro restored
        cases restored
        exact ⟨fun snapshot member => absurd member List.not_mem_nil, rfl⟩
      · rintro ⟨_, rfl⟩
        rfl
  | cons snapshot rest induction =>
      simp only [restoreRules, List.mapM_cons] at induction ⊢
      rw [List.forall_mem_cons]
      constructor
      · intro restored
        obtain ⟨first, firstOk, afterFirst⟩ := Combinator.bind_ok restored
        obtain ⟨later, laterOk, same⟩ := Combinator.bind_ok afterFirst
        obtain ⟨_, valid, firstEq⟩ := Combinator.bind_ok firstOk
        obtain ⟨laterValid, rfl⟩ := induction.mp laterOk
        cases firstEq
        cases same
        exact ⟨⟨valid, laterValid⟩, rfl⟩
      · rintro ⟨⟨valid, laterValid⟩, rfl⟩
        have first : Rule.restore snapshot limits = .ok snapshot.rule := by
          rw [Rule.restore, valid]
          rfl
        rw [first, induction.mpr ⟨laterValid, rfl⟩]
        rfl

theorem mem_restoreRules {limits : Limits} {snapshots : List RuleSnapshot}
    {rules : List Rule} (restored : restoreRules limits snapshots = .ok rules) :
    ∀ rule ∈ rules, rule.config.validate limits = .ok () := by
  obtain ⟨valid, rfl⟩ := restoreRules_eq_ok_iff.mp restored
  rw [List.forall_mem_map]
  exact valid

/-- Adding a combinator from its saved form is refused, or leaves one that knows
nothing but its rules. -/
theorem addRestored_cases (engine : Engine) (id : CombinatorId)
    (snapshots : List RuleSnapshot) :
    (∃ cause, engine.addRestored id snapshots = (.error cause, engine)) ∨
    ∃ combinator, engine.addRestored id snapshots =
      (.ok (), engine.putCombinator combinator) ∧
      combinator.id = id ∧ combinator.wired = none ∧
        combinator.rulesChanged = false ∧
      combinator.Valid engine.limits := by
  unfold addRestored
  split
  · exact .inl ⟨_, rfl⟩
  · split
    · exact .inl ⟨_, rfl⟩
    next combinator accepted =>
      obtain ⟨rules, restored, made⟩ := Combinator.bind_ok accepted
      obtain ⟨_, counted, same⟩ := Combinator.bind_ok made
      cases same
      exact .inr ⟨_, rfl, rfl, rfl, rfl, Combinator.checkRuleCount_ok counted,
        mem_restoreRules restored⟩

/-- Setting rules is refused, or leaves the combinator with all but its
rules. -/
theorem setRules_cases (engine : Engine) (id : CombinatorId)
    (configs : List RuleConfig) :
    (∃ cause, engine.setRules id configs = (.error cause, engine)) ∨
    ∃ old combinator ids, engine.setRules id configs =
        (.ok (), { engine.putCombinator combinator with ids }) ∧
      engine.combinator? id = some old ∧ combinator.id = id ∧
        combinator.wired = old.wired ∧
      combinator.reconciled = old.reconciled ∧ combinator.rulesChanged = true ∧
      (old.Valid engine.limits → combinator.Valid engine.limits) := by
  unfold setRules
  split
  · exact .inl ⟨_, rfl⟩
  next old found =>
    split
    · exact .inl ⟨_, rfl⟩
    next combinator ids accepted =>
      obtain ⟨sameId, wired, reconciled, changed, valid⟩ :=
        Combinator.setRules_ok accepted
      exact .inr ⟨old, combinator, ids, rfl, found,
        sameId.trans (combinator?_id found), wired, reconciled, changed, valid⟩

theorem noteWiringChange_cases (engine : Engine) (id : CombinatorId) :
    (∃ cause, engine.noteWiringChange id = (.error cause, engine)) ∨
    ∃ combinator, engine.combinator? id = some combinator ∧
      engine.noteWiringChange id =
        (.ok (), engine.putCombinator combinator.forgetWiring) := by
  unfold noteWiringChange
  split
  · exact .inl ⟨_, rfl⟩
  next combinator found => exact .inr ⟨combinator, found, rfl⟩

theorem held_remove {σ : Type} [SectionEditor σ] {engine : Engine}
    {id other : CombinatorId} {tick : UInt64} {host : σ}
    {combinator : Combinator}
    (found : (engine.remove id tick host).2.1.combinator? other =
      some combinator) :
    id ≠ other ∧ engine.combinator? other = some combinator := by
  unfold remove at found
  split at found
  next missing =>
    refine ⟨fun same => ?_, found⟩
    subst same
    rw [missing] at found
    cases found
  next =>
    have erased : (engine.combinators.erase id).find? other = some combinator :=
      found
    rw [Ascending.find?_erase] at erased
    split at erased
    · cases erased
    next apart => exact ⟨by simpa using apart, erased⟩

end Engine

end CircuitSections
