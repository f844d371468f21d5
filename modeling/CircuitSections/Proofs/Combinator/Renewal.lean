import CircuitSections.Proofs.Engine.Operations
import CircuitSections.Proofs.Run.Memory
import Mathlib.Data.List.Nodup
import Mathlib.Data.List.Perm.Subperm

/-!
# Rules that go on

When rules are set, each configuration takes the first old rule that has it and
is not yet taken.  What is left to take depends on the configurations before,
but only on those that are the same: the old rules with one configuration go on
in their order, one for each time that it comes up (`renew_rules`).  This is a
one-to-one choice, and as it runs out of no configuration before the old rules
do, no other one keeps more of them (`Reuse.chosenWithin_le`).
-/

namespace CircuitSections

/-! ### Elements of one kind -/

section Counting

variable {α : Type} {p : α → Bool} {list : List α}

theorem getElem?_filter_eq_bind (k : Nat) :
    (list.filter p)[k]? = (list.findIdxs p)[k]? >>= fun j => list[j]? := by
  by_cases within : k < (list.findIdxs p).length
  · have kept : k < (list.filter p).length := by
      rwa [← List.countP_eq_length_filter, ← List.length_findIdxs]
    rw [List.getElem?_eq_getElem within, List.getElem?_eq_getElem kept,
      List.getElem_filter_eq_getElem_getElem_findIdxs kept]
    simp
  · have past : ¬ k < (list.filter p).length := by
      rwa [← List.countP_eq_length_filter, ← List.length_findIdxs]
    rw [List.getElem?_eq_none (Nat.le_of_not_lt within),
      List.getElem?_eq_none (Nat.le_of_not_lt past)]
    rfl

theorem countP_take_succ (i : Nat) :
    (list.take (i + 1)).countP p = (list.take i).countP p + if list[i]?.any
      p then 1 else 0 := by
  rw [List.take_add_one, List.countP_append]
  cases list[i]? with
  | none => rfl
  | some a => simp [List.countP_singleton]

theorem countP_take_lt {i k : Nat} {a : α} (found : list[i]? = some a)
    (holds : p a = true) (before : i < k) : (list.take i).countP p <
      (list.take k).countP p := by
  have next : (list.take (i + 1)).countP p = (list.take i).countP p + 1 := by
    rw [countP_take_succ, found, Option.any_some, if_pos holds]
  have among : (list.take (i + 1)).Sublist (list.take k) :=
    List.take_sublist_take_left before
  exact Nat.lt_of_lt_of_le (by omega) among.countP_le

theorem getElem?_filter_countP {i : Nat} {a : α} (found : list[i]? = some a)
    (holds : p a = true) :
    (list.filter p)[(list.take i).countP p]? = some a := by
  obtain ⟨within, same⟩ := List.getElem?_eq_some_iff.mp found
  have split : list = list.take i ++ a :: list.drop (i + 1) := by
    rw [← same, List.getElem_cons_drop, List.take_append_drop]
  have kept : list.filter p =
      (list.take i).filter p ++ a :: (list.drop (i + 1)).filter p := by
    conv_lhs => rw [split]
    rw [List.filter_append, List.filter_cons_of_pos holds]
  rw [kept, List.countP_eq_length_filter]
  simp

variable (p : α → Bool) (list : List α)

theorem countP_range (count : Nat) :
    (List.range count).countP (fun i => list[i]?.any p) =
      (list.take count).countP p := by
  induction count with
  | zero => simp
  | succ count ih =>
      rw [List.range_succ, List.countP_append, ih, countP_take_succ,
        List.countP_singleton]

/-- Of the elements of one kind, those that come after fewer than some number of
others are as many as the number, or all. -/
theorem countP_range_first (number count : Nat) :
    (List.range count).countP (fun i =>
        list[i]?.any p && decide ((list.take i).countP p < number)) =
        min ((list.take count).countP p) number := by
  induction count with
  | zero => simp
  | succ count ih =>
      rw [List.range_succ, List.countP_append, ih, countP_take_succ,
        List.countP_singleton]
      by_cases holds : list[count]?.any p = true
      · simp only [holds, Bool.true_and, decide_eq_true_eq, if_true]
        split <;> omega
      · simp [holds]

end Counting

namespace RuleConfig

/-- What tells a configuration apart from others. -/
def key (config : RuleConfig) : List Condition × RuleAction × SpecKey :=
  (config.conditions, config.action, config.spec.key)

theorem same_iff {a b : RuleConfig} : a.same b = true ↔ a.key = b.key := by
  simp only [same, SectionSpec.same, key, Bool.and_eq_true,
    decide_eq_true_eq, Prod.mk.injEq, and_assoc]

theorem same_eq (a b : RuleConfig) : a.same b = decide (a.key = b.key) := by
  rw [Bool.eq_iff_iff, same_iff, decide_eq_true_eq]

theorem same_refl (config : RuleConfig) : config.same config = true :=
  same_iff.mpr rfl

theorem same_of_both {a b c : RuleConfig} (first : a.same c = true)
    (second : b.same c = true) :
    a.same b = true := by
  rw [same_iff] at first second ⊢
  exact first.trans second.symm

theorem same_congr {a b : RuleConfig} (same : a.same b = true)
    (other : RuleConfig) :
    a.same other = b.same other := by
  rw [Bool.eq_iff_iff, same_iff, same_iff, same_iff.mp same]

end RuleConfig

namespace Combinator

/-! ### Taking a rule -/

section Taking

variable {config : RuleConfig} {old others : List Rule} {kept : Rule}

theorem filter_takeMatching
    (taken : takeMatching config old = some (kept, others))
    (other : RuleConfig) :
    old.filter (·.config.same other) =
      if config.same other then kept :: others.filter (·.config.same other)
      else others.filter (·.config.same other) := by
  induction old generalizing others with
  | nil => cases taken
  | cons first rest ih =>
      simp only [takeMatching] at taken
      split at taken
      next same =>
        cases taken
        rw [List.filter_cons, RuleConfig.same_congr same]
      next different =>
        obtain ⟨⟨found, remaining⟩, matched, equal⟩ :=
          Option.map_eq_some_iff.mp taken
        cases equal
        rw [List.filter_cons, List.filter_cons, ih matched]
        by_cases wanted : config.same other = true
        · have apart : ¬ first.config.same other = true := by
            rw [RuleConfig.same_iff] at different wanted ⊢
            exact fun same => different (same.trans wanted.symm)
          simp [wanted, apart]
        · simp [wanted]

theorem not_same_of_takeMatching (missing : takeMatching config old = none) :
    ∀ rule ∈ old, ¬ rule.config.same config = true := by
  induction old with
  | nil => simp
  | cons first rest ih =>
      simp only [takeMatching] at missing
      split at missing
      next => cases missing
      next different =>
        exact List.forall_mem_cons.mpr
          ⟨different, ih (Option.map_eq_none_iff.mp missing)⟩

end Taking

/-! ### The rules of a new list -/

/-- The old rule that goes on at a place of a new list: of those that have the
configuration of the place, the one that comes after as many as places before it
have that configuration. -/
def kept? (old : List Rule) (configs : List RuleConfig)
    (i : Nat) : Option Rule :=
  configs[i]? >>= fun config =>
    (old.filter (·.config.same config))[(configs.take i).countP
      (·.same config)]?

/-- How many places before one have no old rule to go on. -/
def createdBefore (old : List Rule) (configs : List RuleConfig)
    (i : Nat) : Nat :=
  (List.range i).countP fun j => (kept? old configs j).isNone

section Kept

variable {config : RuleConfig} {old others : List Rule} {kept : Rule}
  (configs : List RuleConfig)

theorem kept?_zero_of_taken
    (taken : takeMatching config old = some (kept, others)) :
    kept? old (config :: configs) 0 = some kept := by
  have first := filter_takeMatching taken config
  rw [if_pos config.same_refl] at first
  simp [kept?, first]

theorem kept?_succ_of_taken
    (taken : takeMatching config old = some (kept, others)) (i : Nat) :
    kept? old (config :: configs) (i + 1) = kept? others configs i := by
  unfold kept?
  rw [List.getElem?_cons_succ]
  cases configs[i]? with
  | none => rfl
  | some other =>
      have split := filter_takeMatching taken other
      by_cases wanted : config.same other = true
      · rw [if_pos wanted] at split
        simp [split, wanted]
      · rw [if_neg wanted] at split
        simp [split, wanted]

theorem kept?_zero_of_missing (missing : takeMatching config old = none) :
    kept? old (config :: configs) 0 = none := by
  have none : old.filter (·.config.same config) = [] :=
    List.filter_eq_nil_iff.mpr (not_same_of_takeMatching missing)
  simp [kept?, none]

theorem kept?_succ_of_missing (missing : takeMatching config old = none)
    (i : Nat) :
    kept? old (config :: configs) (i + 1) = kept? old configs i := by
  unfold kept?
  rw [List.getElem?_cons_succ]
  cases configs[i]? with
  | none => rfl
  | some other =>
      by_cases wanted : config.same other = true
      · have none : old.filter (·.config.same other) = [] := by
          apply List.filter_eq_nil_iff.mpr
          intro rule member same
          exact not_same_of_takeMatching missing rule member
            (RuleConfig.same_of_both same wanted)
        simp [none]
      · simp [wanted]

theorem createdBefore_succ (old : List Rule) (config : RuleConfig) (i : Nat) :
    createdBefore old (config :: configs) (i + 1) =
      (if (kept? old (config :: configs) 0).isNone then 1 else 0) +
        (List.range i).countP fun j =>
          (kept? old (config :: configs) (j + 1)).isNone := by
  rw [createdBefore, List.range_succ_eq_map, List.countP_cons,
    List.countP_map, Nat.add_comm]
  rfl

end Kept

/-- The new rules: at each place the old one that goes on there, or else a new
one, under the next id of the supply. -/
theorem renew_rules {limits : Limits} {old rules : List Rule}
    {configs : List RuleConfig} {ids rest : RuleIdSupply}
    (renewed : renew limits old configs ids = .ok (rules, rest)) :
    rest.next = ids.next + createdBefore old configs configs.length ∧
      ∀ i config, configs[i]? = some config →
        rules[i]? = some ((kept? old configs i).getD
          (.fresh (.numbered (ids.next + createdBefore old configs i))
            config)) := by
  induction configs generalizing old ids rules with
  | nil =>
      cases renewed
      exact ⟨rfl, by simp⟩
  | cons config configs ih =>
      simp only [renew] at renewed
      split at renewed
      next kept others taken =>
        obtain ⟨⟨later, supply⟩, laterOk, same⟩ := bind_ok renewed
        cases same
        -- What goes on at the later places is the same without the taken rule
        -- and this place.
        obtain ⟨drawn, places⟩ := ih laterOk
        have before (i : Nat) : createdBefore old (config :: configs) (i + 1) =
            createdBefore others configs i := by
          rw [createdBefore_succ, kept?_zero_of_taken configs taken]
          simp [createdBefore, kept?_succ_of_taken configs taken]
        refine ⟨by rw [List.length_cons, before, drawn], ?_⟩
        intro i there found
        cases i with
        | zero => simp [kept?_zero_of_taken configs taken]
        | succ i =>
            rw [List.getElem?_cons_succ] at found ⊢
            rw [kept?_succ_of_taken configs taken, before, places i there found]
      next missing =>
        obtain ⟨⟨created, drew⟩, createdOk, laterPart⟩ := bind_ok renewed
        obtain ⟨⟨later, supply⟩, laterOk, same⟩ := bind_ok laterPart
        cases same
        obtain ⟨_, _, new⟩ := bind_ok createdOk
        cases new
        obtain ⟨drawn, places⟩ := ih laterOk
        have before (i : Nat) : createdBefore old (config :: configs) (i + 1) =
            1 + createdBefore old configs i := by
          rw [createdBefore_succ, kept?_zero_of_missing configs missing]
          simp [createdBefore, kept?_succ_of_missing configs missing]
        have next : ids.draw.2.next = ids.next + 1 := rfl
        refine ⟨by rw [List.length_cons, before, drawn, next, Nat.add_assoc],
          ?_⟩
        intro i there found
        cases i with
        | zero =>
            cases found
            simp [kept?_zero_of_missing configs missing, createdBefore,
              RuleIdSupply.draw]
        | succ i =>
            rw [List.getElem?_cons_succ] at found ⊢
            rw [kept?_succ_of_missing configs missing, before,
              places i there found, next, Nat.add_assoc]

/-! ### The places of old rules -/

/-- The place of the old rule that goes on at a place of a new list. -/
def origin (old : List Rule) (configs : List RuleConfig)
    (i : Nat) : Option Nat :=
  configs[i]? >>= fun config =>
    (old.findIdxs (·.config.same config))[(configs.take i).countP
      (·.same config)]?

/-- A one-to-one choice of old rules for places of a new list that have their
configurations. -/
structure Reuse (old : List Rule) (configs : List RuleConfig)
    (chosen : Nat → Option Nat) :
    Prop where
  same : ∀ i j, chosen i = some j → ∃ config rule, configs[i]? = some config ∧
    old[j]? = some rule ∧ rule.config.same config = true
  once : ∀ i k j, chosen i = some j → chosen k = some j → i = k

/-- For how many places of a list an old rule is chosen. -/
def chosenWithin (count : Nat) (chosen : Nat → Option Nat) : Nat :=
  (List.range count).countP fun i => (chosen i).isSome

theorem kept?_eq_bind (old : List Rule) (configs : List RuleConfig) (i : Nat) :
    kept? old configs i = origin old configs i >>= fun j => old[j]? := by
  unfold kept? origin
  cases configs[i]? with
  | none => rfl
  | some config => exact getElem?_filter_eq_bind _

theorem isSome_origin_iff {old : List Rule} {configs : List RuleConfig}
    {i : Nat} {config : RuleConfig} (found : configs[i]? = some config) :
    (origin old configs i).isSome = true ↔
      (configs.take i).countP (·.same config) <
        old.countP (·.config.same config) := by
  rw [origin, found, Option.bind_eq_bind, Option.bind_some, isSome_getElem?,
    List.length_findIdxs]

theorem reuse_origin (old : List Rule) (configs : List RuleConfig) :
    Reuse old configs (origin old configs) where
  same i j chosen := by
    obtain ⟨config, found, listed⟩ := Option.bind_eq_some_iff.mp chosen
    obtain ⟨within, same⟩ :=
      List.mem_findIdxs_iff_exists_getElem_pos.mp (List.mem_of_getElem? listed)
    exact ⟨config, old[j], found, List.getElem?_eq_getElem within, same⟩
  once i k j first second := by
    obtain ⟨config, found, listed⟩ := Option.bind_eq_some_iff.mp first
    obtain ⟨other, foundOther, listedOther⟩ := Option.bind_eq_some_iff.mp second
    obtain ⟨within, same⟩ :=
      List.mem_findIdxs_iff_exists_getElem_pos.mp (List.mem_of_getElem? listed)
    obtain ⟨_, sameOther⟩ :=
      List.mem_findIdxs_iff_exists_getElem_pos.mp
        (List.mem_of_getElem? listedOther)
    -- Both places have the configuration of the rule, so they count the same
    -- places before them.
    have key : config.key = other.key :=
      (RuleConfig.same_iff.mp same).symm.trans
        (RuleConfig.same_iff.mp sameOther)
    have alike (c : RuleConfig) : c.same config = c.same other := by
      rw [Bool.eq_iff_iff, RuleConfig.same_iff, RuleConfig.same_iff, key]
    simp only [alike] at listed
    have ranks :=
      (List.getElem?_inj (List.getElem?_eq_some_iff.mp listed).1
        List.nodup_findIdxs).mp
        (listed.trans listedOther.symm)
    have here : config.same other = true := RuleConfig.same_iff.mpr key
    rcases Nat.lt_trichotomy i k with before | equal | after
    · exact absurd ranks (Nat.ne_of_lt (countP_take_lt found here before))
    · exact equal
    · exact absurd ranks
        (Nat.ne_of_gt (countP_take_lt foundOther other.same_refl after))

/-! ### No choice keeps more -/

/-- The configurations of the places for which an old rule is chosen. -/
def chosenKeys (configs : List RuleConfig) (chosen : Nat → Option Nat) :
    List (List Condition × RuleAction × SpecKey) :=
  (List.range configs.length).filterMap fun i =>
    chosen i >>= fun _ => configs[i]?.map RuleConfig.key

section Choice

variable {old : List Rule} {configs : List RuleConfig}
  {chosen : Nat → Option Nat}

theorem length_chosenKeys : (chosenKeys configs chosen).length =
    chosenWithin configs.length chosen := by
  rw [chosenKeys, List.length_filterMap_eq_countP, chosenWithin]
  apply List.countP_congr
  intro i member
  rw [List.getElem?_eq_getElem (List.mem_range.mp member)]
  cases chosen i <;> simp

theorem count_chosenKeys (key : List Condition × RuleAction × SpecKey) :
    (chosenKeys configs chosen).count key =
      (List.range configs.length).countP fun i =>
      configs[i]?.any (·.key = key) && (chosen i).isSome := by
  rw [chosenKeys, List.count_filterMap]
  apply List.countP_congr
  intro i member
  rw [List.getElem?_eq_getElem (List.mem_range.mp member)]
  cases chosen i <;> simp

/-- No more places with a configuration are chosen than there are, or than old
rules with it. -/
theorem Reuse.count_le (reuse : Reuse old configs chosen)
    (key : List Condition × RuleAction × SpecKey) :
    (chosenKeys configs chosen).count key ≤
      min (configs.countP (·.key = key)) (old.countP (·.config.key = key)) := by
  let here (i : Nat) : Bool := configs[i]?.any (·.key = key)
  -- The places of the old rules that are chosen for this configuration. None is
  -- there twice.
  let taken := (List.range configs.length).filterMap fun i =>
    if here i then chosen i else none
  have size : (chosenKeys configs chosen).count key = taken.length := by
    rw [count_chosenKeys, List.length_filterMap_eq_countP]
    apply List.countP_congr
    intro i _
    cases placed : here i <;> simp [here, placed]
  apply Nat.le_min.mpr
  constructor
  · have places :=
      countP_range (fun config : RuleConfig => config.key = key)
        configs configs.length
    rw [List.take_length] at places
    rw [count_chosenKeys, ← places]
    apply List.countP_mono_left
    intro i _ both
    exact ((Bool.and_eq_true _ _).mp both).1
  · have picked {i j : Nat}
        (pick : (if here i then chosen i else none) = some j) :
        here i = true ∧ chosen i = some j :=
          Option.ite_none_right_eq_some.mp pick
    have apart : taken.Nodup := by
      apply List.Nodup.filterMap _ List.nodup_range
      intro i k j first second
      exact reuse.once i k j (picked first).2 (picked second).2
    have among : ∀ j ∈ taken, j ∈ old.findIdxs (·.config.key = key) := by
      intro j listed
      obtain ⟨i, _, pick⟩ := List.mem_filterMap.mp listed
      obtain ⟨placed, choice⟩ := picked pick
      obtain ⟨config, rule, found, there, same⟩ := reuse.same i j choice
      obtain ⟨within, equal⟩ := List.getElem?_eq_some_iff.mp there
      have wanted : config.key = key := by simpa [here, found] using placed
      rw [List.mem_findIdxs_iff_pos_getElem within, equal,
        decide_eq_true_eq, ← wanted]
      exact RuleConfig.same_iff.mp same
    have bound := (List.subperm_of_subset apart among).length_le
    rw [List.length_findIdxs] at bound
    rw [size]
    exact bound

theorem count_origin (old : List Rule) (configs : List RuleConfig)
    (key : List Condition × RuleAction × SpecKey) :
    (chosenKeys configs (origin old configs)).count key =
      min (configs.countP (·.key = key)) (old.countP (·.config.key = key)) := by
  have ranked :=
    countP_range_first (fun config : RuleConfig => config.key = key) configs
      (old.countP (·.config.key = key)) configs.length
  rw [List.take_length] at ranked
  rw [count_chosenKeys, ← ranked]
  apply List.countP_congr
  intro i member
  have found := List.getElem?_eq_getElem (List.mem_range.mp member)
  simp only [found, Option.any_some, Bool.and_eq_true, decide_eq_true_eq]
  refine and_congr_right fun here => ?_
  rw [isSome_origin_iff found]
  simp only [RuleConfig.same_eq, here]

/-- One that takes the first old rule each time keeps as many as any other
choice. -/
theorem Reuse.chosenWithin_le (reuse : Reuse old configs chosen) :
    chosenWithin configs.length chosen ≤
      chosenWithin configs.length (origin old configs) := by
  -- The choices are compared configuration by configuration, where both counts
  -- are known.
  rw [← length_chosenKeys, ← length_chosenKeys]
  apply List.Subperm.length_le
  apply List.subperm_ext_iff.mpr
  intro key _
  rw [count_origin]
  exact reuse.count_le key

end Choice

/-! ### The same rules again -/

theorem keys_of_alike {configs : List RuleConfig} {rules : List Rule}
    (alike : List.Forall₂ (fun config rule => rule.config.same config = true)
      configs rules) :
    configs.map RuleConfig.key = rules.map (·.config.key) := by
  induction alike with
  | nil => rfl
  | cons same _ ih =>
      rw [List.map_cons, List.map_cons, RuleConfig.same_iff.mp same, ih]

/-- Rules whose configurations are set anew are the new rules, if they are the
old ones as far as their order within each configuration goes. -/
theorem renew_eq {limits : Limits} {old rules listed : List Rule}
    {configs : List RuleConfig} {ids rest : RuleIdSupply}
    (renewed : renew limits old configs ids = .ok (rules, rest))
    (alike : List.Forall₂ (fun config rule => rule.config.same config = true)
      configs listed)
    (ordered : ∀ config ∈ configs,
      old.filter (·.config.same config) =
        listed.filter (·.config.same config)) :
    rules = listed := by
  have keys := keys_of_alike alike
  apply List.ext_getElem?
  intro i
  cases found : configs[i]? with
  | none =>
      have past := List.getElem?_eq_none_iff.mp found
      have pastRules : rules.length ≤ i := by rwa [(renew_ok renewed).1]
      have pastListed : listed.length ≤ i := by rwa [← alike.length_eq]
      rw [List.getElem?_eq_none pastRules, List.getElem?_eq_none pastListed]
  | some config =>
      have key : (listed.map (·.config.key))[i]? = some config.key := by
        rw [← keys, List.getElem?_map, found, Option.map_some]
      rw [List.getElem?_map] at key
      obtain ⟨rule, there, same⟩ := Option.map_eq_some_iff.mp key
      have counts : (configs.take i).countP (·.same config) =
          (listed.take i).countP (·.config.same config) := by
        have both :=
          congrArg (fun keys => (keys.take i).countP (· = config.key)) keys
        simpa only [← List.map_take, List.countP_map, Function.comp_def,
          RuleConfig.same_eq]
          using both
      have goesOn : kept? old configs i = some rule := by
        rw [kept?, found, Option.bind_eq_bind, Option.bind_some, counts,
          ordered config (List.mem_of_getElem? found)]
        exact getElem?_filter_countP there (RuleConfig.same_iff.mpr same)
      rw [(renew_rules renewed).2 i config found, goesOn, there,
        Option.getD_some]

theorem filter_eq_singleton {rules : List Rule}
    (distinct : rules.Pairwise fun a b => ¬ a.config.same b.config = true)
    {rule : Rule} (member : rule ∈ rules) {config : RuleConfig}
    (same : rule.config.same config = true) :
    rules.filter (·.config.same config) = [rule] := by
  have apart : (rules.filter (·.config.same config)).Pairwise
      fun a b => ¬ a.config.same b.config = true := distinct.filter _
  have held : rule ∈ rules.filter (·.config.same config) :=
    List.mem_filter.mpr ⟨member, same⟩
  have all : ∀ other ∈ rules.filter (·.config.same config),
      other.config.same config = true :=
    fun other kept => (List.mem_filter.mp kept).2
  generalize rules.filter (·.config.same config) = kept at apart held all
  match kept with
  | [] => cases held
  | [only] => rw [List.mem_singleton.mp held]
  | first :: second :: _ =>
      have others := (List.pairwise_cons.mp apart).1 second (by simp)
      exact absurd
        (RuleConfig.same_of_both (all first (by simp)) (all second (by simp)))
        others

/-! ### Setting rules -/

section SetRules

variable {combinator after : Combinator} {configs : List RuleConfig}
  {limits : Limits}
  {ids rest : RuleIdSupply}

theorem setRules_renews
    (accepted : combinator.setRules configs limits ids = .ok (after, rest)) :
    renew limits combinator.rules configs ids = .ok (after.rules, rest) ∧
      after = { combinator with
        rules := after.rules, rulesChanged := true } := by
  obtain ⟨_, _, afterCount⟩ := bind_ok accepted
  obtain ⟨_, _, afterConfigs⟩ := bind_ok afterCount
  obtain ⟨⟨rules, supply⟩, renewed, same⟩ := bind_ok afterConfigs
  cases same
  exact ⟨renewed, rfl⟩

theorem createdBefore_lt {old : List Rule} {i : Nat}
    (within : i < configs.length) (created : kept? old configs i = none) :
    createdBefore old configs i < createdBefore old configs configs.length := by
  have next : createdBefore old configs (i + 1) =
      createdBefore old configs i + 1 := by
    rw [createdBefore, List.range_succ, List.countP_append,
      List.countP_singleton, created]
    rfl
  have among : (List.range (i + 1)).Sublist (List.range configs.length) :=
    List.range_sublist.mpr within
  apply Nat.lt_of_succ_le
  rw [Nat.succ_eq_add_one, ← next]
  exact among.countP_le

theorem kept?_eq_none_iff {old : List Rule} {i : Nat} {config : RuleConfig}
    (found : configs[i]? = some config) :
    kept? old configs i = none ↔ old.countP (·.config.same config) ≤
      (configs.take i).countP (·.same config) := by
  rw [kept?, found, Option.bind_eq_bind, Option.bind_some,
    List.getElem?_eq_none_iff, ← List.countP_eq_length_filter]

theorem kept?_eq_some {old : List Rule} {i : Nat}
    {config : RuleConfig} {rule : Rule} (found : configs[i]? = some config)
    (kept : kept? old configs i = some rule) :
    (old.filter (·.config.same config))[(configs.take i).countP
      (·.same config)]? = some rule ∧
      ∃ j, origin old configs i = some j ∧ old[j]? = some rule := by
  constructor
  · rw [kept?, found] at kept
    exact kept
  · rw [kept?_eq_bind] at kept
    exact Option.bind_eq_some_iff.mp kept

theorem isSome_origin (old : List Rule) (configs : List RuleConfig) (i : Nat) :
    (origin old configs i).isSome = (kept? old configs i).isSome := by
  cases found : configs[i]? with
  | none => rw [origin, kept?, found]; rfl
  | some config =>
      rw [Bool.eq_iff_iff, isSome_origin_iff found,
        Option.isSome_iff_ne_none, Ne, kept?_eq_none_iff found, Nat.not_le]

/-- What stands at a place: the old rule whose turn it is, while there is
one. -/
theorem renew_place {old rules : List Rule}
    (renewed : renew limits old configs ids = .ok (rules, rest)) {i : Nat}
    {config : RuleConfig} (found : configs[i]? = some config) :
    let alike := old.filter (·.config.same config)
    let before := (configs.take i).countP (·.same config)
    ∃ rule, rules[i]? = some rule ∧ rule.config.same config = true ∧
      (before < alike.length → alike[before]? = some rule ∧
        ∃ j, origin old configs i = some j ∧ old[j]? = some rule) ∧
      (alike.length ≤ before → origin old configs i = none ∧
        rule = .fresh (.numbered (ids.next + createdBefore old configs i))
          config) := by
  intro alike before
  have there := (renew_rules renewed).2 i config found
  cases kept : kept? old configs i with
  | some rule =>
      obtain ⟨picked, place⟩ := kept?_eq_some found kept
      have same := (List.mem_filter.mp (List.mem_of_getElem? picked)).2
      rw [kept] at there
      refine ⟨rule, there, same, fun _ => ⟨picked, place⟩, fun few => ?_⟩
      exact absurd (List.getElem?_eq_some_iff.mp picked).1 (Nat.not_lt.mpr few)
  | none =>
      have few := (kept?_eq_none_iff found).mp kept
      rw [List.countP_eq_length_filter] at few
      have free : origin old configs i = none := by
        rw [← Option.not_isSome_iff_eq_none, isSome_origin, kept]
        exact Bool.false_ne_true
      rw [kept] at there
      exact ⟨_, there, config.same_refl, fun more =>
        absurd more (Nat.not_lt.mpr few), fun _ => ⟨free, rfl⟩⟩

/-- While no old rule has an id that the supply gives out, the ids tell which
rules go on. -/
theorem renew_ids {old rules : List Rule}
    (renewed : renew limits old configs ids = .ok (rules, rest))
    (unused : ∀ rule ∈ old, ∀ n, ids.next ≤ n → n < rest.next →
      rule.id ≠ .numbered n)
    {i : Nat} {rule : Rule} (there : rules[i]? = some rule) :
    (∃ kept ∈ old, kept.id = rule.id) ↔
      (origin old configs i).isSome = true := by
  obtain ⟨drawn, places⟩ := renew_rules renewed
  have within : i < configs.length := by
    rw [← (renew_ok renewed).1]
    exact (List.getElem?_eq_some_iff.mp there).1
  have placed := places i configs[i] (List.getElem?_eq_getElem within)
  rw [there] at placed
  rw [isSome_origin]
  cases kept : kept? old configs i with
  | some goesOn =>
      rw [kept] at placed
      cases placed
      obtain ⟨_, j, _, held⟩ :=
        kept?_eq_some (List.getElem?_eq_getElem within) kept
      exact ⟨fun _ => rfl, fun _ => ⟨goesOn, List.mem_of_getElem? held, rfl⟩⟩
  | none =>
      have later := createdBefore_lt within kept
      rw [kept] at placed
      cases placed
      refine ⟨fun reused => ?_, fun reused => absurd reused Bool.false_ne_true⟩
      obtain ⟨other, held, same⟩ := reused
      exact absurd same (unused other held _ (Nat.le_add_right _ _) (by omega))

theorem renew_permuted {old rules listed : List Rule}
    (renewed : renew limits old configs ids = .ok (rules, rest))
    (order : listed.Perm old)
    (distinct : old.Pairwise fun a b => ¬ a.config.same b.config = true)
    (alike : List.Forall₂ (fun config rule => rule.config.same config = true)
      configs listed) :
    rules = listed := by
  have listedDistinct : listed.Pairwise fun a b =>
      ¬ a.config.same b.config = true := by
    refine (order.pairwise_iff fun {a b} apart => ?_).mpr distinct
    rw [RuleConfig.same_iff] at apart ⊢
    exact Ne.symm apart
  apply renew_eq renewed alike
  intro config member
  have key : config.key ∈ listed.map (·.config.key) := by
    rw [← keys_of_alike alike]
    exact List.mem_map_of_mem member
  obtain ⟨rule, held, equal⟩ := List.mem_map.mp key
  have same : rule.config.same config = true := RuleConfig.same_iff.mpr equal
  rw [filter_eq_singleton listedDistinct held same,
    filter_eq_singleton distinct (order.mem_iff.mp held) same]

/-- Setting rules keeps what the old ones remember, as far as it can.  There is
one rule for each configuration, in order.  Of the old rules with that
configuration, which may come up several times, a place takes the one that comes
after as many as places before it have taken; only where there are no more is a
rule made anew, under the next id of the supply.  So no old rule is taken twice,
and no other choice would keep more of them.  Configurations set once more leave
all rules as they are, and those of different rules in another order bring the
rules into that order. -/
theorem setRules_keeps_memories
    (accepted : combinator.setRules configs limits ids = .ok (after, rest)) :
    let old := combinator.rules
    after = { combinator with rules := after.rules, rulesChanged := true } ∧
    after.rules.length = configs.length ∧
    (∀ i config, configs[i]? = some config →
      let alike := old.filter (·.config.same config)
      let before := (configs.take i).countP (·.same config)
      ∃ rule, after.rules[i]? = some rule ∧ rule.config.same config = true ∧
        (before < alike.length → alike[before]? = some rule ∧
          ∃ j, origin old configs i = some j ∧ old[j]? = some rule) ∧
        (alike.length ≤ before → origin old configs i = none ∧
          rule = .fresh (.numbered (ids.next + createdBefore old configs i))
            config)) ∧
    ((∀ rule ∈ old, ∀ n, ids.next ≤ n → n < rest.next → rule.id ≠ .numbered n) →
      ∀ i rule, after.rules[i]? = some rule →
        ((∃ kept ∈ old, kept.id = rule.id) ↔
          (origin old configs i).isSome = true)) ∧
    Reuse old configs (origin old configs) ∧
    (∀ chosen, Reuse old configs chosen →
      chosenWithin configs.length chosen ≤
        chosenWithin configs.length (origin old configs)) ∧
    (List.Forall₂ (fun config rule => rule.config.same config = true)
      configs old →
      after.rules = old) ∧
    ∀ listed : List Rule, listed.Perm old →
      old.Pairwise (fun a b => ¬ a.config.same b.config = true) →
      List.Forall₂ (fun config rule => rule.config.same config = true)
        configs listed →
      after.rules = listed := by
  intro old
  obtain ⟨renewed, unchanged⟩ := setRules_renews accepted
  refine ⟨unchanged, (renew_ok renewed).1, ?_, ?_, reuse_origin old configs, ?_,
    ?_, ?_⟩
  · intro i config found
    exact renew_place renewed found
  · intro unused i rule there
    exact renew_ids renewed unused there
  · intro chosen reuse
    exact reuse.chosenWithin_le
  · intro alike
    exact renew_eq renewed alike fun _ _ => rfl
  · intro listed order distinct alike
    exact renew_permuted renewed order distinct alike

/-- Two rules for iron, of which the second holds, with one for copper between
them. -/
def ironTwice : Combinator :=
  { empty ⟨7⟩ with
    rules :=
      [⟨⟨1⟩, World.ironRule, false, none⟩,
        ⟨⟨2⟩, { World.ironRule with action := .remove }, true, some 3⟩,
        ⟨⟨3⟩, World.ironRule, true, some 4⟩] }

theorem setRules_keeps_memories_repeated :
    let configs := [World.ironRule, World.ironRule, World.ironRule]
    ∃ after rest, ironTwice.setRules configs .default ⟨5⟩ = .ok (after, rest) ∧
      after.rules[1]? = ironTwice.rules[2]? ∧
      (∃ rule, after.rules[2]? = some rule ∧
        rule = .fresh (.numbered 5) World.ironRule) ∧
      ∀ chosen, Reuse ironTwice.rules configs chosen →
        chosenWithin 3 chosen ≤ 2 := by
  intro configs
  have accepted : ironTwice.setRules configs .default ⟨5⟩ = .ok
      ({ ironTwice with
          rules :=
            [⟨⟨1⟩, World.ironRule, false, none⟩,
             ⟨⟨3⟩, World.ironRule, true, some 4⟩,
             .fresh (.numbered 5) World.ironRule]
          rulesChanged := true }, ⟨6⟩) := by
    rfl
  obtain ⟨_, _, places, _, _, greatest, _⟩ := setRules_keeps_memories accepted
  refine ⟨_, _, accepted, ?_, ?_, ?_⟩
  · obtain ⟨rule, there, _, kept, _⟩ := places 1 World.ironRule rfl
    obtain ⟨j, origin, held⟩ := (kept (by decide +kernel)).2
    have third : j = 2 :=
      Option.some.inj (origin.symm.trans (by decide +kernel))
    rw [third] at held
    exact there.trans held.symm
  · obtain ⟨rule, there, _, _, created⟩ := places 2 World.ironRule rfl
    exact ⟨rule, there, (created (by decide +kernel)).2⟩
  · intro chosen reuse
    exact Nat.le_trans (greatest chosen reuse) (by decide +kernel)

end SetRules

end Combinator

end CircuitSections
