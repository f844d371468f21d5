import CircuitSections.Proofs.Host.Transparency
import CircuitSections.Proofs.Combinator.Pass
import CircuitSections.Proofs.Tracking.Reconciliation
import Mathlib.Data.List.DropRight

/-!
# Watching the wiring

A watched host tells what matters to the wiring of combinators, and what it was
asked about it itself.  From the story one can read off what a combinator ought
to know: the answer to the first question since its wiring was last to be read
again (`Story.wiring`), the wiring with which it last reconciled (`Story.used`),
and whether its rules were set since (`Story.ruled`).  A pass adds its question
about the wiring to the story, if it has one, and nothing else
(`Combinator.pass_watched`).
-/

namespace CircuitSections

/-- Something that matters to the wiring of combinators. -/
inductive Moment
  /-- A combinator came in. -/
  | registered (id : CombinatorId)
  /-- The rules of a combinator were set. -/
  | ruled (id : CombinatorId)
  /-- The wiring of a combinator was said to have changed. -/
  | rewired (id : CombinatorId)
  | destroyed (target : TargetId)
  /-- A pass of a combinator was asked for. -/
  | began (id : CombinatorId)
  /-- The host was asked for the wiring of a combinator, and what it
  answered. -/
  | asked (id : CombinatorId) (targets : List TargetId)
  /-- A pass came to its end. -/
  | passed (report : PassReport)

namespace Moment

/-- The wiring of a combinator is to be read again. -/
def invalidates (id : CombinatorId) : Moment → Bool
  | .registered other | .rewired other => other = id
  | .destroyed _ => true
  | _ => false

/-- The host's answer on the wiring of a combinator. -/
def answer? (id : CombinatorId) : Moment → Option (List TargetId)
  | .asked other targets => if other = id then some targets else none
  | _ => none

/-- The host was asked for the wiring of some combinator. -/
def asks : Moment → Bool
  | .asked _ _ => true
  | _ => false

/-- The report of a pass that came to its end. -/
def report? : Moment → Option PassReport
  | .passed report => some report
  | _ => none

/-- The combinator came in or reconciled. -/
def settles (id : CombinatorId) : Moment → Bool
  | .registered other => other = id
  | .passed report => report.combinator = id && report.reconciled
  | _ => false

/-- The rules of the combinator were set. -/
def rules (id : CombinatorId) : Moment → Bool
  | .ruled other => other = id
  | _ => false

end Moment

/-- Moments, the earliest first. -/
abbrev Story := List Moment

namespace Story

/-- What came after the latest moment of a kind. -/
def since (kind : Moment → Bool) (story : Story) : Story :=
  story.rtakeWhile fun moment => !kind moment

/-- What came up to the latest moment of a kind. -/
def upTo (kind : Moment → Bool) (story : Story) : Story :=
  story.rdropWhile fun moment => !kind moment

/-- The first answer on the wiring of a combinator since it was last to be read
again. -/
def wiring (id : CombinatorId) (story : Story) : Option (List TargetId) :=
  (story.since (Moment.invalidates id)).findSome? (Moment.answer? id)

/-- Whether the rules of a combinator were set since it came in or last
reconciled. -/
def ruled (id : CombinatorId) (story : Story) : Bool :=
  (story.since (Moment.settles id)).any (Moment.rules id)

/-- The wiring with which a combinator last reconciled since it came in, or
none. -/
def used (id : CombinatorId) (story : Story) : List TargetId :=
  match (story.upTo (Moment.settles id)).getLast? with
  | some (.passed _) => ((story.upTo (Moment.settles id)).wiring id).getD []
  | _ => []

section Later

variable {kind : Moment → Bool} {id : CombinatorId} {story moments : Story}
  {moment : Moment}

theorem since_append (others : ∀ moment ∈ moments, kind moment = false) :
    Story.since kind (story ++ moments) = story.since kind ++ moments := by
  induction moments generalizing story with
  | nil => rw [List.append_nil, List.append_nil]
  | cons first rest induction =>
      obtain ⟨here, later⟩ := List.forall_mem_cons.mp others
      rw [List.append_cons, induction later, since,
        List.rtakeWhile_concat_pos _ _ _ (by simp [here])]
      exact (List.append_cons _ first rest).symm

theorem since_concat (here : kind moment = true) :
    Story.since kind (story ++ [moment]) = [] :=
  List.rtakeWhile_concat_neg _ _ _ (by simp [here])

theorem upTo_append (others : ∀ moment ∈ moments, kind moment = false) :
    Story.upTo kind (story ++ moments) = story.upTo kind := by
  induction moments generalizing story with
  | nil => rw [List.append_nil]
  | cons first rest induction =>
      obtain ⟨here, later⟩ := List.forall_mem_cons.mp others
      rw [List.append_cons, induction later, upTo,
        List.rdropWhile_concat_pos _ _ _ (by simp [here])]
      rfl

theorem upTo_concat (here : kind moment = true) :
    Story.upTo kind (story ++ [moment]) = story ++ [moment] :=
  List.rdropWhile_concat_neg _ _ _ (by simp [here])

theorem wiring_append
    (others : ∀ moment ∈ moments, moment.invalidates id = false) :
    Story.wiring id (story ++ moments) =
      (story.wiring id).or (moments.findSome? (Moment.answer? id)) := by
  rw [wiring, since_append others, List.findSome?_append]
  rfl

theorem wiring_concat (invalid : moment.invalidates id = true) :
    Story.wiring id (story ++ [moment]) = none := by
  rw [wiring, since_concat invalid]
  rfl

theorem ruled_append (others : ∀ moment ∈ moments, moment.settles id = false) :
    Story.ruled id (story ++ moments) =
      (story.ruled id || moments.any (Moment.rules id)) := by
  rw [ruled, since_append others, List.any_append]
  rfl

theorem ruled_concat (settled : moment.settles id = true) :
    Story.ruled id (story ++ [moment]) = false := by
  rw [ruled, since_concat settled]
  rfl

theorem used_append (others : ∀ moment ∈ moments, moment.settles id = false) :
    Story.used id (story ++ moments) = story.used id := by
  rw [used, upTo_append others]
  rfl

theorem used_registered : Story.used id (story ++ [.registered id]) = [] := by
  rw [used, upTo_concat (by simp [Moment.settles]), List.getLast?_concat]

theorem used_passed {report : PassReport} (own : report.combinator = id)
    (reconciled : report.reconciled = true) :
    Story.used id (story ++ [.passed report]) = (story.wiring id).getD [] := by
  have same : Story.wiring id (story ++ [.passed report]) =
      story.wiring id := by
    rw [wiring_append (by simp [Moment.invalidates])]
    simp [Moment.answer?]
  rw [used, upTo_concat (by simp [Moment.settles, own, reconciled]),
    List.getLast?_concat]
  exact congrArg (·.getD []) same

end Later

end Story

/-! ### Watched hosts -/

/-- A host and what was told of it. -/
structure Watched (σ : Type) where
  host : σ
  story : Story

namespace Watched

variable {σ : Type}

/-- A host of which nothing is told yet. -/
def opened (host : σ) : Watched σ := ⟨host, []⟩

/-- Adds moments to the story. -/
def tell (watched : Watched σ) (moments : Story) : Watched σ :=
  { watched with story := watched.story ++ moments }

/-- Lets the host answer a call that is not told of. -/
def pass {α : Type} (answer : σ → α × σ) (watched : Watched σ) :
    α × Watched σ :=
  let (result, host) := answer watched.host
  (result, { watched with host })

instance [ChannelReader σ] : ChannelReader (Watched σ) where
  readChannel combinator channel :=
    pass (ChannelReader.readChannel combinator channel)

instance [SectionEditor σ] : SectionEditor (Watched σ) where
  targetExists target := pass (SectionEditor.targetExists target)
  supportsSections target := pass (SectionEditor.supportsSections target)
  addSection target spec := pass (SectionEditor.addSection target spec)
  removeSection target handle :=
    pass (SectionEditor.removeSection target handle)

section Editing

variable [ChannelReader σ] [WiringReader σ] [SectionEditor σ]

/-- A watched host would not have to tell of its wiring to be edited. -/
local instance untold : WiringReader (Watched σ) where
  wiredTargets combinator := pass (WiringReader.wiredTargets combinator)

theorem transparent_mk (story : Story) :
    Transparent (fun host : σ => Watched.mk host story) where
  readChannel _ _ _ := rfl
  wiredTargets _ _ := rfl
  targetExists _ _ := rfl
  supportsSections _ _ := rfl
  addSection _ _ _ := rfl
  removeSection _ _ _ := rfl

theorem reconcile_eq (id : CombinatorId) (wired : List TargetId)
    (desired : SpecSet) (tick : UInt64) (ledger : Ledger)
    (watched : Watched σ) :
    Combinator.reconcile id wired desired tick ledger watched =
      let (report, ledger, host) :=
        Combinator.reconcile id wired desired tick ledger watched.host
      (report, ledger, { watched with host }) :=
  (transparent_mk watched.story).reconcile id wired desired tick
    ledger watched.host

theorem tearDown_eq (combinator : Combinator) (tick : UInt64) (ledger : Ledger)
    (watched : Watched σ) :
    combinator.tearDown tick ledger watched =
      let (report, after, ledger, host) :=
        combinator.tearDown tick ledger watched.host
      (report, after, ledger, { watched with host }) :=
  (transparent_mk watched.story).tearDown combinator tick ledger watched.host

end Editing

theorem readChannels_eq [ChannelReader σ] (combinator : Combinator)
    (watched : Watched σ) :
    combinator.readChannels watched =
      let (read, host) := combinator.readChannels watched.host
      (read, { watched with host }) := by
  unfold Combinator.readChannels Combinator.readChannel
  cases combinator.reads .red <;> cases combinator.reads .green <;> rfl

instance [WiringReader σ] : WiringReader (Watched σ) where
  wiredTargets combinator watched :=
    let (targets, watched) :=
      watched.pass (WiringReader.wiredTargets combinator)
    (targets, watched.tell [.asked combinator targets])

end Watched

namespace Combinator

variable {σ : Type} [ChannelReader σ] [WiringReader σ] [SectionEditor σ]

omit [SectionEditor σ] in
/-- The wired targets that a pass works with, and the host once all is read. -/
def passWiring (combinator : Combinator) (host : σ) : List TargetId × σ :=
  let (read, host) := combinator.readChannels host
  let (targets, _, host) := read.readWiring host
  (targets, host)

omit [ChannelReader σ] [SectionEditor σ] in
/-- What is read of the wiring depends on nothing but what is known of it. -/
theorem readWiring_congr {a b : Combinator} (named : b.id = a.id)
    (known : b.wired = a.wired) (host : σ) :
    b.readWiring host = ((a.readWiring host).1,
      { b with wired := some (a.readWiring host).1 },
      (a.readWiring host).2.2) := by
  unfold readWiring
  cases there : a.wired with
  | none => simp only [known, there, named]
  | some targets =>
      rw [there] at known
      simp only [known]
      rw [← known]

/-- A pass reads, steps the rules, and then reconciles with the wiring that it
works with, unless it has no reason to. -/
theorem pass_eq (combinator : Combinator) (tick : UInt64)
    (ledger : Ledger) (host : σ) :
    combinator.pass tick ledger host =
      let (targets, next) := combinator.passWiring host
      let (edges, stepped) := (combinator.readChannels host).1.stepRules tick
      let after := { stepped with
        wired := some targets
        reconciled := TargetSet.ofList targets
        rulesChanged := false }
      if edges = [] ∧ TargetSet.ofList targets = combinator.reconciled ∧
          combinator.rulesChanged = false then
        (⟨combinator.id, tick, edges, none, none⟩, after, ledger, next)
      else
        let (report, ledger, last) :=
          reconcile combinator.id targets stepped.desired tick ledger next
        (⟨combinator.id, tick, edges, some stepped.desired, some report⟩, after,
          ledger, last) := by
  let read := combinator.readChannels host
  let steps := read.1.stepRules tick
  have wiring : steps.2.readWiring read.2 = ((read.1.readWiring read.2).1,
      { steps.2 with wired := some (read.1.readWiring read.2).1 },
      (read.1.readWiring read.2).2.2) :=
    readWiring_congr (a := read.1) (b := steps.2) rfl rfl read.2
  simp only [pass]
  rw [wiring]
  simp only [List.isEmpty_iff]
  split
  next quiet =>
    obtain ⟨noEdge, same, unchanged⟩ := quiet
    refine Eq.trans ?_ (if_pos ⟨noEdge, same, unchanged⟩).symm
    rw [← same, unchanged]
    rfl
  next loud => exact (if_neg loud).symm

theorem pass_remembers (combinator : Combinator) (tick : UInt64)
    (ledger : Ledger) (host : σ) :
    let result := combinator.pass tick ledger host
    let targets := (combinator.passWiring host).1
    result.1.combinator = combinator.id ∧ result.2.1.id = combinator.id ∧
      result.2.1.wired = some targets ∧ result.2.1.reconciled =
        TargetSet.ofList targets ∧
      result.2.1.rulesChanged = false := by
  intro result targets
  simp only [result, pass_eq]
  split
  · exact ⟨rfl, rfl, rfl, rfl, rfl⟩
  · exact ⟨rfl, rfl, rfl, rfl, rfl⟩

omit [ChannelReader σ] [WiringReader σ] in
/-- To reconcile is to go through the wired targets first. -/
theorem reconcile_visits (id : CombinatorId) (wired : List TargetId)
    (desired : SpecSet) (tick : UInt64) (ledger : Ledger) (host : σ) :
    wired <+: (reconcile id wired desired tick ledger host).1.targets.map
      TargetReport.target := by
  have visited :=
    Reconciliation.map_target_targets id desired tick wired ledger host
  show wired <+: (_ ++ _ : List TargetReport).map TargetReport.target
  rw [List.map_append, visited]
  exact List.prefix_append _ _

/-- When a pass reconciles, and that it does so with the wiring that it works
with. -/
theorem pass_reconciles (combinator : Combinator) (tick : UInt64)
    (ledger : Ledger) (host : σ) :
    let result := combinator.pass tick ledger host
    let read := combinator.passWiring host
    (result.1.reconciled = true ↔ result.1.edges ≠ [] ∨
      combinator.rulesChanged = true ∨
      TargetSet.ofList read.1 ≠ combinator.reconciled) ∧
    (result.1.reconciled = true → ∃ desired outcome,
      result.1.desired = some desired ∧ result.1.reconciliation = some outcome ∧
        read.1 <+: outcome.targets.map TargetReport.target ∧
        reconcile combinator.id read.1 desired tick ledger read.2 =
          (outcome, result.2.2)) ∧
    (result.1.reconciled = false → result.2.2 = (ledger, read.2)) := by
  intro result read
  simp only [result, pass_eq]
  split
  next quiet =>
    obtain ⟨noEdge, same, unchanged⟩ := quiet
    refine ⟨?_, nofun, fun _ => rfl⟩
    simp [PassReport.reconciled, read, noEdge, same, unchanged]
  next loud =>
    refine ⟨?_, fun _ => ⟨_, _, rfl, rfl, reconcile_visits _ _ _ _ _ _, rfl⟩,
      nofun⟩
    simp only [PassReport.reconciled, Option.isSome_some, true_iff]
    apply Decidable.byContradiction
    intro noReason
    simp only [not_or, ne_eq, not_not, Bool.not_eq_true] at noReason
    obtain ⟨noEdge, unchanged, same⟩ := noReason
    exact loud ⟨noEdge, same, unchanged⟩

omit [SectionEditor σ] in
theorem passWiring_of_some {combinator : Combinator} {targets : List TargetId}
    (known : combinator.wired = some targets) (host : σ) :
    (combinator.passWiring host).1 = targets := by
  have same : (combinator.readChannels host).1.wired = combinator.wired := rfl
  simp only [passWiring, readWiring, same, known]

/-- The question of a pass about the wiring, with its answer; none if the wiring
is known. -/
def question (combinator : Combinator) (targets : List TargetId) : Story :=
  match combinator.wired with
  | some _ => []
  | none => [.asked combinator.id targets]

omit [ChannelReader σ] [WiringReader σ] [SectionEditor σ] in
theorem mem_question {combinator : Combinator} {targets : List TargetId}
    {moment : Moment} (member : moment ∈ combinator.question targets) :
    moment = .asked combinator.id targets := by
  unfold question at member
  split at member
  · exact absurd member List.not_mem_nil
  · exact List.mem_singleton.mp member

omit [SectionEditor σ] in
theorem passWiring_watched (combinator : Combinator) (watched : Watched σ) :
    combinator.passWiring watched =
      let (targets, next) := combinator.passWiring watched.host
      (targets, ⟨next, watched.story ++ combinator.question targets⟩) := by
  have same : (combinator.readChannels watched.host).1.wired =
      combinator.wired := rfl
  simp only [passWiring, Watched.readChannels_eq, readWiring, question, same]
  cases combinator.wired with
  | some targets => simp
  | none => rfl

/-- A pass on a watched host is the pass on the host, and adds its question to
the story. -/
theorem pass_watched (combinator : Combinator) (tick : UInt64) (ledger : Ledger)
    (watched : Watched σ) :
    combinator.pass tick ledger watched =
      let (report, after, ledger, host) :=
        combinator.pass tick ledger watched.host
      let asked := combinator.question (combinator.passWiring watched.host).1
      (report, after, ledger, ⟨host, watched.story ++ asked⟩) := by
  rw [pass_eq, pass_eq, passWiring_watched, Watched.readChannels_eq]
  simp only [Watched.reconcile_eq]
  split
  · rfl
  · rfl

end Combinator

end CircuitSections
