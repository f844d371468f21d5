import CircuitSections.Host.Interface

/-!
# Recording a host's calls

Any host can be run together with the list of the calls that it was asked to
answer, in order.
-/

namespace CircuitSections

inductive HostCall
  | channel (combinator : CombinatorId) (channel : Channel)
  | wiring (combinator : CombinatorId)
  | exists (target : TargetId)
  | supports (target : TargetId)
  | add (target : TargetId) (spec : SectionSpec)
  | remove (target : TargetId) (handle : SectionHandle)
  deriving DecidableEq

/-- A host and the calls made to it, the earliest first. -/
structure Recorded (σ : Type) where
  host : σ
  calls : List HostCall

namespace Recorded

variable {σ : Type}

/-- Notes a call and lets the host answer it. -/
def ask {α : Type} (call : HostCall) (answer : σ → α × σ)
    (recorded : Recorded σ) :
    α × Recorded σ :=
  let (result, host) := answer recorded.host
  (result, ⟨host, recorded.calls ++ [call]⟩)

instance [ChannelReader σ] : ChannelReader (Recorded σ) where
  readChannel combinator channel :=
    ask (.channel combinator channel)
      (ChannelReader.readChannel combinator channel)

instance [WiringReader σ] : WiringReader (Recorded σ) where
  wiredTargets combinator :=
    ask (.wiring combinator) (WiringReader.wiredTargets combinator)

instance [SectionEditor σ] : SectionEditor (Recorded σ) where
  targetExists target :=
    ask (.exists target) (SectionEditor.targetExists target)
  supportsSections target :=
    ask (.supports target) (SectionEditor.supportsSections target)
  addSection target spec :=
    ask (.add target spec) (SectionEditor.addSection target spec)
  removeSection target handle :=
    ask (.remove target handle) (SectionEditor.removeSection target handle)

end Recorded

end CircuitSections
