import CircuitSections.Host.Memory

/-!
# Hosts that fail by script

Any host can be run with a script: edits of chosen targets fail without reaching
the host, and the wiring of chosen combinators is what the script says.
-/

namespace CircuitSections

/-- A host and the script that goes before its answers. -/
structure Scripted (σ : Type) where
  host : σ
  /-- How each edit of a target fails, if it does. -/
  faults : TargetId → SectionEdit → Option HostError
  /-- The wiring of a combinator, if the script gives it. -/
  wiring : CombinatorId → Option (List TargetId)

namespace Scripted

variable {σ : Type}

/-- A host with an empty script. -/
def plain (host : σ) : Scripted σ := ⟨host, fun _ _ => none, fun _ => none⟩

/-- Sets how an edit of a target fails, or that it no longer does. -/
def setFault (scripted : Scripted σ) (target : TargetId) (edit : SectionEdit)
    (fault : Option HostError) : Scripted σ :=
  { scripted with
    faults := replaceAt scripted.faults target
      (replaceAt (scripted.faults target) edit fault) }

/-- Sets the wiring of a combinator, or gives it back to the host. -/
def setWiring (scripted : Scripted σ) (combinator : CombinatorId)
    (targets : Option (List TargetId)) : Scripted σ :=
  { scripted with wiring := replaceAt scripted.wiring combinator targets }

def modify (scripted : Scripted σ) (change : σ → σ) : Scripted σ :=
  { scripted with host := change scripted.host }

def pass {α : Type} (answer : σ → α × σ) (scripted : Scripted σ) :
    α × Scripted σ :=
  let (result, host) := answer scripted.host
  (result, { scripted with host })

instance [ChannelReader σ] : ChannelReader (Scripted σ) where
  readChannel combinator channel :=
    pass (ChannelReader.readChannel combinator channel)

instance [WiringReader σ] : WiringReader (Scripted σ) where
  wiredTargets combinator scripted :=
    match scripted.wiring combinator with
    | some targets => (targets, scripted)
    | none => scripted.pass (WiringReader.wiredTargets combinator)

instance [SectionEditor σ] : SectionEditor (Scripted σ) where
  targetExists target := pass (SectionEditor.targetExists target)
  supportsSections target := pass (SectionEditor.supportsSections target)
  addSection target spec scripted :=
    match scripted.faults target .add with
    | some fault => (.error fault, scripted)
    | none => scripted.pass (SectionEditor.addSection target spec)
  removeSection target handle scripted :=
    match scripted.faults target .remove with
    | some fault => (.error fault, scripted)
    | none => scripted.pass (SectionEditor.removeSection target handle)

end Scripted

end CircuitSections
