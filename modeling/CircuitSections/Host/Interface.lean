import CircuitSections.Circuit.Channel
import CircuitSections.Circuit.Entity
import CircuitSections.Section.Spec

/-!
# The host

The engine reads the circuit and edits sections through a host.  A host is a
type of states with an answer to each call; every call may change the state, so
a host can count, refuse or record what it is asked.
-/

namespace CircuitSections

/-- The two edits of a target. -/
inductive SectionEdit
  | add
  | remove
  deriving DecidableEq

/-- Why a host does not make an edit. -/
inductive HostError
  | targetNotFound (target : TargetId)
  | unsupported (target : TargetId)
  /-- The section to remove is not on the target. -/
  | sectionNotFound (target : TargetId) (handle : SectionHandle)
  | rejected (target : TargetId) (reason : String)
  /-- The host's own state cannot be used. -/
  | poisoned (context : String)
  deriving DecidableEq

def HostError.message : HostError → String
  | .targetNotFound target => "Target not found: " ++ target.text
  | .unsupported target => "Target does not support sections: " ++ target.text
  | .sectionNotFound target handle =>
    "Section " ++ handle.text ++ " not found on " ++ target.text
  | .rejected target reason =>
    "Host rejected the operation on " ++ target.text ++ ": " ++ reason
  | .poisoned context => "Host state lock poisoned: " ++ context

/-- Hosts that tell what the channels of a combinator carry. -/
class ChannelReader (σ : Type) where
  readChannel : CombinatorId → Channel → σ → SignalStore × σ

/-- Hosts that tell which targets are wired to a combinator. -/
class WiringReader (σ : Type) where
  wiredTargets : CombinatorId → σ → List TargetId × σ

/-- Hosts that edit the sections of targets. -/
class SectionEditor (σ : Type) where
  targetExists : TargetId → σ → Bool × σ
  supportsSections : TargetId → σ → Bool × σ
  /-- Adds a section to a target and tells its handle. -/
  addSection : TargetId → SectionSpec → σ → Except HostError SectionHandle × σ
  removeSection : TargetId → SectionHandle → σ → Except HostError Unit × σ

end CircuitSections
