import CircuitSections.Host.Interface

/-!
# A host in memory

Targets, wiring and channels as plain values.  Handles are given out in
ascending order over the whole host, so a handle never names a section of
another target or of an earlier target of the same number, and the sections of a
target are listed in the order of their creation.
-/

namespace CircuitSections

/-- The sections of a target with their handles. -/
abbrev SectionList := Ascending fun entry : SectionHandle × SectionSpec =>
    entry.1

/-- A target of the host. -/
structure Target where
  supportsSections : Bool
  sections : SectionList
  /-- Why edits are refused, if they are. -/
  refusal : Option String

/-- The state of the host. -/
structure MemoryHost where
  channels : CombinatorId → Channel → SignalStore
  wiring : CombinatorId → List TargetId
  targets : TargetId → Option Target
  nextHandle : UInt64

/-- A function with another value at one place. -/
def replaceAt {α β : Type} [DecidableEq α] (f : α → β) (place : α)
    (value : β) : α → β :=
  fun a => if a = place then value else f a

namespace MemoryHost

def empty : MemoryHost := ⟨fun _ _ => .empty, fun _ => [], fun _ => none, 0⟩

instance : Inhabited MemoryHost := ⟨empty⟩

/-- Puts a target without sections in the place of what had its number. -/
def spawn (host : MemoryHost) (target : TargetId)
    (supportsSections : Bool) : MemoryHost :=
  { host with
    targets := replaceAt host.targets target
      (some ⟨supportsSections, .empty, none⟩) }

def addTarget (host : MemoryHost) (target : TargetId) : MemoryHost :=
  host.spawn target true

def addPlainTarget (host : MemoryHost) (target : TargetId) : MemoryHost :=
  host.spawn target false

/-- Destroys a target; the wires to it stay. -/
def destroyTarget (host : MemoryHost) (target : TargetId) : MemoryHost :=
  { host with targets := replaceAt host.targets target none }

/-- Wires a target to a combinator, behind those already wired. -/
def connect (host : MemoryHost) (combinator : CombinatorId)
    (target : TargetId) : MemoryHost :=
  let wired := host.wiring combinator
  if target ∈ wired then host
  else { host with
    wiring := replaceAt host.wiring combinator (wired ++ [target]) }

/-- Takes the wire between a combinator and a target away. -/
def disconnect (host : MemoryHost) (combinator : CombinatorId)
    (target : TargetId) : MemoryHost :=
  let kept := (host.wiring combinator).filter (· ≠ target)
  { host with wiring := replaceAt host.wiring combinator kept }

def setChannel (host : MemoryHost) (combinator : CombinatorId)
    (channel : Channel) (signals : SignalStore) : MemoryHost :=
  { host with
    channels := replaceAt host.channels combinator
      (replaceAt (host.channels combinator) channel signals) }

def setSignal (host : MemoryHost) (combinator : CombinatorId)
    (channel : Channel) (signal : Signal) (count : Int32) : MemoryHost :=
  host.setChannel combinator channel
    ((host.channels combinator channel).set signal count)

/-- Changes a target that is there. -/
def updateTarget (host : MemoryHost) (target : TargetId)
    (change : Target → Target) :
    MemoryHost :=
  match host.targets target with
  | none => host
  | some state =>
    { host with targets := replaceAt host.targets target (some (change state)) }

/-- Refuses every edit of a target. -/
def reject (host : MemoryHost) (target : TargetId)
    (reason : String) : MemoryHost :=
  host.updateTarget target fun state => { state with refusal := some reason }

/-- Makes edits of a target again. -/
def accept (host : MemoryHost) (target : TargetId) : MemoryHost :=
  host.updateTarget target fun state => { state with refusal := none }

/-- Puts a section under the next handle on a target. -/
def create (host : MemoryHost) (target : TargetId) (state : Target)
    (spec : SectionSpec) :
    SectionHandle × MemoryHost :=
  let handle : SectionHandle := ⟨host.nextHandle⟩
  let state := { state with sections := state.sections.put (handle, spec) }
  (handle,
    { host with
      targets := replaceAt host.targets target (some state)
      nextHandle := host.nextHandle + 1 })

/-- Adds a section as a player does, even where edits are refused. -/
def addManualSection (host : MemoryHost) (target : TargetId)
    (spec : SectionSpec) :
    Option SectionHandle × MemoryHost :=
  match host.targets target with
  | none => (none, host)
  | some state =>
    if state.supportsSections then
      let (handle, host) := host.create target state spec
      (some handle, host)
    else (none, host)

/-- The target that an edit may change. -/
def editable (host : MemoryHost) (target : TargetId) :
    Except HostError Target :=
  match host.targets target with
  | none => .error (.targetNotFound target)
  | some state =>
    if state.supportsSections then
      match state.refusal with
      | some reason => .error (.rejected target reason)
      | none => .ok state
    else .error (.unsupported target)

def addSection (host : MemoryHost) (target : TargetId) (spec : SectionSpec) :
    Except HostError SectionHandle × MemoryHost :=
  match host.editable target with
  | .error cause => (.error cause, host)
  | .ok state =>
    let (handle, host) := host.create target state spec
    (.ok handle, host)

def removeSection (host : MemoryHost) (target : TargetId)
    (handle : SectionHandle) :
    Except HostError Unit × MemoryHost :=
  match host.editable target with
  | .error cause => (.error cause, host)
  | .ok state =>
    if state.sections.contains handle then
      let state := { state with sections := state.sections.erase handle }
      (.ok (), { host with
        targets := replaceAt host.targets target (some state) })
    else (.error (.sectionNotFound target handle), host)

def targetExists (host : MemoryHost) (target : TargetId) : Bool :=
  (host.targets target).isSome

/-- Whether a target is alive and can hold sections. -/
def supportsSections (host : MemoryHost) (target : TargetId) : Bool :=
  (host.targets target).any Target.supportsSections

/-- The specs of the sections of a target, in the order of their creation. -/
def sections (host : MemoryHost) (target : TargetId) : List SectionSpec :=
  match host.targets target with
  | none => []
  | some state => state.sections.toList.map Prod.snd

def sectionCount (host : MemoryHost) (target : TargetId) : Nat :=
  (host.sections target).length

instance : ChannelReader MemoryHost where
  readChannel combinator channel host :=
    (host.channels combinator channel, host)

instance : WiringReader MemoryHost where
  wiredTargets combinator host := (host.wiring combinator, host)

instance : SectionEditor MemoryHost where
  targetExists target host := (host.targetExists target, host)
  supportsSections target host := (host.supportsSections target, host)
  addSection target spec host := host.addSection target spec
  removeSection target handle host := host.removeSection target handle

end MemoryHost

end CircuitSections
