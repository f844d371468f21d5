import CircuitSections.Circuit.Store

/-!
# Channels

A combinator is wired to a red and a green channel.  An operand sees one of
them, their sum, or neither.
-/

namespace CircuitSections

/-- One of the two wires. -/
inductive Channel
  | red
  | green
  deriving DecidableEq

/-- The channels that an operand sees. -/
inductive ChannelFilter
  | red
  | green
  /-- The sum of the two channels. -/
  | both
  /-- No channel: every count is zero. -/
  | none
  deriving DecidableEq

namespace ChannelFilter

/-- Whether a channel is seen. -/
def reads : ChannelFilter → Channel → Bool
  | .both, _ => true
  | .red, .red => true
  | .green, .green => true
  | _, _ => false

/-- A filter that is not set sees both channels. -/
def ofUnset (filter : Option ChannelFilter) : ChannelFilter := filter.getD .both

end ChannelFilter

/-- What the two channels carry. -/
structure Channels where
  red : SignalStore
  green : SignalStore
  deriving DecidableEq

namespace Channels

def empty : Channels := ⟨.empty, .empty⟩

instance : Inhabited Channels := ⟨empty⟩

def on (channels : Channels) : Channel → SignalStore
  | .red => channels.red
  | .green => channels.green

/-- What is seen through a filter. -/
def through (channels : Channels) : ChannelFilter → SignalStore
  | .red => channels.red
  | .green => channels.green
  | .both => channels.red.merge channels.green
  | .none => .empty

end Channels

end CircuitSections
