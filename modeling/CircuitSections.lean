import CircuitSections.Host.Recorded
import CircuitSections.Host.Scripted
import CircuitSections.Save.Engine
import CircuitSections.Save.Limits
import CircuitSections.Proofs.Ordered.Keys
import CircuitSections.Proofs.Tracking.Entries
import CircuitSections.Proofs.Host.Sections
import CircuitSections.Proofs.Host.Transparency
import CircuitSections.Proofs.Run.Scene
import CircuitSections.Proofs.Run.Memory
import CircuitSections.Proofs.Run.World
import CircuitSections.Proofs.Run.Handles
import CircuitSections.Proofs.Run.Happening
import CircuitSections.Proofs.Run.Ownership
import CircuitSections.Proofs.Run.Accounting
import CircuitSections.Proofs.Combinator.Policy
import CircuitSections.Proofs.Run.Orderly
import CircuitSections.Proofs.Run.Upkeep
import CircuitSections.Proofs.Run.Steady
import CircuitSections.Proofs.Combinator.Settled
import CircuitSections.Proofs.Engine.Restoring
import CircuitSections.Proofs.Run.Consistency
import CircuitSections.Proofs.Run.Restoration
import CircuitSections.Proofs.Engine.Refusals
import CircuitSections.Proofs.Host.Access
import CircuitSections.Proofs.Tracking.Places
import CircuitSections.Proofs.Tracking.Outcome
import CircuitSections.Proofs.Combinator.Outcome
import CircuitSections.Proofs.Engine.FirstPass
import CircuitSections.Proofs.Host.Contents
import CircuitSections.Proofs.Combinator.Contents
import CircuitSections.Proofs.Combinator.Footprint
import CircuitSections.Proofs.Run.Reach
import CircuitSections.Proofs.Run.Independence
import CircuitSections.Proofs.Save.Lossless
import CircuitSections.Proofs.Condition.Formula
import CircuitSections.Proofs.Engine.Admission
import CircuitSections.Proofs.Tracking.Effect
import CircuitSections.Proofs.Condition.Groups
import CircuitSections.Proofs.Condition.Asked
import CircuitSections.Proofs.Combinator.Unread
import CircuitSections.Proofs.Run.Isolation
import CircuitSections.Proofs.Combinator.Silence
import CircuitSections.Proofs.Run.Silence
import CircuitSections.Proofs.Circuit.Filling
import CircuitSections.Proofs.Combinator.Renewal
import CircuitSections.Proofs.Rule.Edges
import CircuitSections.Proofs.Combinator.Clearing
import CircuitSections.Proofs.Circuit.Qualities
import CircuitSections.Proofs.Rule.Legality
import CircuitSections.Proofs.Run.HandleContract
import CircuitSections.Proofs.Json.Spelling
import CircuitSections.Proofs.Save.Spelled
import CircuitSections.Proofs.Save.Spellings
import CircuitSections.Proofs.Text.Bytes
import CircuitSections.Proofs.Section.Order
import CircuitSections.Proofs.Tracking.Scan
import CircuitSections.Proofs.Tracking.EditPlan
import CircuitSections.Proofs.Host.Watched
import CircuitSections.Proofs.Run.Wiring
import CircuitSections.Proofs.Tracking.EntryMap
