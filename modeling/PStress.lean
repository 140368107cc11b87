import PStress.Interleaving.Reach
import PStress.Interleaving.RelyGuarantee
import PStress.Interleaving.Totals
import PStress.Interleaving.WaitsFor
import PStress.Interleaving.SwapArray
import PStress.Interleaving.Forwarding
import PStress.Interleaving.Simulation
import PStress.Interleaving.Potential
import PStress.Interleaving.Termination
import PStress.Metadata.Data
import PStress.Metadata.Protocol
import PStress.Metadata.Handles
import PStress.Metadata.Ownership
import PStress.Metadata.Counters
import PStress.Metadata.Ledger
import PStress.Metadata.Capacity
import PStress.Metadata.Slots
import PStress.Metadata.SlotSteps
import PStress.Metadata.Dense
import PStress.Metadata.Identity
import PStress.Metadata.Population
import PStress.Metadata.Completions
import PStress.Metadata.Indices
import PStress.Metadata.Creates
import PStress.Metadata.Deadlock
import PStress.Metadata.Alone
import PStress.Metadata.Returns
import PStress.Metadata.Objects
import PStress.Metadata.Orderly
import PStress.Metadata.Tickets
import PStress.Metadata.Sequences
import PStress.Metadata.Callbacks
import PStress.Metadata.WithoutCreates
import PStress.Metadata.WithoutDrops
import PStress.Metadata.InTurn
import PStress.Metadata.Addresses
import PStress.Metadata.Journal
import PStress.Metadata.Alters
import PStress.Metadata.Store
import PStress.Metadata.Shadow
import PStress.Metadata.Refinement
import PStress.Metadata.Progress
import PStress.Records.Directory
import PStress.Interaction.Program
import PStress.Actions.Random
import PStress.Actions.Requests
import PStress.Actions.Ddl
import PStress.Actions.Dml
import PStress.Actions.Workers
import PStress.Actions.Contract
import PStress.Text.Words
import PStress.Text.Tokens
import PStress.Actions.Rows
import PStress.Actions.Draws
import PStress.Actions.Filling
import PStress.Actions.Matching
import PStress.Actions.Conduct
import PStress.Actions.Bounds
import PStress.Actions.Shape
import PStress.Actions.Admission
import PStress.Actions.Pending
import PStress.Actions.Limits
import PStress.Actions.Alone
import PStress.Actions.Solo
import PStress.Actions.Refusals
import PStress.Actions.Deeds
import PStress.Actions.Clauses
import PStress.Actions.Subcommands
import PStress.Actions.Alterations
import PStress.Actions.Recorded
import PStress.Actions.Failure
import PStress.Actions.AlterText
import PStress.Actions.Statements
import PStress.Actions.Validity
import PStress.Actions.Definitions
import PStress.Actions.Creations
import PStress.Actions.Catalogue
import PStress.Actions.Dealings
import PStress.Actions.Stances
import PStress.Actions.Mirror
import PStress.Actions.AtRest
import PStress.Actions.WithoutDrops
import PStress.Actions.Grips
import PStress.Actions.Regularity
import PStress.Actions.Initialization
import PStress.Selection.Running
import PStress.Registry.Registry
import PStress.Registry.Ranges
import PStress.Registry.Shares
import PStress.Registry.Edits
import PStress.Registry.Choices
import PStress.Registry.Statistics
import PStress.Registry.Kinds
import PStress.Process.Postgres
import PStress.Process.Safety
import PStress.Connection.Conninfo
import PStress.Connection.Parameters
import PStress.Actions.NeverStuck
import PStress.Actions.Termination
import PStress.Actions.Retries
import PStress.Actions.Sightings
import PStress.Scenario.Workload
import PStress.Scenario.Completion
import PStress.Scenario.Waiting
import PStress.Scenario.Removal
import PStress.Scenario.Permanence
