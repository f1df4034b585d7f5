import Scaffold.Analysis
import Scaffold.Answer
import Scaffold.Assembly
import Scaffold.Batch
import Scaffold.Binary64
import Scaffold.Binary64.Nearest
import Scaffold.Branch
import Scaffold.Content
import Scaffold.Content.Question
import Scaffold.Content.Request
import Scaffold.Decimal.Layout
import Scaffold.Decimal.Shortest
import Scaffold.Descriptor
import Scaffold.Descriptor.Shape
import Scaffold.Directive
import Scaffold.Draft
import Scaffold.Env
import Scaffold.Event
import Scaffold.Fault
import Scaffold.Flow
import Scaffold.Flow.Stage
import Scaffold.Location
import Scaffold.Mapping
import Scaffold.Node
import Scaffold.Outcome
import Scaffold.Path
import Scaffold.Phase
import Scaffold.Plan
import Scaffold.Proofs.Acceptance
import Scaffold.Proofs.Accepted
import Scaffold.Proofs.Agreement
import Scaffold.Proofs.Answer
import Scaffold.Proofs.Assembly
import Scaffold.Proofs.BatchMode
import Scaffold.Proofs.Build
import Scaffold.Proofs.Checks
import Scaffold.Proofs.Coercion
import Scaffold.Proofs.Complete
import Scaffold.Proofs.Containment
import Scaffold.Proofs.Course
import Scaffold.Proofs.EmptyBatch
import Scaffold.Proofs.Env
import Scaffold.Proofs.Env.Merge
import Scaffold.Proofs.Env.Order
import Scaffold.Proofs.Finish
import Scaffold.Proofs.Gates
import Scaffold.Proofs.Growth
import Scaffold.Proofs.Handoff
import Scaffold.Proofs.History
import Scaffold.Proofs.InOrder
import Scaffold.Proofs.Lineage
import Scaffold.Proofs.Loop
import Scaffold.Proofs.Mapping
import Scaffold.Proofs.Mapping.Extend
import Scaffold.Proofs.Meeting
import Scaffold.Proofs.Operations
import Scaffold.Proofs.Outcome
import Scaffold.Proofs.Outline
import Scaffold.Proofs.Place
import Scaffold.Proofs.Plan
import Scaffold.Proofs.Position
import Scaffold.Proofs.PreOrder
import Scaffold.Proofs.Progress
import Scaffold.Proofs.Prompt
import Scaffold.Proofs.Provenance
import Scaffold.Proofs.Reach
import Scaffold.Proofs.Registry
import Scaffold.Proofs.Replay
import Scaffold.Proofs.Rounds
import Scaffold.Proofs.Run
import Scaffold.Proofs.Scope
import Scaffold.Proofs.Search
import Scaffold.Proofs.Session
import Scaffold.Proofs.Shape
import Scaffold.Proofs.Spanning
import Scaffold.Proofs.Steady
import Scaffold.Proofs.Text.Pieces
import Scaffold.Proofs.Trail
import Scaffold.Proofs.Value.Equality
import Scaffold.Proofs.Value.Writing
import Scaffold.Proofs.Waiting
import Scaffold.Proofs.WellFormed
import Scaffold.Proofs.WellTyped
import Scaffold.Proofs.Writable
import Scaffold.Scan
import Scaffold.Session
import Scaffold.Settings
import Scaffold.Setup
import Scaffold.Stack
import Scaffold.Text.Blank
import Scaffold.Text.Integer
import Scaffold.Text.Printable
import Scaffold.Text.Quoted
import Scaffold.Tree
import Scaffold.Validation.Checked
import Scaffold.Validation.Issue
import Scaffold.Value
import Scaffold.Value.Equality
import Scaffold.Value.Text
