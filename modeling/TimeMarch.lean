import TimeMarch.Event.Json
import TimeMarch.Instruction.Fields
import TimeMarch.Machine.Script
import TimeMarch.Proofs.Acceptance
import TimeMarch.Proofs.Balance
import TimeMarch.Proofs.Circles
import TimeMarch.Proofs.Completion
import TimeMarch.Proofs.Course
import TimeMarch.Proofs.Coverage
import TimeMarch.Proofs.Definedness
import TimeMarch.Proofs.DependencyOrder
import TimeMarch.Proofs.EqualValues
import TimeMarch.Proofs.Evaluation
import TimeMarch.Proofs.FreshNames
import TimeMarch.Proofs.LeastOrder
import TimeMarch.Proofs.Lines
import TimeMarch.Proofs.Literals
import TimeMarch.Proofs.Meaning
import TimeMarch.Proofs.PersistentNames
import TimeMarch.Proofs.Reachability
import TimeMarch.Proofs.Readiness
import TimeMarch.Proofs.Refusals
import TimeMarch.Proofs.Relevance
import TimeMarch.Proofs.Reordering
import TimeMarch.Proofs.Repetition
import TimeMarch.Proofs.Retries
import TimeMarch.Proofs.Runs
import TimeMarch.Proofs.Safety
import TimeMarch.Proofs.Schedulability
import TimeMarch.Proofs.Scopes
import TimeMarch.Proofs.Sessions
import TimeMarch.Proofs.SetUps
import TimeMarch.Proofs.Simulation
import TimeMarch.Proofs.StateMachine
import TimeMarch.Proofs.StepStreams
import TimeMarch.Proofs.Success
import TimeMarch.Proofs.SymbolTables
import TimeMarch.Proofs.Translation
import TimeMarch.Proofs.Units
import TimeMarch.Proofs.WellFormedness
import TimeMarch.Workbench
import TimeMarch.Proofs.Footprints
import TimeMarch.Proofs.Restarts
import TimeMarch.Proofs.StackNeed
import TimeMarch.Proofs.Visits
import TimeMarch.Proofs.StackBounds
import TimeMarch.Proofs.SelfDependencies
import TimeMarch.Proofs.Frontiers
import TimeMarch.Proofs.Labels
import TimeMarch.Proofs.ArgumentBinding
import TimeMarch.Proofs.LooseFields
import TimeMarch.Proofs.NameSplitting
import TimeMarch.Proofs.StateLookup
import TimeMarch.Proofs.Shapes
import TimeMarch.Proofs.Nesting
import TimeMarch.Proofs.Probing
import TimeMarch.Proofs.NameCollection
