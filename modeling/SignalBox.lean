import SignalBox.Config.Json
import SignalBox.Report.Json
import SignalBox.Proofs.Coverage
import SignalBox.Proofs.Chain
import SignalBox.Proofs.Exception
import SignalBox.Proofs.Formula.Operand
import SignalBox.Proofs.Text.Trim
import SignalBox.Proofs.RouteLock
import SignalBox.Proofs.Position
import SignalBox.Proofs.Retention
import SignalBox.Proofs.Json.Document
import SignalBox.Proofs.Condition.Json
import SignalBox.Proofs.DeviceTable.Log
import SignalBox.Proofs.Shallow
import SignalBox.Proofs.Naming
import SignalBox.Proofs.Entry
import SignalBox.Proofs.Limit
import SignalBox.Proofs.Unclassified
import SignalBox.Proofs.Acceptance
import SignalBox.Proofs.Phrase
import SignalBox.Proofs.Config
import SignalBox.Proofs.Origin
import SignalBox.Proofs.Likeness
import SignalBox.Proofs.Sequence
import SignalBox.Proofs.Text.Space
import SignalBox.Proofs.Respacing
import SignalBox.Proofs.Descent
import SignalBox.Proofs.Category
import SignalBox.Proofs.DeviceTable.Reload
import SignalBox.Proofs.Text.Occurrence
import SignalBox.Proofs.Text.Search
