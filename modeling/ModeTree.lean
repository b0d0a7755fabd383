import ModeTree.Action.Journal
import ModeTree.Action.Registry
import ModeTree.Config
import ModeTree.Document.Basic
import ModeTree.Document.Codec
import ModeTree.Document.Reader
import ModeTree.Document.Resolution
import ModeTree.Event.Basic
import ModeTree.Event.Codec
import ModeTree.Event.Normalizer
import ModeTree.Hint.Basic
import ModeTree.Hint.Codec
import ModeTree.Hint.Projection
import ModeTree.History.Basic
import ModeTree.History.Codec
import ModeTree.Json.Basic
import ModeTree.Json.Numeral
import ModeTree.Json.Printer
import ModeTree.Json.Reader
import ModeTree.Json.Record
import ModeTree.Json.Token
import ModeTree.Machine.Basic
import ModeTree.Machine.Defect
import ModeTree.Machine.Draft
import ModeTree.NameTable
import ModeTree.Preset.RingDesigner
import ModeTree.Proofs.Action.Registration
import ModeTree.Proofs.Document.Construction
import ModeTree.Proofs.Document.Cycles
import ModeTree.Proofs.Document.Enumeration
import ModeTree.Proofs.Document.Repetition
import ModeTree.Proofs.Document.Reporting
import ModeTree.Proofs.Document.RoundTrip
import ModeTree.Proofs.Document.Search
import ModeTree.Proofs.Document.Strays
import ModeTree.Proofs.Document.Tally
import ModeTree.Proofs.Document.Translation
import ModeTree.Proofs.Document.Validity
import ModeTree.Proofs.Document.Written
import ModeTree.Proofs.Event.Aliases
import ModeTree.Proofs.Event.Image
import ModeTree.Proofs.Event.ModifierKeys
import ModeTree.Proofs.Event.Naming
import ModeTree.Proofs.Hint.Survey
import ModeTree.Proofs.History.Bound
import ModeTree.Proofs.History.Retention
import ModeTree.Proofs.History.RoundTrip
import ModeTree.Proofs.Json.Keys
import ModeTree.Proofs.Json.Records
import ModeTree.Proofs.Json.Text
import ModeTree.Proofs.Machine.Activity
import ModeTree.Proofs.Machine.Agreement
import ModeTree.Proofs.Machine.Blueprint
import ModeTree.Proofs.Machine.Construction
import ModeTree.Proofs.Machine.Draft
import ModeTree.Proofs.Machine.Ignoring
import ModeTree.Proofs.Machine.Listing
import ModeTree.Proofs.Machine.Vocabulary
import ModeTree.Proofs.Machine.WellFormed
import ModeTree.Proofs.NameTable
import ModeTree.Proofs.Preset.Activities
import ModeTree.Proofs.Preset.RingDesigner
import ModeTree.Proofs.Relations
import ModeTree.Proofs.Session.Activity
import ModeTree.Proofs.Session.Agreement
import ModeTree.Proofs.Session.Blocks
import ModeTree.Proofs.Session.Controls
import ModeTree.Proofs.Session.Escape
import ModeTree.Proofs.Session.Frame
import ModeTree.Proofs.Session.Log
import ModeTree.Proofs.Session.Panel
import ModeTree.Proofs.Session.Priority
import ModeTree.Proofs.Session.Replay
import ModeTree.Proofs.Session.Report
import ModeTree.Proofs.Session.RootPath
import ModeTree.Proofs.Session.Run
import ModeTree.Proofs.Session.Sequence
import ModeTree.Proofs.Session.Strict
import ModeTree.Proofs.Session.Trace
import ModeTree.Proofs.Session.Vocabulary
import ModeTree.Proofs.Stimulus.Device
import ModeTree.Proofs.Stimulus.Grammar
import ModeTree.Proofs.Stimulus.Reading
import ModeTree.Proofs.Stimulus.RoundTrip
import ModeTree.Proofs.Text.Cut
import ModeTree.Proofs.Text.Lowercase
import ModeTree.Proofs.Text.Trim
import ModeTree.Proofs.Time.Calendar
import ModeTree.Proofs.Time.Spelling
import ModeTree.Proofs.Tree.Agreement
import ModeTree.Proofs.Tree.Fresh
import ModeTree.Proofs.Tree.Lookup
import ModeTree.Proofs.Tree.Order
import ModeTree.Proofs.Tree.Shape
import ModeTree.Proofs.Tree.Walk
import ModeTree.Session.Basic
import ModeTree.Session.Inspection
import ModeTree.Session.LiveTree
import ModeTree.Stimulus.Basic
import ModeTree.Stimulus.Codec
import ModeTree.Stimulus.Parser
import ModeTree.Text.CaseData
import ModeTree.Text.Lowercase
import ModeTree.Text.Ranges
import ModeTree.Text.Split
import ModeTree.Text.White
import ModeTree.Time.Calendar
import ModeTree.Time.Instant
