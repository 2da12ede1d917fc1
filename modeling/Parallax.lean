import Parallax.Library.Memory
import Parallax.Library.Codec
import Parallax.Library.Consumption
import Parallax.Library.Word
import Parallax.Library.Transition
import Parallax.Library.Scan
import Parallax.Library.Walks
import Parallax.Library.OrderedMap
import Parallax.Library.Cells
import Parallax.Library.Separation
import Parallax.Library.OwnedArray
import Parallax.Library.Unwind
import Parallax.Library.Ownership
import Parallax.Value.Value
import Parallax.Value.Invariant
import Parallax.Value.Pack
import Parallax.Value.Varint
import Parallax.Value.WriteBuffer
import Parallax.Value.RoundTrip
import Parallax.Value.Clone
import Parallax.Value.Block
import Parallax.Value.Unpacked
import Parallax.Value.Consumed
import Parallax.Value.Safety
import Parallax.Value.Canonical
import Parallax.Value.Calls
import Parallax.Value.Growth
import Parallax.Value.FreshKey
import Parallax.Value.Nodes
import Parallax.WaitGroup.Machine
import Parallax.WaitGroup.Invariant
import Parallax.WaitGroup.Outcome
import Parallax.WaitGroup.Wakeup
import Parallax.WaitGroup.Spawn
import Parallax.Closure.Scan
import Parallax.Closure.Lexical
import Parallax.Closure.Extract
import Parallax.Closure.Exact
import Parallax.Closure.Bounds
import Parallax.Closure.Static
import Parallax.Closure.OneLine
import Parallax.Closure.Heredoc
import Parallax.Closure.HeredocSkip
import Parallax.Closure.Reading
import Parallax.Closure.HeredocRow
import Parallax.Closure.Unread
import Parallax.Closure.Tokens
import Parallax.Closure.Mismap
import Parallax.Closure.Keyword
import Parallax.Bridge.Zval
import Parallax.Bridge.Capture
import Parallax.Bridge.CaptureExact
import Parallax.Bridge.Materialise
import Parallax.Bridge.Transfer
import Parallax.Bridge.EmptyKey
import Parallax.Bridge.Rebuild
import Parallax.Bridge.PropertyTable
import Parallax.Bridge.Fields
import Parallax.Bridge.Lookup
import Parallax.Bridge.Callable
import Parallax.Worker.Main
import Parallax.Worker.Course
import Parallax.Worker.Ledger
import Parallax.Worker.Books
import Parallax.Worker.Outcome
import Parallax.Worker.Stages
import Parallax.Worker.ShortCircuit
import Parallax.Worker.Report
import Parallax.Worker.Recipe
import Parallax.Worker.Answers
import Parallax.Binding.Object
import Parallax.Binding.Remembers
import Parallax.Binding.Go
import Parallax.Binding.CallableForms
import Parallax.Binding.Payloads
import Parallax.Stored.Layout
import Parallax.Stored.Build
import Parallax.Stored.Release
import Parallax.Stored.Clone
import Parallax.Stored.Unpack
import Parallax.Stored.Session
import Parallax.Stored.Pack
import Parallax.Stored.Capture
import Parallax.Stored.Callable
import Parallax.Stored.Materialise
import Parallax.Stored.Group
import Parallax.Stored.Lockstep
import Parallax.Stored.Owner
import Parallax.Stored.History
import Parallax.Stored.Worker
import Parallax.Stored.Results
