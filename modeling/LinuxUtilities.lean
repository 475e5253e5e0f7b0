import LinuxUtilities.Foundation.Bytes
import LinuxUtilities.Foundation.MerkleTree
import LinuxUtilities.Treehash.Context
import LinuxUtilities.Treehash.Merkle
import LinuxUtilities.Treehash.RootBinding
import LinuxUtilities.Foundation.LinearProbing
import LinuxUtilities.Pathaudit.Tables
import LinuxUtilities.Pathaudit.Record
import LinuxUtilities.Pathaudit.HitReference
import LinuxUtilities.Foundation.GreedyPartition
import LinuxUtilities.Snslice.State
import LinuxUtilities.Snslice.Stream
import LinuxUtilities.Snslice.Records
import LinuxUtilities.Snslice.Partition
import LinuxUtilities.Foundation.MapDifference
import LinuxUtilities.Foundation.QSort
import LinuxUtilities.Sysdiff.Snapshot
import LinuxUtilities.Foundation.Lines
import LinuxUtilities.Sysdiff.Format
import LinuxUtilities.Sysdiff.Parse
import LinuxUtilities.Sysdiff.Difference
import LinuxUtilities.Treehash.Gitignore
import LinuxUtilities.Treehash.Tree
import LinuxUtilities.Treehash.WalkExact
import LinuxUtilities.Treehash.Manifest
import LinuxUtilities.Foundation.Attempt
import LinuxUtilities.Pathaudit.System
import LinuxUtilities.Pathaudit.Components
import LinuxUtilities.Pathaudit.Findings
import LinuxUtilities.Pathaudit.Modes
import LinuxUtilities.Pathaudit.Outcomes
import LinuxUtilities.Pathaudit.Agreement
import LinuxUtilities.Pathaudit.ListingOrder
import LinuxUtilities.Pathaudit.OperandOrder
import LinuxUtilities.Agentwatch.Passes
import LinuxUtilities.Agentwatch.Escalation
import LinuxUtilities.Agentwatch.Arbitration
import LinuxUtilities.Foundation.Blocks
import LinuxUtilities.Foundation.Fips180
import LinuxUtilities.Treehash.Sha256
import LinuxUtilities.Treehash.Streaming
import LinuxUtilities.Treehash.Failures
import LinuxUtilities.Treehash.Recompute
import LinuxUtilities.Foundation.Framing
import LinuxUtilities.Treehash.Decoding
import LinuxUtilities.Treehash.Watching
import LinuxUtilities.Treehash.FailClosed
import LinuxUtilities.Snslice.Atomic
import LinuxUtilities.Snslice.Csv
import LinuxUtilities.Foundation.Decimal
import LinuxUtilities.Openunlink.Text
import LinuxUtilities.Foundation.Checkpoints
import LinuxUtilities.Openunlink.LineBuffer
import LinuxUtilities.Openunlink.Scan
import LinuxUtilities.Openunlink.Setup
import LinuxUtilities.Openunlink.Contract
import LinuxUtilities.Foundation.Strtol
import LinuxUtilities.Agentwatch.Stat
import LinuxUtilities.Agentwatch.SignalTree
import LinuxUtilities.Agentwatch.Coverage
import LinuxUtilities.Foundation.EscapedText
import LinuxUtilities.Pathaudit.Rows
import LinuxUtilities.Permguard.Rows
import LinuxUtilities.Foundation.Separator
import LinuxUtilities.Sysdiff.Rendering
import LinuxUtilities.Foundation.PackedStrings
import LinuxUtilities.Pathaudit.Indexes
import LinuxUtilities.Treehash.Operand
import LinuxUtilities.Pathaudit.InPlace
import LinuxUtilities.Pathaudit.Lossless
import LinuxUtilities.Snslice.Malformed
import LinuxUtilities.Snslice.Rejection
import LinuxUtilities.Foundation.LeastIndex
import LinuxUtilities.Pathaudit.Ancestors
import LinuxUtilities.Pathaudit.Ownership
import LinuxUtilities.Pathaudit.Duplicates
import LinuxUtilities.Foundation.Handles
import LinuxUtilities.Snslice.Descriptors
import LinuxUtilities.Agentwatch.Interleaving
import LinuxUtilities.Agentwatch.Strangers
import LinuxUtilities.Snslice.Options
import LinuxUtilities.Agentwatch.Closure
import LinuxUtilities.Agentwatch.Retention
import LinuxUtilities.Agentwatch.Delivery
import LinuxUtilities.Foundation.Numerals
import LinuxUtilities.Agentwatch.StatFormat
import LinuxUtilities.Agentwatch.Seconds
import LinuxUtilities.Openunlink.Names
import LinuxUtilities.Openunlink.Emission
import LinuxUtilities.Openunlink.Descriptors
import LinuxUtilities.Permguard.Composition
import LinuxUtilities.Snslice.Sanitizing
import LinuxUtilities.Sysdiff.LineReading
import LinuxUtilities.Treehash.Visits
import LinuxUtilities.Treehash.Discipline
import LinuxUtilities.Foundation.CodePoints
import LinuxUtilities.SandboxExec.Excerpt
import LinuxUtilities.SandboxExec.Launch
import LinuxUtilities.SandboxExec.Execution
import LinuxUtilities.Foundation.PythonValues
import LinuxUtilities.CodexTelemetry.Payload
import LinuxUtilities.CodexTelemetry.Extraction
import LinuxUtilities.Treehash.Main
import LinuxUtilities.Treehash.TreeBinding
import LinuxUtilities.Foundation.DeltaAlgebra
import LinuxUtilities.Sysdiff.Main
import LinuxUtilities.Foundation.FixedWidth
import LinuxUtilities.Sysdiff.Fixture
import LinuxUtilities.Agentwatch.Launch
import LinuxUtilities.Agentwatch.Main
import LinuxUtilities.Foundation.GreedyOptimal
import LinuxUtilities.Snslice.Main
import LinuxUtilities.Snslice.Stages
import LinuxUtilities.Foundation.Readers
import LinuxUtilities.Openunlink.Main
import LinuxUtilities.Permguard.Main
import LinuxUtilities.Agentwatch.Wakeup
import LinuxUtilities.Pathaudit.Hazards
import LinuxUtilities.Pathaudit.Main
import LinuxUtilities.Foundation.MountTable
import LinuxUtilities.SandboxExec.Containment
import LinuxUtilities.CodexTelemetry.Ledger
import LinuxUtilities.Agentwatch.Timeline
