import Csveee.Core.Config
import Csveee.Core.Error
import Csveee.Lib.Slice
import Csveee.Lib.Utf8
import Csveee.Io.ChunkReader
import Csveee.Parser.Output
import Csveee.Parser.Driver
import Csveee.Parser.Chunk
import Csveee.Parser.Dfa.Needles
import Csveee.Parser.Dfa.Table
import Csveee.Parser.Dfa.Stepper
import Csveee.Parser.Dfa.Parser
import Csveee.Parser.Simd.Bitmask
import Csveee.Parser.Simd.Scan
import Csveee.Parser.Simd.FieldCount
import Csveee.Parser.Simd.Index
import Csveee.Parser.Simd.IndexStepper
import Csveee.Parser.Simd.CursorStepper
import Csveee.Parser.Simd.FindStart
import Csveee.Parser.Simd.Parser
import Csveee.Scheduler.Resolve
import Csveee.Scheduler.Merge
import Csveee.Parser.Contract
import Csveee.Scheduler.MergeCorrect
import Csveee.Scheduler.Run
import Csveee.Scheduler.RunSpec
import Csveee.Parser.Dfa.Modes
import Csveee.Parser.Dfa.Emission
import Csveee.Scheduler.WellFormed
import Csveee.Scheduler.MessyInput
import Csveee.Parser.Dfa.Unquoted
import Csveee.Io.RingBuf.Buffer
import Csveee.Io.RingBuf.Linear
import Csveee.Io.RingBuf.Mirrored
import Csveee.Io.RingBuf.Reader
import Csveee.Lib.Bits
import Csveee.Parser.Dfa.Comments
import Csveee.Parser.Dfa.Coverage
import Csveee.Parser.Dfa.RoundTrip
import Csveee.Parser.Simd.Verify
import Csveee.Scheduler.Headers
import Csveee.Scheduler.SingleChunk
import Csveee.Scheduler.Workers
import Csveee.Parser.Simd.Boundary
import Csveee.Lib.Positions
import Csveee.Lib.Agreement
import Csveee.Parser.Validation
import Csveee.Parser.TextRun
import Csveee.Parser.Dfa.Quoting
import Csveee.Parser.Dfa.Restriction
import Csveee.Parser.Dfa.Lines
import Csveee.Parser.Simd.Cells
import Csveee.Parser.Simd.Rows
import Csveee.Parser.Simd.Offsets
import Csveee.Parser.Simd.Assembly
import Csveee.Scheduler.Sizing
import Csveee.Scheduler.Parity
import Csveee.Parser.Simd.Body
import Csveee.Parser.Simd.Flush
import Csveee.Parser.Simd.IndexFlush
import Csveee.Parser.Simd.IndexSpec
import Csveee.Parser.Simd.Drive
import Csveee.Parser.Simd.Feed
import Csveee.Parser.Simd.IndexFinish
import Csveee.Parser.Simd.CursorFlush
import Csveee.Parser.Simd.CursorSpec
import Csveee.Parser.Simd.CursorFinish
import Csveee.Parser.Simd.Pass
import Csveee.Parser.Simd.Differential
import Csveee.Parser.Simd.Locate
import Csveee.Parser.Simd.Alike
import Csveee.Scheduler.Backends
import Csveee.Parser.Handed
import Csveee.Parser.Dfa.Handed
import Csveee.Parser.Simd.Handed
import Csveee.Scheduler.Handed
import Csveee.Parser.Api
import Csveee.Scheduler.RoundTrip
import Csveee.Lib.Component
import Csveee.Io.Context
import Csveee.Scheduler.Contexts
import Csveee.Scheduler.Reproducible
import Csveee.Scheduler.Agreement
import Csveee.Lib.Lanes
import Csveee.Parser.Simd.Isa
import Csveee.Parser.Dfa.Anchors
import Csveee.Scheduler.Handoff
import Csveee.Parser.Repair
import Csveee.Scheduler.Failures
import Csveee.Parser.Dfa.Resume
import Csveee.Parser.Dfa.LineRecords
import Csveee.Scheduler.CommentedRuns
import Csveee.Parser.Overwrite
import Csveee.Parser.Dfa.Overwrite
import Csveee.Parser.Simd.Overwrite
import Csveee.Parser.Simd.IndexOverwrite
import Csveee.Parser.Simd.IndexOverwriteFinish
import Csveee.Parser.Simd.CursorOverwrite
import Csveee.Parser.Simd.CursorOverwriteFinish
import Csveee.Parser.Noninterference
