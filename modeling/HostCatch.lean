import HostCatch.Command.Files
import HostCatch.Command.Options
import HostCatch.Command.Picker
import HostCatch.Command.Report
import HostCatch.Command.Run
import HostCatch.Command.View
import HostCatch.Fault.Basic
import HostCatch.Fault.Diagnostic
import HostCatch.Fault.Read
import HostCatch.Fault.Violation
import HostCatch.Guard.Matcher
import HostCatch.Guard.Pass
import HostCatch.Guard.Retarget
import HostCatch.Guard.Strategy
import HostCatch.Guard.Transform
import HostCatch.Guard.Wrapper
import HostCatch.Main
import HostCatch.Program.Basic
import HostCatch.Program.Body
import HostCatch.Program.Builder
import HostCatch.Program.Instr
import HostCatch.Program.Names
import HostCatch.Program.Numbering
import HostCatch.Program.OfBody
import HostCatch.Program.OfModule
import HostCatch.Program.ToBody
import HostCatch.Program.ToModule
import HostCatch.Program.Types
import HostCatch.Proofs.Command.Picking
import HostCatch.Proofs.Guard.Aborting
import HostCatch.Proofs.Guard.Alteration
import HostCatch.Proofs.Guard.Building
import HostCatch.Proofs.Guard.CallTypes
import HostCatch.Proofs.Guard.Catching
import HostCatch.Proofs.Guard.Editing
import HostCatch.Proofs.Guard.Flagging
import HostCatch.Proofs.Guard.Framing
import HostCatch.Proofs.Guard.Guarded
import HostCatch.Proofs.Guard.Idempotence
import HostCatch.Proofs.Guard.Pass
import HostCatch.Proofs.Guard.Patterns
import HostCatch.Proofs.Guard.Recognition
import HostCatch.Proofs.Guard.Recrafting
import HostCatch.Proofs.Guard.Redirecting
import HostCatch.Proofs.Guard.Reissuing
import HostCatch.Proofs.Guard.Reporting
import HostCatch.Proofs.Guard.Resettling
import HostCatch.Proofs.Guard.Respelling
import HostCatch.Proofs.Guard.Retarget
import HostCatch.Proofs.Guard.Rewriting
import HostCatch.Proofs.Guard.Selecting
import HostCatch.Proofs.Guard.Settling
import HostCatch.Proofs.Guard.Validity
import HostCatch.Proofs.Guard.Wrapper
import HostCatch.Proofs.Guard.Wrapping
import HostCatch.Proofs.Program.Altering
import HostCatch.Proofs.Program.BlockCodes
import HostCatch.Proofs.Program.BlockTypes
import HostCatch.Proofs.Program.Bodies
import HostCatch.Proofs.Program.BrokenNames
import HostCatch.Proofs.Program.Builders
import HostCatch.Proofs.Program.Canonical
import HostCatch.Proofs.Program.Carrying
import HostCatch.Proofs.Program.Closed
import HostCatch.Proofs.Program.Coding
import HostCatch.Proofs.Program.Constants
import HostCatch.Proofs.Program.Copying
import HostCatch.Proofs.Program.DebugNames
import HostCatch.Proofs.Program.Declaring
import HostCatch.Proofs.Program.Emission
import HostCatch.Proofs.Program.Enclosing
import HostCatch.Proofs.Program.Execution
import HostCatch.Proofs.Program.Following
import HostCatch.Proofs.Program.Growing
import HostCatch.Proofs.Program.Indexing
import HostCatch.Proofs.Program.Labels
import HostCatch.Proofs.Program.Lasting
import HostCatch.Proofs.Program.Legible
import HostCatch.Proofs.Program.Linking
import HostCatch.Proofs.Program.Listing
import HostCatch.Proofs.Program.Lowering
import HostCatch.Proofs.Program.Moving
import HostCatch.Proofs.Program.NameIndices
import HostCatch.Proofs.Program.Naming
import HostCatch.Proofs.Program.Ordered
import HostCatch.Proofs.Program.Paths
import HostCatch.Proofs.Program.Progress
import HostCatch.Proofs.Program.Readable
import HostCatch.Proofs.Program.Reading
import HostCatch.Proofs.Program.Reassembling
import HostCatch.Proofs.Program.Rebuilding
import HostCatch.Proofs.Program.Recovering
import HostCatch.Proofs.Program.References
import HostCatch.Proofs.Program.Refusing
import HostCatch.Proofs.Program.Reopening
import HostCatch.Proofs.Program.Rereading
import HostCatch.Proofs.Program.Resolving
import HostCatch.Proofs.Program.Restoring
import HostCatch.Proofs.Program.RoundTrip
import HostCatch.Proofs.Program.Shaping
import HostCatch.Proofs.Program.Signatures
import HostCatch.Proofs.Program.Skeleton
import HostCatch.Proofs.Program.Tables
import HostCatch.Proofs.Program.Tracing
import HostCatch.Proofs.Program.Trees
import HostCatch.Proofs.Program.Typing
import HostCatch.Proofs.Program.Walk
import HostCatch.Proofs.Program.WellFormed
import HostCatch.Proofs.Success
import HostCatch.Proofs.Wire.Code
import HostCatch.Proofs.Wire.ConstExpr
import HostCatch.Proofs.Wire.Cutting
import HostCatch.Proofs.Wire.Definitions
import HostCatch.Proofs.Wire.Entities
import HostCatch.Proofs.Wire.Instr
import HostCatch.Proofs.Wire.Leb128
import HostCatch.Proofs.Wire.Loading
import HostCatch.Proofs.Wire.Passes
import HostCatch.Proofs.Wire.Primitive
import HostCatch.Proofs.Wire.Recoding
import HostCatch.Proofs.Wire.Scanning
import HostCatch.Proofs.Wire.Sections
import HostCatch.Proofs.Wire.Segments
import HostCatch.Proofs.Wire.Shortest
import HostCatch.Proofs.Wire.Shrinking
import HostCatch.Proofs.Wire.Signatures
import HostCatch.Proofs.Wire.Spelling
import HostCatch.Proofs.Wire.Storing
import HostCatch.Proofs.Wire.Structure
import HostCatch.Proofs.Wire.Trailing
import HostCatch.Proofs.Wire.TypeSection
import HostCatch.Proofs.Wire.Types
import HostCatch.Proofs.Wire.Width
import HostCatch.Text.Basic
import HostCatch.Text.Blank
import HostCatch.Text.Cluster.Basic
import HostCatch.Text.Cluster.Class
import HostCatch.Text.Display
import HostCatch.Text.Glyph
import HostCatch.Text.Layout
import HostCatch.Text.Lowercase
import HostCatch.Text.Printable
import HostCatch.Text.Quoted
import HostCatch.Text.Template
import HostCatch.Text.Width
import HostCatch.Wire.ConstExpr
import HostCatch.Wire.Instr.Basic
import HostCatch.Wire.Instr.Codec
import HostCatch.Wire.Leb128
import HostCatch.Wire.Module.Basic
import HostCatch.Wire.Module.Codec
import HostCatch.Wire.Module.Valid
import HostCatch.Wire.Primitive
import HostCatch.Wire.Reader
import HostCatch.Wire.Section.Entities
import HostCatch.Wire.Section.Segments
import HostCatch.Wire.Section.Types
import HostCatch.Wire.Types
