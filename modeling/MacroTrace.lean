import MacroTrace.Text.Offset
import MacroTrace.Text.Range
import MacroTrace.Text.Blank
import MacroTrace.Text.Slice
import MacroTrace.Search
import MacroTrace.Syntax.Kind
import MacroTrace.Syntax.Token
import MacroTrace.Syntax.Green
import MacroTrace.Syntax.Element
import MacroTrace.Syntax.Parser
import MacroTrace.Syntax.Grammar
import MacroTrace.Syntax.View
import MacroTrace.Expansion.OffsetMap
import MacroTrace.Expansion.Allocator
import MacroTrace.Expansion.Call
import MacroTrace.Expansion.Template
import MacroTrace.Workspace.Overlay
import MacroTrace.Workspace.Basic
import MacroTrace.Trace.Offsets
import MacroTrace.Trace.Mapping
import MacroTrace.Trace.Locate
import MacroTrace.Trace.Context
import MacroTrace.Trace.Navigate
import MacroTrace.Workspace.Reference
import MacroTrace.Workspace.Step
import MacroTrace.Proofs.OffsetMap.Order
import MacroTrace.Proofs.Text.Slice
import MacroTrace.Proofs.Syntax.Lexer
import MacroTrace.Proofs.Syntax.Rules
import MacroTrace.Proofs.Syntax.Parse
import MacroTrace.Proofs.Syntax.Element
import MacroTrace.Proofs.Syntax.Descent
import MacroTrace.Proofs.Expansion.Template
import MacroTrace.Proofs.Expansion.Macro
import MacroTrace.Proofs.Expansion.Allocation
import MacroTrace.Proofs.Workspace.Invariant
import MacroTrace.Proofs.Workspace.Session
import MacroTrace.Proofs.Workspace.Calls
import MacroTrace.Proofs.Trace.Sound
import MacroTrace.Proofs.Workspace.Request
import MacroTrace.Proofs.Workspace.Bases
import MacroTrace.Proofs.Workspace.Identity
import MacroTrace.Proofs.Workspace.History
import MacroTrace.Proofs.Expansion.Map
import MacroTrace.Proofs.Search
import MacroTrace.Proofs.OffsetMap.Lookup
import MacroTrace.Proofs.OffsetMap.Specification
import MacroTrace.Proofs.Trace.DepthFirst
import MacroTrace.Proofs.Trace.Overflow
import MacroTrace.Proofs.Trace.RoundTrip
import MacroTrace.Proofs.Trace.Ranges
import MacroTrace.Proofs.Trace.Copies
import MacroTrace.Proofs.Trace.Placement
import MacroTrace.Proofs.Context.Links
import MacroTrace.Proofs.Trace.Depth
import MacroTrace.Proofs.Trace.Reach
import MacroTrace.Proofs.Trace.Frames
import MacroTrace.Proofs.Context.Memo
import MacroTrace.Proofs.Syntax.Progress
import MacroTrace.Proofs.Syntax.Distinct
import MacroTrace.Proofs.Syntax.Lossless
import MacroTrace.Proofs.Syntax.Trimmed
import MacroTrace.Proofs.Workspace.Pointer
import MacroTrace.Proofs.Context.Precedence
import MacroTrace.Proofs.Trace.Overhang
import MacroTrace.Proofs.Trace.Navigation
import MacroTrace.Proofs.Syntax.Arguments
import MacroTrace.Proofs.Context.Walk
import MacroTrace.Proofs.Expansion.Semantics
import MacroTrace.Proofs.Syntax.Limits
import MacroTrace.Proofs.Trace.Safety
