import Lamina.Command.Workspace
import Lamina.Main
import Lamina.Proofs.Core.Chase
import Lamina.Proofs.Core.Export
import Lamina.Proofs.Core.Printed
import Lamina.Proofs.Core.Visible
import Lamina.Proofs.Layout.Nesting
import Lamina.Proofs.Layout.Offside
import Lamina.Proofs.Machine.Depth
import Lamina.Proofs.Machine.Termination
import Lamina.Proofs.Native.Application
import Lamina.Proofs.Native.Words
import Lamina.Proofs.Pipeline.CNames
import Lamina.Proofs.Pipeline.Captures
import Lamina.Proofs.Pipeline.Constructors
import Lamina.Proofs.Pipeline.Conversion
import Lamina.Proofs.Pipeline.Diagnostics
import Lamina.Proofs.Pipeline.DirectCalls
import Lamina.Proofs.Pipeline.Failure
import Lamina.Proofs.Pipeline.Lambdas
import Lamina.Proofs.Pipeline.Lets
import Lamina.Proofs.Pipeline.Lowering
import Lamina.Proofs.Pipeline.Native
import Lamina.Proofs.Pipeline.Order
import Lamina.Proofs.Pipeline.Scoping
import Lamina.Proofs.Pipeline.Sharing
import Lamina.Proofs.Pipeline.Spans
import Lamina.Proofs.Pipeline.Tables
import Lamina.Proofs.Pipeline.Violations
import Lamina.Proofs.Pipeline.WellFormed
import Lamina.Proofs.Surface.Chain
import Lamina.Proofs.Surface.Termination
import Lamina.Proofs.Text.CLiteral
import Lamina.Proofs.Token.Literal
import Lamina.Proofs.Token.Spacing
