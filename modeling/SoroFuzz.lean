import SoroFuzz.Store.Interleave
import SoroFuzz.Store.Timestamps
import SoroFuzz.Store.Deadlock
import SoroFuzz.Store.Refinement
import SoroFuzz.Core.UndeclaredPanic
import SoroFuzz.Core.FirstViolation
import SoroFuzz.Core.Amounts
import SoroFuzz.Counter.Harness
import SoroFuzz.Escrow.Lifecycle
import SoroFuzz.Escrow.Harness
import SoroFuzz.Token.Conservation
import SoroFuzz.Token.Framing
import SoroFuzz.Token.Simulation
import SoroFuzz.Token.Findings
import SoroFuzz.Queue.Stranded
import SoroFuzz.Queue.AtMostOnce
import SoroFuzz.Queue.Stream
import SoroFuzz.Queue.Fresh
import SoroFuzz.Runner.RoundTrip
import SoroFuzz.Runner.Iterations
import SoroFuzz.Core.Authorizer
import SoroFuzz.Core.Supply
import SoroFuzz.Core.Resolve
import SoroFuzz.Queue.RunFailure
import SoroFuzz.Runner.Sandbox
import SoroFuzz.Api.Budget
import SoroFuzz.Api.Pages
import SoroFuzz.Queue.Labelled
import SoroFuzz.Queue.Origin
import SoroFuzz.Queue.Kept
import SoroFuzz.Queue.Hub
import SoroFuzz.Queue.Drain
import SoroFuzz.Queue.Serial
import SoroFuzz.Queue.Story
import SoroFuzz.Server.Start
import SoroFuzz.Server.Sync
import SoroFuzz.Api.Outcome
import SoroFuzz.Api.Report
import SoroFuzz.Api.Watched
import SoroFuzz.Api.Sweep
