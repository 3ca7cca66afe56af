import Qucs.Equation.Derivative
import Qucs.Equation.MatrixVectors
import Qucs.Equation.Fourier
import Qucs.Spar.Exact
import Qucs.Spar.Noise
import Qucs.Hierarchy.Termination
import Qucs.Hierarchy.Collisions
import Qucs.Environment.Isolation
import Qucs.Network.Undo
import Qucs.Network.Points
import Qucs.Network.ReductionOrder
import Qucs.HarmonicBalance.Nodes
import Qucs.Sweeps.Rectangular
import Qucs.Transient.Async
import Qucs.Transient.Clock
import Qucs.Linear.QrLs
import Qucs.Dataset.RoundTrip
import Qucs.Schematic.Undo
import Qucs.Schematic.Connectivity
import Qucs.Nonlinear.GMinStepping
import Qucs.Nonlinear.SourceStepping
import Qucs.Nonlinear.Convergence
import Qucs.Mna.Lookup
import Qucs.Mna.Solution
import Qucs.Interpolation.Periodic
import Qucs.Transient.Adams
import Qucs.Ac.NoisePower
import Qucs.Linear.SvdRun
import Qucs.Schematic.WiringRun
import Qucs.Ports.TwoPort
import Qucs.Convert.SpFile
import Qucs.Convert.Mdl
import Qucs.Interpolation.Cyclic
import Qucs.Schematic.Escape
import Qucs.Schematic.WireLine
import Qucs.Schematic.Numbering
