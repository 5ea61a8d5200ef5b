import HypercubeSum.Demo.Site
import HypercubeSum.Main
import HypercubeSum.Proofs.Argument.Completeness
import HypercubeSum.Proofs.Argument.Composition
import HypercubeSum.Proofs.Argument.Interaction
import HypercubeSum.Proofs.Argument.Malformed
import HypercubeSum.Proofs.Argument.Refusals
import HypercubeSum.Proofs.Argument.Representation
import HypercubeSum.Proofs.Argument.Soundness
import HypercubeSum.Proofs.Argument.Tampering
import HypercubeSum.Proofs.Demo.LayerPage
import HypercubeSum.Proofs.Demo.LayerStore
import HypercubeSum.Proofs.Demo.Pages
import HypercubeSum.Proofs.Demo.Requests
import HypercubeSum.Proofs.Demo.SumPage
import HypercubeSum.Proofs.Demo.SumVerdict
import HypercubeSum.Proofs.Demo.Verdicts
import HypercubeSum.Proofs.Layer.Binding
import HypercubeSum.Proofs.Layer.Claims
import HypercubeSum.Proofs.Layer.Completeness
import HypercubeSum.Proofs.Layer.PhaseTables
import HypercubeSum.Proofs.Layer.Soundness
import HypercubeSum.Proofs.Multilinear.Agreement
import HypercubeSum.Proofs.Multilinear.Borrowing
import HypercubeSum.Proofs.Multilinear.Folding
import HypercubeSum.Proofs.Multilinear.Indicator
import HypercubeSum.Proofs.Multilinear.Mixtures
import HypercubeSum.Proofs.Polynomial.Exactness
import HypercubeSum.Proofs.Polynomial.Handles
import HypercubeSum.Proofs.Polynomial.Refusals
import HypercubeSum.Proofs.Live.Borrowing
import HypercubeSum.Proofs.Round.Calls
import HypercubeSum.Proofs.Round.Records
import HypercubeSum.Proofs.Round.Turns
import HypercubeSum.Proofs.Sampling.Layers
import HypercubeSum.Proofs.Stored.Layers
import HypercubeSum.Proofs.Stored.Lines
import HypercubeSum.Proofs.Transcript.Squeezing
