import SceneCodegen.Graph.Open
import SceneCodegen.Main
import SceneCodegen.Proofs.Graph.Cancellation
import SceneCodegen.Proofs.Graph.Isolation
import SceneCodegen.Proofs.Generation.Histories
import SceneCodegen.Proofs.Graph.Recomputation
import SceneCodegen.Proofs.Generation.Bounds
import SceneCodegen.Proofs.Generation.Likeness
import SceneCodegen.Proofs.Generation.Orderly
import SceneCodegen.Proofs.Generation.Locality
import SceneCodegen.Proofs.Manifest.Parsing
import SceneCodegen.Proofs.Symbol.Merging
import SceneCodegen.Proofs.Scene.HeaderText
import SceneCodegen.Proofs.Scene.Source
import SceneCodegen.Proofs.Scene.Parsing
import SceneCodegen.Proofs.Generation.Reopening
import SceneCodegen.Proofs.Generation.Wiring
import SceneCodegen.Proofs.Generation.Tolerance
import SceneCodegen.Proofs.CommandLine.Rechecking
import SceneCodegen.Proofs.Watch.Filtering
import SceneCodegen.Proofs.Generation.Sharing
import SceneCodegen.Proofs.Graph.Composition
import SceneCodegen.Proofs.Graph.Denotation
import SceneCodegen.Proofs.Graph.Supplying
import SceneCodegen.Proofs.Generation.Arrival
import SceneCodegen.Proofs.Scene.HeaderSpacing
import SceneCodegen.Proofs.Scene.LongValues
import SceneCodegen.Proofs.Graph.OpenPasses
import SceneCodegen.Proofs.Watch.Convergence
import SceneCodegen.Proofs.Scene.Leaving
import SceneCodegen.Proofs.Generation.OwnNames
import SceneCodegen.Proofs.Generation.HintNames
import SceneCodegen.Proofs.Generation.Canonical
import SceneCodegen.Proofs.Fragment.Depths
import SceneCodegen.Proofs.Fragment.Constants
import SceneCodegen.Proofs.Fragment.Properties
import SceneCodegen.Proofs.Fragment.Wrappers
import SceneCodegen.Proofs.ResPath
import SceneCodegen.Proofs.Graph.Exchanges
import SceneCodegen.Proofs.Graph.Touching
import SceneCodegen.Proofs.Generation.WiringOrder
import SceneCodegen.Proofs.Graph.Collecting
import SceneCodegen.Proofs.Graph.Refusals
import SceneCodegen.Proofs.Scene.Positions
