import Determinize.OrderedMap
import Determinize.StateSet
import Determinize.Text
import Determinize.Value
import Determinize.Graph
import Determinize.NFA
import Determinize.DFA
import Determinize.Construction
import Determinize.Workspace
import Determinize.Proofs.Decoding
import Determinize.Proofs.History
import Determinize.Proofs.Words
import Determinize.Proofs.Paths
import Determinize.Proofs.Exploration
import Determinize.Proofs.Emission
import Determinize.Proofs.Feeding
import Determinize.Proofs.Image
import Determinize.Proofs.Naming
import Determinize.Proofs.Language
import Determinize.Proofs.Simulation
import Determinize.Proofs.Replay
import Determinize.Proofs.Reruns
import Determinize.Proofs.Record
import Determinize.Proofs.Interleaving
import Determinize.Proofs.Passes
import Determinize.Proofs.Enumeration
import Determinize.Proofs.Content
import Determinize.Proofs.Lockstep
import Determinize.Proofs.Traversal
import Determinize.Proofs.Container
import Determinize.Proofs.Repetition
import Determinize.Proofs.Growth
import Determinize.Proofs.Sessions
