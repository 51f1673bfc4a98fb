import HornReasoner.Config.Reader
import HornReasoner.Interchange.Confidence
import HornReasoner.Interchange.Intent
import HornReasoner.Interchange.Logic
import HornReasoner.Interchange.Settings
import HornReasoner.Interchange.World
import HornReasoner.Proofs.Binary64.Equality
import HornReasoner.Proofs.Confidence.Scores
import HornReasoner.Proofs.Confidence.Statistics
import HornReasoner.Proofs.Dialogue.Sentence
import HornReasoner.Proofs.Dialogue.Shapes
import HornReasoner.Proofs.Json.Equality
import HornReasoner.Proofs.Logic.Checking
import HornReasoner.Proofs.Logic.Cutting
import HornReasoner.Proofs.Logic.Faults
import HornReasoner.Proofs.Logic.Grammar
import HornReasoner.Proofs.Logic.Names
import HornReasoner.Proofs.Logic.Printing
import HornReasoner.Proofs.Map.Entries
import HornReasoner.Proofs.Reasoner.Accounting
import HornReasoner.Proofs.Reasoner.Answer
import HornReasoner.Proofs.Reasoner.Conversation
import HornReasoner.Proofs.Reasoner.Description
import HornReasoner.Proofs.Reasoner.Learning
import HornReasoner.Proofs.Reasoner.Memory
import HornReasoner.Proofs.Reasoner.Restoring
import HornReasoner.Proofs.Resolution.Chain
import HornReasoner.Proofs.Resolution.Depth
import HornReasoner.Proofs.Resolution.Origin
import HornReasoner.Proofs.Resolution.Termination
import HornReasoner.Proofs.Resolution.Unification
import HornReasoner.Proofs.Store.Bindings
import HornReasoner.Proofs.Store.Constants
import HornReasoner.Proofs.Store.Order
import HornReasoner.Proofs.Store.Refusals
import HornReasoner.Proofs.Store.Relevance
import HornReasoner.Proofs.Store.Renaming
import HornReasoner.Proofs.World.Classes
import HornReasoner.Proofs.World.Graph
import HornReasoner.Proofs.World.History
import HornReasoner.Proofs.World.Membership
import HornReasoner.Proofs.World.Rebuilding
import HornReasoner.Proofs.World.Reordering
import HornReasoner.Proofs.World.Text
import HornReasoner.Reasoner.Seed
import HornReasoner.Proofs.Interchange.Logic
import HornReasoner.Proofs.Store.Calls
import HornReasoner.Proofs.Logic.Copies
import HornReasoner.Proofs.Resolution.Names
