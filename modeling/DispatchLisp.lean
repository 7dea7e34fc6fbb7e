import DispatchLisp.Main
import DispatchLisp.Proofs.Aliases
import DispatchLisp.Proofs.Assignment
import DispatchLisp.Proofs.Branching
import DispatchLisp.Proofs.Chains
import DispatchLisp.Proofs.ClosureText
import DispatchLisp.Proofs.Collections
import DispatchLisp.Proofs.Datum
import DispatchLisp.Proofs.DepthLimit
import DispatchLisp.Proofs.Division
import DispatchLisp.Proofs.EditDistance
import DispatchLisp.Proofs.Equality
import DispatchLisp.Proofs.Exactness
import DispatchLisp.Proofs.Exclusion
import DispatchLisp.Proofs.Expansion
import DispatchLisp.Proofs.Forcing
import DispatchLisp.Proofs.Grammar
import DispatchLisp.Proofs.InPlace
import DispatchLisp.Proofs.Layout
import DispatchLisp.Proofs.Lexeme
import DispatchLisp.Proofs.Natives
import DispatchLisp.Proofs.NumberText
import DispatchLisp.Proofs.Parameters
import DispatchLisp.Proofs.Pieces
import DispatchLisp.Proofs.Quotation
import DispatchLisp.Proofs.RealEquality
import DispatchLisp.Proofs.Reentry
import DispatchLisp.Proofs.Registry
import DispatchLisp.Proofs.RoundTrip
import DispatchLisp.Proofs.Selection
import DispatchLisp.Proofs.Signatures
import DispatchLisp.Proofs.Solo
import DispatchLisp.Proofs.Substitution
import DispatchLisp.Proofs.TableHistory
import DispatchLisp.Proofs.TableOrder
import DispatchLisp.Proofs.Wrapping
import DispatchLisp.Proofs.LazyStreams
