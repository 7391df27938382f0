import PolyExpand.Limits
import PolyExpand.Text
import PolyExpand.Numeral
import PolyExpand.Marker
import PolyExpand.Token
import PolyExpand.Malformed
import PolyExpand.Lexeme
import PolyExpand.Cursor
import PolyExpand.Node
import PolyExpand.Node.Text
import PolyExpand.Nesting
import PolyExpand.Resolution
import PolyExpand.Node.Resolve
import PolyExpand.DensePoly
import PolyExpand.DensePoly.Term
import PolyExpand.DensePoly.Text
import PolyExpand.Evaluation
import PolyExpand.Source
import PolyExpand.Input
import PolyExpand.Invocation
import PolyExpand.Outcome
import PolyExpand.Main
import PolyExpand.Proofs.Assembly
import PolyExpand.Proofs.Interpretation
import PolyExpand.Proofs.RationalPoly
import PolyExpand.Proofs.Meaning
import PolyExpand.Proofs.NormalForm
import PolyExpand.Proofs.Balance
import PolyExpand.Proofs.Descent
import PolyExpand.Proofs.Reading
import PolyExpand.Proofs.Safety
import PolyExpand.Proofs.Grammar
import PolyExpand.Proofs.Precedence
import PolyExpand.Proofs.Literals
import PolyExpand.Proofs.PrintedTerms
import PolyExpand.Proofs.RoundTrip
import PolyExpand.Proofs.StoredLaws
import PolyExpand.Proofs.Totality
import PolyExpand.Proofs.Tiling
import PolyExpand.Proofs.Regions
import PolyExpand.Proofs.Dangling
import PolyExpand.Proofs.Context
import PolyExpand.Proofs.Layout
import PolyExpand.Proofs.LineBreaks
import PolyExpand.Proofs.Agreement
import PolyExpand.Proofs.Munch
import PolyExpand.Proofs.RegionFactors
import PolyExpand.Proofs.UnaryPlus
import PolyExpand.Proofs.LeafOrder
import PolyExpand.Proofs.Separation
import PolyExpand.Proofs.Variants
import PolyExpand.Proofs.DoubleNegation
import PolyExpand.Proofs.UniqueReading
import PolyExpand.Proofs.Equality
import PolyExpand.Proofs.Reprinting
import PolyExpand.Proofs.StrayMarkers
import PolyExpand.Proofs.StoredDegree
import PolyExpand.Proofs.ShiftedMultiples
import PolyExpand.Proofs.LeadingTerm
import PolyExpand.Proofs.Renaming
import PolyExpand.Proofs.Concatenation
import PolyExpand.Proofs.UniqueTree
