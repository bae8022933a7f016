import Propositional.Transform.Duality
import Propositional.Transform.Reordering
import Propositional.Text.Grammar
import Propositional.Proofs.Permutation
import Propositional.Proofs.Restatement
import Propositional.Proofs.Shuffling
import Propositional.Proofs.Matching
import Propositional.Proofs.Reading
import Propositional.Proofs.Cutting
import Propositional.Proofs.Regrouping
import Propositional.Proofs.Printing
import Propositional.Proofs.RoundTrip
import Propositional.Proofs.Rows
import Propositional.Proofs.Tabulation
import Propositional.Proofs.Agreement
import Propositional.Proofs.Joining
import Propositional.Proofs.Grouping
import Propositional.Proofs.Canonicity
import Propositional.Proofs.NegationNormal
import Propositional.Proofs.Generation
import Propositional.Proofs.FreshNames
import Propositional.Proofs.Siblings
import Propositional.Proofs.Beginnings
import Propositional.Proofs.Obstacles
import Propositional.Proofs.Duality
import Propositional.Proofs.Confluence
import Propositional.Proofs.DualForms
import Propositional.Proofs.Patience
import Propositional.Proofs.Ingredients
import Propositional.Proofs.Respelling
import Propositional.Proofs.Refusing
import Propositional.Proofs.ReadingDepth
import Propositional.Proofs.RewritingGrowth
import Propositional.Proofs.ShuffleGrowth
import Propositional.Proofs.Reordering
import Propositional.Proofs.Coding
import Propositional.Proofs.Isolation
import Propositional.Proofs.Unambiguity
import Propositional.Proofs.Variants
import Propositional.Proofs.Pairing
import Propositional.Proofs.Validity
import Propositional.Proofs.Stability
import Propositional.Proofs.WordCount
import Propositional.Proofs.Nesting
import Propositional.Proofs.Lookup
import Propositional.Proofs.Grid
