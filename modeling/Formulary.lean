import Formulary.Lexicon.Load
import Formulary.Main
import Formulary.Proofs.Assignment.Split
import Formulary.Proofs.Binding.Beside
import Formulary.Proofs.Binding.Classify
import Formulary.Proofs.Binding.Coherent
import Formulary.Proofs.Binding.Definable
import Formulary.Proofs.Binding.Numeral
import Formulary.Proofs.Binding.Printed
import Formulary.Proofs.Binding.Protocol
import Formulary.Proofs.Binding.Tiling
import Formulary.Proofs.Binding.Translated
import Formulary.Proofs.Binding.TypedName
import Formulary.Proofs.Bracket.Partner
import Formulary.Proofs.Eval.Unfolding
import Formulary.Proofs.Formula.Known
import Formulary.Proofs.Formula.Numeral
import Formulary.Proofs.Formula.Reading
import Formulary.Proofs.Formula.Stars
import Formulary.Proofs.Graph.Cycle
import Formulary.Proofs.Graph.Order
import Formulary.Proofs.Graph.Walk
import Formulary.Proofs.Naming.Readers
import Formulary.Proofs.Number.Order
import Formulary.Proofs.Session.Answer
import Formulary.Proofs.Sheet.Accepted
import Formulary.Proofs.Sheet.Analysed
import Formulary.Proofs.Sheet.Commute
import Formulary.Proofs.Sheet.Dependence
import Formulary.Proofs.Sheet.Domain
import Formulary.Proofs.Sheet.Effect
import Formulary.Proofs.Sheet.Evaluable
import Formulary.Proofs.Sheet.Formal
import Formulary.Proofs.Sheet.Independent
import Formulary.Proofs.Sheet.Issued
import Formulary.Proofs.Sheet.ParameterRun
import Formulary.Proofs.Sheet.Preview
import Formulary.Proofs.Sheet.Redefine
import Formulary.Proofs.Sheet.References
