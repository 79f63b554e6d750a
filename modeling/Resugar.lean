import Resugar.Main
import Resugar.Proofs.Number.Integer
import Resugar.Proofs.Printer.Reading
import Resugar.Proofs.Concrete.Holes
import Resugar.Proofs.Tree.Traversal
import Resugar.Proofs.Markup.Entities
import Resugar.Proofs.Markup.Children
import Resugar.Proofs.Markup.Tag
import Resugar.Proofs.Printer.DanglingElse
import Resugar.Proofs.Printer.Destructuring
import Resugar.Proofs.Class.Locals
import Resugar.Proofs.Pass.Imports
import Resugar.Proofs.Pass.WellFormed
import Resugar.Proofs.Pass.Again
import Resugar.Proofs.Pass.Conservation
import Resugar.Proofs.Pass.Defaults
import Resugar.Proofs.Pass.Refusal
import Resugar.Proofs.Unquoted
import Resugar.Proofs.Files.Batch
