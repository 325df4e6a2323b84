import Tariff.CommandLine.FileSystem
import Tariff.Main
import Tariff.Proofs.Aliases
import Tariff.Proofs.DerivationTree
import Tariff.Proofs.Pointers
import Tariff.Proofs.Registrations
import Tariff.Proofs.RoundTrip
import Tariff.Proofs.Session
import Tariff.Proofs.LeastClosure
import Tariff.Proofs.Unwinding
import Tariff.Proofs.CombinatorContract
import Tariff.Proofs.TermReports
import Tariff.Proofs.SeparatedTexts
import Tariff.Proofs.VisitedNames
import Tariff.Proofs.SyntaxErrors
import Tariff.Proofs.ReadValues
import Tariff.Proofs.TextOrigins
import Tariff.Proofs.UnresolvedNames
import Tariff.Proofs.Comparisons
import Tariff.Proofs.Progress
import Tariff.Proofs.PrintedValues
import Tariff.Proofs.JsonTables
