import Estros.ExpressionGrammar
import Estros.SsaFixpoint
import Estros.ExpressionLowering
import Estros.SsaOperands
import Estros.SsaViews
import Estros.DeclarationSyntax
import Estros.TranslationUnit
import Estros.SsaNumbering
import Estros.AsmSimulation
import Estros.AsmIndependence
import Estros.LexerUtf8
import Estros.LexerPunctuators
import Estros.IsaExecution
import Estros.IsaComposition
import Estros.IsaDiagnostics
import Estros.IsaRoundTrip
import Estros.IsaTermination
import Estros.IsaFlags
import Estros.IsaCalls
import Estros.IsaStores
import Estros.IsaSearch
import Estros.IsaLiterals
import Estros.IsaCells
import Estros.IsaCompare
import Estros.IsaCounts
import Estros.NodeReferences
import Estros.CoalesceMeaning
import Estros.ParserTermination
import Estros.SourceFiles
