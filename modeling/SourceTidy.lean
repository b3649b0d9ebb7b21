import SourceTidy.Main
import SourceTidy.Proofs.Convergence
import SourceTidy.Proofs.FirstFailure
import SourceTidy.Proofs.FoundFiles
import SourceTidy.Proofs.IndentedLines
import SourceTidy.Proofs.LinePieces
import SourceTidy.Proofs.LiteralBlanks
import SourceTidy.Proofs.NeonFaultLines
import SourceTidy.Proofs.NeonQuotes
import SourceTidy.Proofs.NeonTidied
import SourceTidy.Proofs.NeonVacantLines
import SourceTidy.Proofs.NeonWritten
import SourceTidy.Proofs.PhpBeforeTag
import SourceTidy.Proofs.PhpEscapes
import SourceTidy.Proofs.PhpLiterals
import SourceTidy.Proofs.PhpRestart
import SourceTidy.Proofs.PhpTokens
import SourceTidy.Proofs.RunSummary
import SourceTidy.Proofs.SettingsSearch
import SourceTidy.Proofs.SharedFiles
import SourceTidy.Proofs.TemplateBlanks
import SourceTidy.Proofs.TemplateFirstProblem
import SourceTidy.Proofs.TemplateNesting
import SourceTidy.Proofs.TemplateSteps
import SourceTidy.Proofs.TidyText
import SourceTidy.Proofs.WholeCharacters
