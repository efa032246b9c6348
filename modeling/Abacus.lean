import Abacus.Main
import Abacus.Proofs.Acceptance
import Abacus.Proofs.ResultSize
import Abacus.Proofs.ScriptAndConversation
import Abacus.Proofs.SignMeaning
import Abacus.Proofs.WiderLimits
import Abacus.Proofs.NamesRead
import Abacus.Proofs.DiagnosticMarks
import Abacus.Proofs.DecimalRoundTrip
import Abacus.Proofs.Literals
import Abacus.Proofs.ValuedLines
import Abacus.Proofs.NamesAsValues
import Abacus.Proofs.ScriptThenConversation
import Abacus.Proofs.PrintedExpressions
import Abacus.Proofs.TokensKept
import Abacus.Proofs.PowerLimits
import Abacus.Proofs.PlainForms
import Abacus.Proofs.FourShapes
import Abacus.Proofs.FailedSteps
import Abacus.Proofs.UnreadableLines
import Abacus.Proofs.SilentLines
import Abacus.Proofs.WaitingOperators
