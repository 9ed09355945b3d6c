import Chalkboard.Main
import Chalkboard.Proofs.Isolation
import Chalkboard.Proofs.WellFormed
import Chalkboard.Proofs.CallerLocals
import Chalkboard.Proofs.LateChecks
import Chalkboard.Proofs.CallDepth
import Chalkboard.Proofs.Partition
import Chalkboard.Proofs.ParserSoundness
import Chalkboard.Proofs.RoundTrip
import Chalkboard.Proofs.CaseInsensitivity
import Chalkboard.Proofs.FreshRuns
import Chalkboard.Proofs.DeclarationOrder
import Chalkboard.Proofs.UnreadAnswers
import Chalkboard.Proofs.StableDeclarations
import Chalkboard.Proofs.FirstReturn
import Chalkboard.Proofs.Accounting
import Chalkboard.Proofs.Nesting
import Chalkboard.Proofs.FirstOffender
import Chalkboard.Proofs.FreeLayout
import Chalkboard.Proofs.StrayCharacters
import Chalkboard.Proofs.ClauseBoundaries
import Chalkboard.Proofs.Respacing
import Chalkboard.Proofs.Arrows
import Chalkboard.Proofs.LastWrite
import Chalkboard.Proofs.FailedStatements
import Chalkboard.Proofs.LoopFree
import Chalkboard.Proofs.CountingLoops
import Chalkboard.Proofs.ArrayContents
import Chalkboard.Proofs.Underlines
import Chalkboard.Proofs.Positions
import Chalkboard.Proofs.DoubleParts
import Chalkboard.Proofs.NumericText
import Chalkboard.Proofs.NearestDouble
import Chalkboard.Proofs.ShortestDigits
import Chalkboard.Proofs.PrintedNumbers
import Chalkboard.Proofs.WordedMemory
import Chalkboard.Proofs.MemoryTable
import Chalkboard.Proofs.TypedAnswers
import Chalkboard.Proofs.ParserProgress
