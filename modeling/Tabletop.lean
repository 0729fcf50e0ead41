import Tabletop.Text.Blank
import Tabletop.Text.DecimalDigit
import Tabletop.Text.LowerCase
import Tabletop.Decimal.Layout
import Tabletop.Decimal.Reading
import Tabletop.Decimal.Whole
import Tabletop.Dice.Roll
import Tabletop.Arithmetic.Evaluation
import Tabletop.Query.Answer
import Tabletop.Reply.Layout
import Tabletop.Json.Encoding
import Tabletop.Command.Basic
import Tabletop.Command.Table
import Tabletop.Command.Responder
import Tabletop.Settings.Basic
import Tabletop.Settings.Environment
import Tabletop.Settings.File
import Tabletop.Settings.Load
import Tabletop.CommandLine.Arguments
import Tabletop.CommandLine.Run
import Tabletop.Main
import Tabletop.Proofs.Grammar
import Tabletop.Proofs.Reading
import Tabletop.Proofs.Substitution
import Tabletop.Proofs.Answering
import Tabletop.Proofs.Draws
import Tabletop.Proofs.Shape
import Tabletop.Proofs.Repeating
import Tabletop.Proofs.Failing
import Tabletop.Proofs.Height
import Tabletop.Proofs.Agreement
import Tabletop.Proofs.Neighbours
import Tabletop.Proofs.Malformed
import Tabletop.Proofs.ByteOrder
import Tabletop.Proofs.Registering
import Tabletop.Proofs.LetterCase
import Tabletop.Proofs.Trimming
import Tabletop.Proofs.Keys
import Tabletop.Proofs.Commands
import Tabletop.Proofs.Messages
import Tabletop.Proofs.OneSided
import Tabletop.Proofs.Requests
import Tabletop.Proofs.Logs
import Tabletop.Proofs.Sessions
import Tabletop.Proofs.Exploding
import Tabletop.Proofs.Ending
import Tabletop.Proofs.Layers
import Tabletop.Proofs.Prevailing
import Tabletop.Proofs.Blocks
import Tabletop.Proofs.Amounts
import Tabletop.Proofs.Sentences
import Tabletop.Proofs.Matches
import Tabletop.Proofs.Replacing
import Tabletop.Proofs.Positions
import Tabletop.Proofs.Lines
import Tabletop.Proofs.Highlights
import Tabletop.Proofs.FateMarkers
import Tabletop.Proofs.DrawnDice
import Tabletop.Proofs.FateDice
import Tabletop.Proofs.Places
import Tabletop.Proofs.Refusals
import Tabletop.Proofs.Locations
import Tabletop.Proofs.NestedRepetitions
import Tabletop.Proofs.CaseInsensitive
import Tabletop.Proofs.Activations
import Tabletop.Proofs.MachineRuns
import Tabletop.Proofs.NestingLimit
import Tabletop.Proofs.SingleLine
import Tabletop.Proofs.MultiLine
import Tabletop.Proofs.Erasing
import Tabletop.Proofs.PoolTexts
import Tabletop.Proofs.TotalBounds
import Tabletop.Proofs.LeafWork
import Tabletop.Proofs.SignedZeros
import Tabletop.Proofs.Partition
