import ZAssembler.Main
import ZAssembler.CommandLine.Folder
import ZAssembler.Proofs.Decoder
import ZAssembler.Proofs.Encoding
import ZAssembler.Proofs.Expressions
import ZAssembler.Proofs.Change
import ZAssembler.Proofs.Tables
import ZAssembler.Proofs.Trace
import ZAssembler.Proofs.Closing
import ZAssembler.Proofs.Image
import ZAssembler.Proofs.Moves
import ZAssembler.Proofs.Settled
import ZAssembler.Proofs.Lasting
import ZAssembler.Proofs.Story
import ZAssembler.Proofs.Branching
import ZAssembler.Proofs.LabelPositions
import ZAssembler.Proofs.GlobalValues
import ZAssembler.Proofs.DataValues
import ZAssembler.Proofs.TextReader
import ZAssembler.Proofs.TextCoding
import ZAssembler.Proofs.Effect
import ZAssembler.Proofs.Growth
import ZAssembler.Proofs.Frame
import ZAssembler.Proofs.Rewinding
import ZAssembler.Proofs.Definitions
import ZAssembler.Proofs.Thread
import ZAssembler.Proofs.Tally
import ZAssembler.Proofs.Packing
import ZAssembler.Proofs.PackedAddresses
import ZAssembler.Proofs.DataPrograms
import ZAssembler.Proofs.Clear
import ZAssembler.Proofs.Twin
import ZAssembler.Proofs.Defining
import ZAssembler.Proofs.InStep
import ZAssembler.Proofs.Abreast
import ZAssembler.Proofs.Measuring
import ZAssembler.Proofs.Header
import ZAssembler.Proofs.Anatomy
import ZAssembler.Proofs.Invariant
import ZAssembler.Proofs.Reporting
import ZAssembler.Proofs.TwoRuns
import ZAssembler.Proofs.Restarting
import ZAssembler.Proofs.Budgets
import ZAssembler.Proofs.JsonText
import ZAssembler.Proofs.HandOff
import ZAssembler.Proofs.Abbreviating
import ZAssembler.Proofs.Jumping
import ZAssembler.Proofs.Rereading
import ZAssembler.Proofs.Settling
import ZAssembler.Proofs.Occurrences
import ZAssembler.Proofs.Collecting
import ZAssembler.Proofs.Selecting
import ZAssembler.Proofs.Records
import ZAssembler.Proofs.DictionaryKeys
import ZAssembler.Proofs.Equates
import ZAssembler.Proofs.Evaluating
import ZAssembler.Proofs.BlockFrame
import ZAssembler.Proofs.Calendar
import ZAssembler.Proofs.Counting
import ZAssembler.Proofs.Padding
