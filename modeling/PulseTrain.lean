import PulseTrain.Artifact
import PulseTrain.Assembly
import PulseTrain.Binary64.Basic
import PulseTrain.Binary64.Order
import PulseTrain.Binary64.Positional
import PulseTrain.Binary64.Rounding
import PulseTrain.Binary64.Shortest
import PulseTrain.Card
import PulseTrain.Channel.GreyCode
import PulseTrain.Channel.Group
import PulseTrain.Channel.Switch
import PulseTrain.Compile
import PulseTrain.Console.Argument
import PulseTrain.Console.Calls
import PulseTrain.Counter
import PulseTrain.Demonstration
import PulseTrain.Directory
import PulseTrain.Fault
import PulseTrain.Frame
import PulseTrain.Halt
import PulseTrain.Hold
import PulseTrain.Ledger.Basic
import PulseTrain.Ledger.Overlap
import PulseTrain.Ledger.Repeat
import PulseTrain.Levels.Basic
import PulseTrain.Levels.Hex
import PulseTrain.Levels.Text
import PulseTrain.Main
import PulseTrain.Phrase
import PulseTrain.Playback
import PulseTrain.Proofs.Arrival
import PulseTrain.Proofs.Atomicity
import PulseTrain.Proofs.Bookkeeping
import PulseTrain.Proofs.Catalogs
import PulseTrain.Proofs.Comparison
import PulseTrain.Proofs.Cuts
import PulseTrain.Proofs.Directories
import PulseTrain.Proofs.Drawing
import PulseTrain.Proofs.Events
import PulseTrain.Proofs.FirstFault
import PulseTrain.Proofs.Frames
import PulseTrain.Proofs.Fusion
import PulseTrain.Proofs.Grammar
import PulseTrain.Proofs.Hexadecimal
import PulseTrain.Proofs.Holds
import PulseTrain.Proofs.Iterations
import PulseTrain.Proofs.LastWrite
import PulseTrain.Proofs.LateFaults
import PulseTrain.Proofs.Layouts
import PulseTrain.Proofs.Legality
import PulseTrain.Proofs.LevelsText
import PulseTrain.Proofs.Meaning
import PulseTrain.Proofs.Names
import PulseTrain.Proofs.Naming
import PulseTrain.Proofs.Neighbours
import PulseTrain.Proofs.Operations
import PulseTrain.Proofs.Overlap
import PulseTrain.Proofs.Passages
import PulseTrain.Proofs.Pieces
import PulseTrain.Proofs.Player
import PulseTrain.Proofs.Recordings
import PulseTrain.Proofs.References
import PulseTrain.Proofs.Repetition
import PulseTrain.Proofs.Replay
import PulseTrain.Proofs.Requests
import PulseTrain.Proofs.Rollback
import PulseTrain.Proofs.RoundTrip
import PulseTrain.Proofs.Routines
import PulseTrain.Proofs.Scores
import PulseTrain.Proofs.ScriptText
import PulseTrain.Proofs.Sorting
import PulseTrain.Proofs.Spacing
import PulseTrain.Proofs.StaleGroups
import PulseTrain.Proofs.Tape
import PulseTrain.Proofs.Tracking
import PulseTrain.Proofs.Trains
import PulseTrain.Proofs.Unrolling
import PulseTrain.Proofs.Visits
import PulseTrain.Proofs.Waits
import PulseTrain.Proofs.Walks
import PulseTrain.Proofs.Xml
import PulseTrain.Recorder
import PulseTrain.Script.Basic
import PulseTrain.Script.Reader
import PulseTrain.Sequencer
import PulseTrain.Text.Blank
import PulseTrain.Text.Lines
import PulseTrain.Text.Numeral
import PulseTrain.Text.Word
import PulseTrain.Transition
import PulseTrain.Wait
import PulseTrain.Warning
import PulseTrain.Waveform.Basic
import PulseTrain.Waveform.Catalog
