import BidiSheet.Batch
import BidiSheet.Command
import BidiSheet.Declaration
import BidiSheet.Disk
import BidiSheet.Disk.File
import BidiSheet.Event
import BidiSheet.Extent
import BidiSheet.Main
import BidiSheet.Marker
import BidiSheet.Masked
import BidiSheet.Notice
import BidiSheet.Number.Binary64
import BidiSheet.Number.Complement
import BidiSheet.Number.Numeral
import BidiSheet.Path
import BidiSheet.Path.Output
import BidiSheet.Piece
import BidiSheet.Proofs.Action
import BidiSheet.Proofs.Alike
import BidiSheet.Proofs.Alike.Segment
import BidiSheet.Proofs.Alike.Value
import BidiSheet.Proofs.Argument
import BidiSheet.Proofs.Bracket
import BidiSheet.Proofs.Byte
import BidiSheet.Proofs.Byte.Extent
import BidiSheet.Proofs.Byte.Loop
import BidiSheet.Proofs.Byte.Masking
import BidiSheet.Proofs.Byte.Tokens
import BidiSheet.Proofs.Case
import BidiSheet.Proofs.Case.Part
import BidiSheet.Proofs.Change
import BidiSheet.Proofs.Composition
import BidiSheet.Proofs.Construct
import BidiSheet.Proofs.Declaration
import BidiSheet.Proofs.Discovery
import BidiSheet.Proofs.Exchange
import BidiSheet.Proofs.Extent
import BidiSheet.Proofs.Follows
import BidiSheet.Proofs.Fourfold
import BidiSheet.Proofs.Guard
import BidiSheet.Proofs.GuardedUrl
import BidiSheet.Proofs.Hidden
import BidiSheet.Proofs.Interleaving
import BidiSheet.Proofs.Involution
import BidiSheet.Proofs.Job
import BidiSheet.Proofs.Kept
import BidiSheet.Proofs.Layer
import BidiSheet.Proofs.Legible
import BidiSheet.Proofs.Letter
import BidiSheet.Proofs.Marker
import BidiSheet.Proofs.Masked
import BidiSheet.Proofs.Named
import BidiSheet.Proofs.Number
import BidiSheet.Proofs.Output
import BidiSheet.Proofs.Partition
import BidiSheet.Proofs.Path
import BidiSheet.Proofs.Percentage
import BidiSheet.Proofs.Piece
import BidiSheet.Proofs.Queue
import BidiSheet.Proofs.Quiet
import BidiSheet.Proofs.Reading
import BidiSheet.Proofs.Reflected
import BidiSheet.Proofs.Reread
import BidiSheet.Proofs.Rerun
import BidiSheet.Proofs.Rescan
import BidiSheet.Proofs.Resolution
import BidiSheet.Proofs.Revision
import BidiSheet.Proofs.Scanner
import BidiSheet.Proofs.Segment
import BidiSheet.Proofs.Sheet
import BidiSheet.Proofs.Tally
import BidiSheet.Proofs.Target
import BidiSheet.Proofs.Token
import BidiSheet.Proofs.Trailing
import BidiSheet.Proofs.Tree
import BidiSheet.Proofs.Unclosed
import BidiSheet.Proofs.Unmask
import BidiSheet.Proofs.Url
import BidiSheet.Proofs.Value
import BidiSheet.Proofs.Walk
import BidiSheet.Proofs.Whole
import BidiSheet.Proofs.Words
import BidiSheet.Rule
import BidiSheet.Segment
import BidiSheet.Settings
import BidiSheet.Sheet
import BidiSheet.Sign
import BidiSheet.Text
import BidiSheet.Text.Case
import BidiSheet.Url
import BidiSheet.Value
import BidiSheet.Value.Action
import BidiSheet.Vocabulary
import BidiSheet.Walk
