import KeysetPaging.Main
import KeysetPaging.Rehearsal.Stage
import KeysetPaging.Proofs.Base64
import KeysetPaging.Proofs.Decimal
import KeysetPaging.Proofs.Calendar
import KeysetPaging.Proofs.Instant
import KeysetPaging.Proofs.Json
import KeysetPaging.Proofs.Levels
import KeysetPaging.Proofs.Token
import KeysetPaging.Proofs.Canonical
import KeysetPaging.Proofs.Run
import KeysetPaging.Proofs.Places
import KeysetPaging.Proofs.Keeping
import KeysetPaging.Proofs.Joints
import KeysetPaging.Proofs.Paginate
import KeysetPaging.Proofs.Order
import KeysetPaging.Proofs.Bookmarker
import KeysetPaging.Proofs.Comparing
import KeysetPaging.Proofs.Shelf
import KeysetPaging.Proofs.Course
import KeysetPaging.Proofs.Following
import KeysetPaging.Proofs.Ties
import KeysetPaging.Proofs.Rounds
import KeysetPaging.Proofs.Row
import KeysetPaging.Proofs.Weave
import KeysetPaging.Proofs.Interleave
import KeysetPaging.Proofs.Merging
import KeysetPaging.Proofs.Tree
import KeysetPaging.Proofs.Walk
import KeysetPaging.Proofs.Missing
import KeysetPaging.Proofs.InOrder
import KeysetPaging.Proofs.Feed
import KeysetPaging.Proofs.Gathering
import KeysetPaging.Proofs.Handing
import KeysetPaging.Proofs.Orderly
import KeysetPaging.Proofs.Boxes
import KeysetPaging.Proofs.Composed
import KeysetPaging.Proofs.Fullness
import KeysetPaging.Proofs.Changing
import KeysetPaging.Proofs.Serving
import KeysetPaging.Proofs.Watching
import KeysetPaging.Proofs.SortKeys
import KeysetPaging.Proofs.Deriving
import KeysetPaging.Proofs.Timestamps
import KeysetPaging.Proofs.Records
import KeysetPaging.Proofs.Validity
import KeysetPaging.Proofs.Opening
import KeysetPaging.Proofs.Selecting
import KeysetPaging.Proofs.Messages
import KeysetPaging.Proofs.Printing
import KeysetPaging.Proofs.Sql.Reading
import KeysetPaging.Proofs.Sql.Meaning
import KeysetPaging.Proofs.Sql.Database
import KeysetPaging.Proofs.Sql.Binding
import KeysetPaging.Proofs.Sql.After
import KeysetPaging.Proofs.Sql.Pages
import KeysetPaging.Proofs.Sql.Building
import KeysetPaging.Proofs.Sql.Quoting
import KeysetPaging.Proofs.Checked
import KeysetPaging.Proofs.Search
import KeysetPaging.Proofs.Growth
import KeysetPaging.Proofs.Images
import KeysetPaging.Proofs.Steady
import KeysetPaging.Proofs.Sifting
import KeysetPaging.Proofs.Behind
import KeysetPaging.Proofs.Grouping
import KeysetPaging.Proofs.Appending
import KeysetPaging.Proofs.Pairing
import KeysetPaging.Proofs.CutShort
