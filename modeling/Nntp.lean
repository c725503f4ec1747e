import Nntp.Tui.ReadSet
import Nntp.Proto.Thread.Complete
import Nntp.Proto.Thread.Holder
import Nntp.Proto.Thread.Order
import Nntp.Proto.Thread.Subject
import Nntp.Proto.Thread.Linking
import Nntp.Proto.Thread.Calls
import Nntp.Proto.Thread.FollowUp
import Nntp.Proto.Thread.Shape
import Nntp.Tui.Subscriptions
import Nntp.Client.Synchronisation
import Nntp.Client.Client
import Nntp.Client.Operation
import Nntp.Conversation
import Nntp.OverviewExchange
import Nntp.Exchange
import Nntp.Framing
import Nntp.Lockstep
import Nntp.Lib.Machine
import Nntp.Tui.Replies
import Nntp.Lib.Channel
import Nntp.Tui.App
import Nntp.Tui.Keys
import Nntp.Tui.Ledger
import Nntp.Tui.Compose
import Nntp.Tui.System
import Nntp.Tui.Delivery
import Nntp.Tui.Cancellation
import Nntp.Tui.Notes
import Nntp.Tui.Completion
import Nntp.Tui.Link
import Nntp.Tui.Filing
import Nntp.Tui.Newsrc
import Nntp.Proto.Replies
import Nntp.Proto.Mime
import Nntp.Proto.Headers
import Nntp.Proto.Sending
import Nntp.Posting
import Nntp.Tui.Outstanding
import Nntp.Tui.Drafts
import Nntp.TestServer.Loop
import Nntp.TestServer.Answers
import Nntp.TestServer.Position
import Nntp.Proto.Encoding
import Nntp.Client.Styles
import Nntp.Proto.Separator
import Nntp.Injection
import Nntp.Tui.Listing
import Nntp.Tui.Assembly
import Nntp.Proto.EncodedWord
import Nntp.Proto.MimeTree
import Nntp.Proto.Splitting
import Nntp.Proto.Parameters
import Nntp.Proto.Display
import Nntp.Proto.Body
import Nntp.Overviews
import Nntp.Proto.Matching
import Nntp.Tui.Target
import Nntp.TestServer.Numbering
import Nntp.TestServer.Identity
import Nntp.Lib.Base64
import Nntp.Proto.HeaderText
import Nntp.Proto.QuotedPrintable
import Nntp.Lib.Substring
import Nntp.Proto.Flowed
import Nntp.Proto.Clearsign
import Nntp.Tui.Stepping
import Nntp.Fetching
import Nntp.Tui.ReadCounts
import Nntp.Tui.RangeSyntax
import Nntp.Tui.Batches
import Nntp.Proto.Containing
import Nntp.Tui.Absorbing
import Nntp.Tui.Folds
import Nntp.Proto.Folding
import Nntp.Proto.OverviewColumns
import Nntp.Client.SizeLimits
import Nntp.Tui.LastOpened
import Nntp.Proto.Chunks
import Nntp.Tui.Watermarks
import Nntp.Tui.DirtyFlag
import Nntp.Newgroups
import Nntp.Proto.DateHeader
import Nntp.Proto.DateText
import Nntp.Proto.RealTimes
import Nntp.Client.Connector
import Nntp.Client.Clear
import Nntp.Tui.Connecting
import Nntp.TestServer.Duplex
import Nntp.TestServer.Serving
import Nntp.Contents
import Nntp.Retrieval
import Nntp.Tui.Durability
import Nntp.Tui.Validation
import Nntp.TestServer.Strangers
import Nntp.Proto.Showing
import Nntp.Readback
import Nntp.Shown
import Nntp.Opening
import Nntp.ArticlePane
import Nntp.GroupPane
import Nntp.TestServer.Growth
import Nntp.Publishing
import Nntp.Login
