import Stigmergy.Lib.Runs
import Stigmergy.Lib.Checks
import Stigmergy.Lib.Text
import Stigmergy.Lib.SortedSet
import Stigmergy.Lib.Scan
import Stigmergy.Lib.Table
import Stigmergy.Lib.Dumps
import Stigmergy.Lib.TokenBucket
import Stigmergy.Lib.Spans
import Stigmergy.Lib.Lines
import Stigmergy.Lib.Shell
import Stigmergy.Lib.Decimal
import Stigmergy.Lib.Layering
import Stigmergy.Lib.Enclosed
import Stigmergy.Lib.Choices
import Stigmergy.Lib.Search
import Stigmergy.Lib.StableSort
import Stigmergy.Lib.Greedy
import Stigmergy.Lib.Dict
import Stigmergy.Kernel.Runtime
import Stigmergy.Kernel.Ascii
import Stigmergy.Kernel.Layers
import Stigmergy.Kernel.Tenancy
import Stigmergy.Kernel.Deadline
import Stigmergy.Kernel.Merge
import Stigmergy.Kernel.Markers
import Stigmergy.Kernel.Reading
import Stigmergy.Kernel.Fusion
import Stigmergy.Kernel.Stable
import Stigmergy.Index.Corpus
import Stigmergy.Index.Rows
import Stigmergy.Index.Webhook
import Stigmergy.Index.Incremental
import Stigmergy.Index.Deliveries
import Stigmergy.Index.Fragments
import Stigmergy.Index.Embedding
import Stigmergy.Knowledge.Pages
import Stigmergy.Knowledge.PageCodec
import Stigmergy.Knowledge.Contradictions
import Stigmergy.Knowledge.ContradictionJson
import Stigmergy.Knowledge.ContradictionCodec
import Stigmergy.Knowledge.Lint
import Stigmergy.Knowledge.Nibbles
import Stigmergy.Knowledge.Links
import Stigmergy.Knowledge.Sources
import Stigmergy.Knowledge.SourceCodec
import Stigmergy.Knowledge.Context
import Stigmergy.Knowledge.Layered
import Stigmergy.Knowledge.Trailers
import Stigmergy.Capture.Queue
import Stigmergy.Capture.Writers
import Stigmergy.Capture.Attempts
import Stigmergy.Capture.Filings
import Stigmergy.Capture.Envelope
import Stigmergy.Capture.Service
import Stigmergy.Capture.Evidence
import Stigmergy.Capture.Provenance
import Stigmergy.Capture.Fetch
import Stigmergy.Capture.Source
import Stigmergy.Server.Roster
import Stigmergy.Server.Listing
import Stigmergy.Server.RateLimit
import Stigmergy.Server.Routing
import Stigmergy.Server.Mentions
import Stigmergy.Ops.ErasureRuns
import Stigmergy.Ops.EraseWorkspace
import Stigmergy.Ops.ReplayWorkspace
import Stigmergy.Ops.TenantTables
import Stigmergy.Entities.Names
import Stigmergy.Knowledge.Additive
import Stigmergy.Knowledge.Wikilinks
import Stigmergy.Knowledge.Resolve
import Stigmergy.Knowledge.Aliases
import Stigmergy.Librarian.Gitcmd
import Stigmergy.Slack.Reactions
import Stigmergy.Slack.Snapshot
import Stigmergy.Slack.Mrkdwn
import Stigmergy.Slack.Render
import Stigmergy.Changes.Diff
import Stigmergy.Answer.Numbers
import Stigmergy.Answer.Standing
import Stigmergy.Answer.Ledger
import Stigmergy.Answer.Citations
import Stigmergy.Answer.Passages
import Stigmergy.Index.Retrieval
import Stigmergy.Knowledge.Plans
import Stigmergy.Lib.Lru
import Stigmergy.Lib.Ttl
import Stigmergy.Librarian.Wake
import Stigmergy.Server.Sessions
import Stigmergy.Server.Throttle
import Stigmergy.Slack.Identity
