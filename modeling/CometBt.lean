import CometBt.Bencode.Malformed
import CometBt.Bencode.Numerals
import CometBt.Receive.Prefix
import CometBt.Receive.Rejection
import CometBt.Receive.Growth
import CometBt.Receive.Outgoing
import CometBt.Torrent.Scan
import CometBt.Torrent.InfoDict
import CometBt.Session.Async
import CometBt.Session.Arrivals
import CometBt.Session.Asking
import CometBt.Session.Bits
import CometBt.Session.Clearing
import CometBt.Session.Copying
import CometBt.Session.Readiness
import CometBt.Session.Saving
import CometBt.Session.Layout
import CometBt.Session.Stalling
import CometBt.Session.Supply
import CometBt.Session.Backlog
import CometBt.Http.Header
import CometBt.Http.Body
import CometBt.Http.Query
import CometBt.Torrent.Url
import CometBt.Torrent.Metainfo
import CometBt.EventLoop.Writing
import CometBt.EventLoop.Firing
import CometBt.Torrent.InfoHash
import CometBt.Torrent.Searches
import CometBt.EventLoop.Watching
import CometBt.Http.Complete
import CometBt.Lib.Transfer
import CometBt.Lib.Progress
import CometBt.Torrent.Secure
import CometBt.Torrent.Tracker
import CometBt.Torrent.Announce
import CometBt.Session.Seeding
import CometBt.EventLoop.MainLoop
import CometBt.Lib.Heap
import CometBt.Client.Runs
import CometBt.Memory.Hashes
import CometBt.Memory.BufferRuns
import CometBt.Memory.SendRuns
