import Slopty.Lib.OrdMap
import Slopty.Lib.Machine
import Slopty.Lib.SwapRemove
import Slopty.Lib.Run
import Slopty.Lib.Runs
import Slopty.Media.Wire
import Slopty.Media.ReedSolomon
import Slopty.Media.Packetize
import Slopty.Media.ReassemblerState
import Slopty.Media.Silence
import Slopty.Media.Side
import Slopty.Media.Chain
import Slopty.Media.Reassembler
import Slopty.Media.DecodeChain
import Slopty.Media.Fragments
import Slopty.Media.RoundTrip
import Slopty.Media.Asking
import Slopty.Media.Bounded
import Slopty.Media.Discard
import Slopty.Session.State
import Slopty.Session.Actor
import Slopty.Session.Handover
import Slopty.Session.Watch
import Slopty.Session.FrameLine
import Slopty.Session.FrameChain
import Slopty.Session.Driver
import Slopty.Session.Replay
import Slopty.Lib.Text
import Slopty.Items.Registry
import Slopty.Items.World
import Slopty.Items.Agree
import Slopty.Items.Log
import Slopty.Items.Link
import Slopty.Items.Converge
import Slopty.Lib.Race
import Slopty.Lib.Recent
import Slopty.Link.TermInput
import Slopty.Link.ScreenInput
import Slopty.Proto.Framing
import Slopty.Thread.Tail
import Slopty.Thread.Follow
import Slopty.Thread.Reopen
import Slopty.Thread.Intents
import Slopty.Thread.Mirror
import Slopty.Orchestrate.Once
import Slopty.Hub.Counting
import Slopty.Hub.TakenDown
import Slopty.Ptyd.Holding
import Slopty.Ptyd.Backlog
import Slopty.Thread.Hosting
import Slopty.Thread.Paging
import Slopty.Grid.Scrollback
import Slopty.Media.Rate
import Slopty.Proto.Build
import Slopty.Hub.Joining
import Slopty.Predict.Overlay
import Slopty.Thread.Clipped
import Slopty.Thread.Window
import Slopty.Media.Loss
import Slopty.Media.CaptureClock
import Slopty.Media.Pace
import Slopty.Media.Audio
import Slopty.Session.Reach
import Slopty.Session.Input
import Slopty.Link.LineFetch
import Slopty.Link.Relink
import Slopty.Link.FrameCopies
import Slopty.Predict.Faithful
import Slopty.Predict.Tentative
import Slopty.Lib.Utf8
import Slopty.Proto.Prefix
import Slopty.Engine.Percent
import Slopty.Codec.Nal
import Slopty.Engine.Graphics
import Slopty.Grid.LineWire
import Slopty.Media.Repair
import Slopty.View.Transcript
import Slopty.Engine.Marks
import Slopty.Codec.Conformance
import Slopty.Codec.Coded
import Slopty.Find.Index
import Slopty.Lib.Best
import Slopty.Find.Rank
import Slopty.Session.Compress
import Slopty.Core.Shell
import Slopty.Ptyd.Frames
import Slopty.Xfer.Numbered
import Slopty.Pty.Ring
import Slopty.Screen.Glass
import Slopty.Thread.Linked
import Slopty.Thread.Outbox
import Slopty.Engine.History
import Slopty.Hub.Notices
import Slopty.Net.Liveness
import Slopty.View.Rpc
import Slopty.Input.Desk
import Slopty.Input.Sources
import Slopty.Input.Chunks
import Slopty.Input.Chords
