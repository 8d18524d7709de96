import Fmma.Assembler
import Fmma.Program.Source
import Fmma.Program.Image
import Fmma.Strategy.Thread
import Fmma.Strategy.Refine
import Fmma.Host
import Fmma.Board
import Fmma.Board.Seqlock
import Fmma.Board.Fills
import Fmma.Board.Restart
import Fmma.Board.PositionLimit
import Fmma.Board.Signals
import Fmma.Board.FirstQuote
import Fmma.Board.Containment
import Fmma.Board.PowerUp
import Fmma.Board.WriteSets
import Fmma.Board.KillSwitch
import Fmma.App.LossLimit
import Fmma.Rtl.TopOfBook
import Fmma.Rtl.AxiAnswers
import Fmma.App.Attribution
import Fmma.Assembler.Correct
import Fmma.Rtl.Refine
import Fmma.Rtl.Flags
import Fmma.Rtl.MultiWord
import Fmma.Rtl.BookReset
import Fmma.Rtl.Quotes
import Fmma.Board.QuotePrices
import Fmma.Board.Requote
import Fmma.Board.Handshake
import Fmma.Board.SameStrategy
import Fmma.Board.EntryWord
import Fmma.Strategy.OnePass
import Fmma.App.Price
import Fmma.App.Saturation
import Fmma.App.Format
import Fmma.App.Fields
import Fmma.App.Accounting
import Fmma.App.Inherited
import Fmma.App.CurrentPnl
import Fmma.App.SlotLeak
import Fmma.App.Latency
import Fmma.Lib.DoubleBuffer
import Fmma.Rtl.SkewTables
import Fmma.App.Percentile
import Fmma.Sim.Alu
import Fmma.Assembler.RoundTrip
import Fmma.Rtl.AddressMap
import Fmma.Assembler.Text
import Fmma.Assembler.GuardRails
import Fmma.Assembler.Lines
import Fmma.Lib.Synchronous
import Fmma.Rtl.OnBoard
import Fmma.Rtl.HftTop
import Fmma.Rtl.RegisterFile
import Fmma.Rtl.TickToQuote
import Fmma.App.Feed
import Fmma.App.Reconnect
import Fmma.App.Ticker
import Fmma.App.EventLoop
import Fmma.App.OrderFlow
import Fmma.Lib.PyFormat
import Fmma.Assembler.Listing
import Fmma.Assembler.Images
