import CryptoBook.OrderedSearch
import CryptoBook.Events
import CryptoBook.Book
import CryptoBook.AbsoluteUpdates
import CryptoBook.BookReference
import CryptoBook.TopOfBook
import CryptoBook.BoundedFifo
import CryptoBook.SpscQueue
import CryptoBook.Runs
import CryptoBook.Amortised
import CryptoBook.Records
import CryptoBook.Oms
import CryptoBook.OmsDiscipline
import CryptoBook.OmsExchange
import CryptoBook.OmsPendingCancel
import CryptoBook.Lanes
import CryptoBook.OmsConvergence
import CryptoBook.Strategy
import CryptoBook.ExactQuotes
import CryptoBook.Smoothing
import CryptoBook.Volatility
import CryptoBook.Layout
import CryptoBook.StructFormat
import CryptoBook.EventLog
import CryptoBook.LogRecovery
import CryptoBook.GapVerifier
import CryptoBook.CrossCheck
import CryptoBook.Replay
import CryptoBook.ReplayRestart
import CryptoBook.PaperLedger
import CryptoBook.RealFills
import CryptoBook.LiveTrading
import CryptoBook.Engine
import CryptoBook.LiveReplay
import CryptoBook.Interaction
import CryptoBook.Residual
import CryptoBook.EngineThread
import CryptoBook.BinanceDepth
import CryptoBook.Reconstructor
import CryptoBook.Fragmentation
import CryptoBook.MarketDataThread
import CryptoBook.MarketDataCalls
import CryptoBook.Feed
import CryptoBook.VerifierGrammar
import CryptoBook.SequenceRules
import CryptoBook.CrossCheckAlignment
import CryptoBook.Pacing
import CryptoBook.Reconstruction
import CryptoBook.Relay
import CryptoBook.CrossCheckVerdict
import CryptoBook.HonestChecks
import CryptoBook.TextSearch
import CryptoBook.Numerals
import CryptoBook.Signing
import CryptoBook.DecimalCodec
import CryptoBook.Recorder
import CryptoBook.Config
import CryptoBook.HostGuard
import CryptoBook.Smoke
import CryptoBook.SmokePlan
import CryptoBook.LiveRun
import CryptoBook.LiveLog
import CryptoBook.PaperReport
import CryptoBook.OrderScales
import CryptoBook.LevelBounds
import CryptoBook.TokenBucket
