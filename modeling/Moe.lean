import Moe.Lib.Machine
import Moe.Lib.OrderedMap
import Moe.Pool.NoteTree
import Moe.Pool.SpentSet
import Moe.Pool.Force
import Moe.Pool.Merge
import Moe.Pool.Locks
import Moe.Pool.Admission
import Moe.Pool.Forced
import Moe.Pool.Succession
import Moe.Pool.SpentCanonical
import Moe.Pool.NoteRun
import Moe.Ergo.SectionBinding
import Moe.Pool.HistoricalReads
import Moe.Scope.SilenceClock
import Moe.Pool.MergeOrder
import Moe.Ergo.ScanSpacing
import Moe.Scope.ChainStability
import Moe.Scope.KeptRuns
import Moe.Pool.AheadReplay
import Moe.Pool.Atomicity
import Moe.Pool.FaultEvidence
import Moe.Pool.KeptFileRuns
import Moe.Pool.RecordForms
import Moe.Lit.PublicationCodec
import Moe.Lit.ConservationRun
import Moe.Transport.TrailRoutes
import Moe.Transport.RangeAnswers
import Moe.Browser.FileCrashes
import Moe.Pool.CommittedLog
import Moe.Pool.PageBuffer
import Moe.Scope.HeldGreedy
import Moe.Scope.ReceiptAgrees
import Moe.Pool.OutputChecks
import Moe.Pool.Selection
import Moe.Pool.Schedule
import Moe.Pool.SuccinctReader
import Moe.Pool.CoverWalks
import Moe.Pool.CoverAsks
import Moe.Pool.TrailCovers
import Moe.Pool.ScopeTree
import Moe.Pool.NoteBatches
import Moe.Pool.Terms
import Moe.Pool.CanonicalForms
import Moe.FrameReads
import Moe.Browser.SqliteExclusion
import Moe.Ergo.HeaderRows
import Moe.Ergo.HeaderRowsOverlay
import Moe.Ergo.HeaderRowsRuns
import Moe.Ergo.Difficulty
import Moe.Lib.LeastSquares
import Moe.Ergo.DifficultyBounds
import Moe.Ergo.RequiredDifficulty
import Moe.Lib.SparseTree
import Moe.Ergo.SubjectMap
import Moe.Ergo.SubjectMapTree
import Moe.Ergo.SubjectMapRuns
import Moe.Ergo.SubjectMapProofs
import Moe.Writing
import Moe.Lib.FrontierRoot
import Moe.Pool.KeptTipChecks
import Moe.Ergo.StoredForms
import Moe.Lib.ChunkCursor
import Moe.Transport.ServedWireRuns
import Moe.Browser.FileTreeRuns
import Moe.Ergo.ExhaustionServing
import Moe.Ergo.HeaderTreeStanding
