import OddBuilder.AiPkg.RevocationIndex
import OddBuilder.AiPkg.TrustState
import OddBuilder.AiPkg.VerifyTermination
import OddBuilder.Ansi.Autowrap
import OddBuilder.Ansi.Graphics
import OddBuilder.Ansi.RectangleCopy
import OddBuilder.Ansi.ScrollMargins
import OddBuilder.Ansi.TextPaths
import OddBuilder.Binary.PrefixCode
import OddBuilder.Chat.JinjaIntegers
import OddBuilder.Chat.JinjaPrecedence
import OddBuilder.Chat.JinjaScopes
import OddBuilder.Core.SipHash
import OddBuilder.Io.ArenaPool
import OddBuilder.Io.IniIsolation
import OddBuilder.Io.MappedLocks
import OddBuilder.Io.PoolFit
import OddBuilder.Io.PoolSystem
import OddBuilder.Io.SharedMapping
import OddBuilder.Io.SharedStream
import OddBuilder.Json.Acceptance
import OddBuilder.Json.Escapes
import OddBuilder.Json.RoundTrip
import OddBuilder.Net.CanonicalQuery
import OddBuilder.Net.HeaderText
import OddBuilder.Net.ResponseBytes
import OddBuilder.Net.UrlText
import OddBuilder.Serializer.RoundTrip
import OddBuilder.Threads.Actor
import OddBuilder.Threads.BranchAndBoundLifetime
import OddBuilder.Threads.DijkstraResult
import OddBuilder.Threads.EventLoopRuns
import OddBuilder.Threads.GraphInterference
import OddBuilder.Threads.ParallelBfsResult
import OddBuilder.Threads.ParallelReduce
import OddBuilder.Threads.PoolIdle
import OddBuilder.Threads.RoundRobin
import OddBuilder.Threads.SignalRuns
import OddBuilder.Threads.SporadicTimes
import OddBuilder.Threads.ThreadPoolRuns
import OddBuilder.Token.BinaryCommit
import OddBuilder.Token.ByteLevel
import OddBuilder.Token.DecodePaths
import OddBuilder.Token.FallbackLossless
import OddBuilder.Token.Lossless
import OddBuilder.Token.SpecialTokens
import OddBuilder.Token.TokenShm
import OddBuilder.Token.UnicodeNormalizer
import OddBuilder.Token.VocabIndex
import OddBuilder.Yaml.BlockScalarText
import OddBuilder.Yaml.Integers
import OddBuilder.Zstd.DiskEntries
import OddBuilder.Zstd.Execute
import OddBuilder.Zstd.FrameOrder
