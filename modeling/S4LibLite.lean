import S4LibLite.Lib.BackFill
import S4LibLite.Lib.Brackets
import S4LibLite.Lib.Calendar
import S4LibLite.Lib.Capacity
import S4LibLite.Lib.Custody
import S4LibLite.Lib.Framing
import S4LibLite.Lib.Interleaving
import S4LibLite.Lib.Ledger
import S4LibLite.Lib.Numeral
import S4LibLite.Lib.Occupancy
import S4LibLite.Lib.Replacement
import S4LibLite.Lib.Runs
import S4LibLite.Lib.Solo
import S4LibLite.Lib.Splitting
import S4LibLite.Lib.Carry
import S4LibLite.Lib.Rounding
import S4LibLite.Lib.Nearest
import S4LibLite.Common.CStr
import S4LibLite.Common.MktCode
import S4LibLite.Common.MktCodeTheorems
import S4LibLite.Common.MktCodeParse
import S4LibLite.Common.MktClass
import S4LibLite.Common.OffTime
import S4LibLite.Common.Time
import S4LibLite.Common.TimeText
import S4LibLite.Common.ClockText
import S4LibLite.Common.StringUtil
import S4LibLite.Common.StringSplit
import S4LibLite.Common.NumberComma
import S4LibLite.Common.Semaphore
import S4LibLite.Common.Filesystem
import S4LibLite.Common.JsonText
import S4LibLite.Common.JsonUtil
import S4LibLite.Common.JsonSearch
import S4LibLite.Common.JsonReads
import S4LibLite.Common.JsonSound
import S4LibLite.Common.Logger
import S4LibLite.Common.LoggerTheorems
import S4LibLite.Types.Convertors
import S4LibLite.Types.IntText
import S4LibLite.Types.DoubleText
import S4LibLite.Types.DoubleTextTheorems
import S4LibLite.Types.Bignum
import S4LibLite.Types.BignumTheorems
import S4LibLite.Types.BignumPower
import S4LibLite.Types.DigitBuffer
import S4LibLite.Types.Ieee
import S4LibLite.Types.BignumDtoa
import S4LibLite.Types.CachedPowers
import S4LibLite.Types.PowerEstimates
import S4LibLite.Types.BignumDtoaTheorems
import S4LibLite.Types.FastDtoa
import S4LibLite.Types.FastDtoaTheorems
import S4LibLite.Types.FixedDtoa
import S4LibLite.Types.FixedDtoaTheorems
import S4LibLite.Types.DoubleConversion
import S4LibLite.Types.DoubleConversionTheorems
import S4LibLite.Types.BinaryTheorems
import S4LibLite.Types.Precision
import S4LibLite.Types.Nearest
import S4LibLite.Types.Strtod
import S4LibLite.Types.DiyFpTheorems
import S4LibLite.Types.StrtodGuess
import S4LibLite.Types.StrtodTheorems
import S4LibLite.Types.StringToDouble
import S4LibLite.Types.StringToDoubleTheorems
import S4LibLite.Types.DoubleRoundTrip
import S4LibLite.Types.BignumArray
import S4LibLite.Types.BignumPrograms
import S4LibLite.Network.Sbe
import S4LibLite.Network.L2Stats
import S4LibLite.Network.Demux
import S4LibLite.Network.Records
import S4LibLite.Network.DemuxLoop
import S4LibLite.Network.Inet
import S4LibLite.Network.Os
import S4LibLite.Network.Adapters
import S4LibLite.Network.SockUtil
import S4LibLite.Network.L2Recver
import S4LibLite.Network.LiveTrans
import S4LibLite.Network.FieldReads
import S4LibLite.Network.RecvThread
import S4LibLite.Network.Session
import S4LibLite.Network.Resources
import S4LibLite.Network.LiveList
import S4LibLite.Network.HttpUrl
import S4LibLite.Network.ChatMessage
import S4LibLite.Network.DnsCache
import S4LibLite.Network.Descriptors
import S4LibLite.Queue.SharedState
import S4LibLite.Queue.SimpleQ
import S4LibLite.Queue.Actions
import S4LibLite.Queue.Places
import S4LibLite.Queue.Rules
import S4LibLite.Queue.Programs
import S4LibLite.Queue.SimpleQTheorems
import S4LibLite.Queue.BulkSend
import S4LibLite.Queue.BulkTheorems
import S4LibLite.Queue.Growth
import S4LibLite.Queue.Order
import S4LibLite.Queue.Depth
import S4LibLite.Queue.CatchPtr
