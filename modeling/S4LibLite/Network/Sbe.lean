import Mathlib.Algebra.BigOperators.Group.List.Basic
import Mathlib.Data.List.Lex

/-!
# The binary records of the two exchanges (`sbe_stock.h`, `sbe_ssh.h`, `sbe_ssz.h`)

Every record is a packed struct, so its size is the sum of its fields' sizes. The
definitions list the fields in source order; they evaluate to the numbers the receiver
compares `MsgLen` with.
-/

namespace S4LibLite.Sbe

/-! ## Field types -/

def int8 : ℕ := 1
def uint8 : ℕ := 1
def uint16 : ℕ := 2
def int32 : ℕ := 4
def uint32 : ℕ := 4
def int64 : ℕ := 8
def uint64 : ℕ := 8
def char : ℕ := 1

/-- The size of a packed struct. -/
def packed (fields : List ℕ) : ℕ := fields.foldr (· + ·) 0

/-- `price_level_t`: `Price`, `Qty`. -/
def sizeofPriceLevel : ℕ := packed [int32, int64]

/-- `SBE_SSH_header_t` and `SBE_SSZ_header_t`: `SecurityIDSource`, `MsgType`, `MsgLen`,
`SecurityID[9]`, `ChannelNo`, `ApplSeqNum`, `TradingPhase`. -/
def sizeofHeader : ℕ := packed [uint8, uint8, uint16, 9 * char, uint16, uint64, uint8]

/-! ## Shanghai (`sbe_ssh.h`) -/

/-- `SBE_SSH_instrument_snap_t`. -/
def sizeofSSHInstrumentSnap : ℕ :=
  packed [sizeofHeader,
    int32, int64, int64,                -- NumTrades, TotalVolumeTrade, TotalValueTrade
    int32, int32, int32, int32, int32,  -- PrevClosePx, LastPx, OpenPx, HighPx, LowPx
    int32, int64, int32, int64,         -- BidWeightPx/Size, AskWeightPx/Size
    uint32,                             -- DataTimeStamp
    10 * sizeofPriceLevel, 10 * sizeofPriceLevel,
    uint8, 3 * uint8]                   -- TradingPhaseCodePack, Resv

/-- `SBE_SSH_index_snap_t`. -/
def sizeofSSHIndexSnap : ℕ :=
  packed [sizeofHeader,
    int64, int64,                       -- TotalVolumeTrade, TotalValueTrade
    int64, int64, int64, int64, int64,  -- PrevClosePx, LastPx, OpenPx, HighPx, LowPx
    uint32, 4 * uint8]                  -- DataTimeStamp, Resv

/-- `SBE_SSH_ord_t`. -/
def sizeofSSHOrd : ℕ :=
  packed [sizeofHeader,
    int64, int32, int64,                -- OrderNo, Price, OrderQty
    int8, int8, uint32, 6 * uint8]      -- OrdType, Side, OrderTime, Resv

/-- `SBE_SSH_exe_t`. -/
def sizeofSSHExe : ℕ :=
  packed [sizeofHeader,
    int64, int64, int32, int64,         -- TradeBuyNo, TradeSellNo, LastPx, LastQty
    int8, uint32, 7 * uint8]            -- TradeBSFlag, TradeTime, Resv

/-- `SBE_SSH_instrument_snapx5_t`. -/
def sizeofSSHInstrumentSnapx5 : ℕ :=
  packed [sizeofHeader,
    uint64, uint64, int64,              -- NumTrades, TotalVolumeTrade, TotalValueTrade
    int32, int64,                       -- LastPx, LastQty
    int32, int32, int32,                -- OpenPx, HighPx, LowPx
    5 * sizeofPriceLevel, 5 * sizeofPriceLevel,
    int32, uint8, 3 * uint8]            -- DataTimeStamp, TradingPhaseCodePack, Resv

/-- `SBE_SSH_fund_snapx5_t`. -/
def sizeofSSHFundSnapx5 : ℕ :=
  packed [sizeofHeader,
    uint64, uint64, int64,              -- NumTrades, TotalVolumeTrade, TotalValueTrade
    int32, uint64,                      -- LastPx, LastQty
    int32, int32, int32, uint64,        -- OpenPx, HighPx, LowPx, IOPV
    5 * sizeofPriceLevel, 5 * sizeofPriceLevel,
    int32, uint8, 3 * uint8]            -- DataTimeStamp, TradingPhaseCodePack, Resv

/-- `SBE_SSH_index_snapx5_t`. -/
def sizeofSSHIndexSnapx5 : ℕ :=
  packed [sizeofHeader,
    uint64, int64,                      -- TotalVolumeTrade, TotalValueTrade
    int64, int64, int64, int64,         -- LastPx, OpenPx, HighPx, LowPx
    int32, 4 * uint8]                   -- DataTimeStamp, Resv

/-- `SBE_SSH_option_snapx5_t`. -/
def sizeofSSHOptionSnapx5 : ℕ :=
  packed [sizeofHeader,
    uint64, uint64, int64,              -- NumTrades, TotalVolumeTrade, TotalValueTrade
    int32, uint64,                      -- LastPx, LastQty
    int32, int32, int32, int32,         -- OpenPx, HighPx, LowPx, SettlPx
    uint64, int32, uint64,              -- TotalLongPosition, RefPx, QuantityMatching
    5 * sizeofPriceLevel, 5 * sizeofPriceLevel,
    int32, uint8, 3 * uint8]            -- DataTimeStamp, TradingPhaseCodePack, Resv

/-! ## Shenzhen (`sbe_ssz.h`) -/

/-- `SBE_SSZ_instrument_snap_t`. -/
def sizeofSSZInstrumentSnap : ℕ :=
  packed [sizeofHeader,
    int64, int64, int64,                -- NumTrades, TotalVolumeTrade, TotalValueTrade
    int32, int32, int32, int32, int32,  -- PrevClosePx, LastPx, OpenPx, HighPx, LowPx
    int32, int64, int32, int64,         -- BidWeightPx/Size, AskWeightPx/Size
    int32, int32,                       -- UpLimitPx, DnLimitPx
    10 * sizeofPriceLevel, 10 * sizeofPriceLevel,
    uint64, 4 * uint8]                  -- TransactTime, Resv

/-- `SBE_SSZ_index_snap_t`. -/
def sizeofSSZIndexSnap : ℕ :=
  packed [sizeofHeader,
    int64, int64, int64,                -- NumTrades, TotalVolumeTrade, TotalValueTrade
    int64, int64, int64, int64, int64,  -- PrevClosePx, LastPx, OpenPx, HighPx, LowPx
    uint64]                             -- TransactTime

/-- `SBE_SSZ_ord_t`. -/
def sizeofSSZOrd : ℕ :=
  packed [sizeofHeader,
    int32, int64, int8, int8,           -- Price, OrderQty, Side, OrdType
    uint64, 2 * uint8]                  -- TransactTime, Resv

/-- `SBE_SSZ_exe_t`. -/
def sizeofSSZExe : ℕ :=
  packed [sizeofHeader,
    int64, int64, int32, int64,         -- BidApplSeqNum, OfferApplSeqNum, LastPx, LastQty
    int8, uint64, 3 * uint8]            -- ExecType, TransactTime, Resv

/-- `SBE_SSZ_option_snap_t`. -/
def sizeofSSZOptionSnap : ℕ :=
  packed [sizeofHeader,
    int64, int64, int64,                -- NumTrades, TotalVolumeTrade, TotalValueTrade
    int32, int32, int32, int32, int32,  -- PrevClosePx, LastPx, OpenPx, HighPx, LowPx
    int32, int64, int32, int64,         -- BidWeightPx/Size, AskWeightPx/Size
    int32, int32, int64, int32,         -- UpLimitPx, DnLimitPx, ContractPos, RefPx
    10 * sizeofPriceLevel, 10 * sizeofPriceLevel,
    uint64]                             -- TransactTime

/-- `SBE_SSZ_fund_snap_t`. -/
def sizeofSSZFundSnap : ℕ :=
  packed [sizeofHeader,
    int64, int64, int64,                -- NumTrades, TotalVolumeTrade, TotalValueTrade
    int32, int32, int32, int32, int32,  -- PrevClosePx, LastPx, OpenPx, HighPx, LowPx
    int32, int64, int32, int64,         -- BidWeightPx/Size, AskWeightPx/Size
    int32, int32,                       -- UpLimitPx, DnLimitPx
    10 * sizeofPriceLevel, 10 * sizeofPriceLevel,
    uint64, int32]                      -- TransactTime, IOPV

/-! ## Message types -/

/-- `__SecurityIDSource_SSH_`. -/
def securityIDSourceSSH : UInt8 := 101
/-- `__SecurityIDSource_SSZ_`. -/
def securityIDSourceSSZ : UInt8 := 102

/-- `__MsgType_HEARTBEAT__`. -/
def msgTypeHeartbeat : UInt8 := 1
def msgTypeSSHInstrumentSnap : UInt8 := 111
def msgTypeSSHIndexSnap : UInt8 := 11
def msgTypeSSHOrder : UInt8 := 192
def msgTypeSSHExecution : UInt8 := 191
def msgTypeSSHInstrumentSnapx5 : UInt8 := 2
def msgTypeSSHFundSnapx5 : UInt8 := 4
def msgTypeSSHIndexSnapx5 : UInt8 := 10
def msgTypeSSHOptionSnapx5 : UInt8 := 31
def msgTypeSSZOptionSnap : UInt8 := 13
def msgTypeSSZFundSnap : UInt8 := 12

/-- The ten kinds of records that carry market data, one for each pair of a
`recv_*_cnt` and a `live_*_cnt` counter. -/
inductive MsgKind
  | instrumentSnap | indexSnap | fundSnap | optionSnap | order | exec
  | instrumentSnapx5 | fundSnapx5 | indexSnapx5 | optionSnapx5
deriving DecidableEq, Repr

/-- What a well-formed record is: a heartbeat, or market data. -/
inductive RecordKind
  | heartbeat
  | msg (k : MsgKind)
deriving DecidableEq, Repr

end S4LibLite.Sbe
