/-
  SoroFuzz.Core.Strategies — generatable argument types (`crates/strategies`).
-/

import SoroFuzz.Lib.SInt

namespace SoroFuzz.Core

open Lib (I128)

/-- An index into the run's `AddressPool`, taken modulo its length. -/
structure AddressIndex where
  index : UInt8
  deriving DecidableEq, Repr

/-- An `i128` in `[MIN, MAX]`. -/
structure BoundedI128 (MIN MAX : Int) where
  get : I128
  lower : MIN ≤ get.val
  upper : get.val ≤ MAX
  deriving DecidableEq, Repr

/-- Seconds to advance the ledger's timestamp by. -/
structure TimeAdvance where
  secs : UInt32
  deriving DecidableEq, Repr

abbrev NonNegativeI128 := BoundedI128 0 (2 ^ 127 - 1)

end SoroFuzz.Core
