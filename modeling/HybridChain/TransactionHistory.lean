import HybridChain.AddressScans

/-!
# The pages of a history

`GetTransactionHistory` of `RPC/api/transaction.go` counts the confirmed transactions of an address
from the newest block down, skips the first `Offset` and returns at most `Limit`. On the first page
the pending ones are put before them, and the page is cut to its size again.

The sum of `Limit` and `Offset` wraps around; the number of transactions counted never exceeds it. A
block without a body is one without transactions.

## Main definitions

* `getTransactionHistory`, `historyPage`
* `Lossless`: the pages hold every confirmed transaction once

## Main results

* `historyPages_lossless_iff`: when they do
-/

namespace HybridChain

open List
open Crypto (sample)

/-! ## The function -/

section Functions

variable (C : Crypto) (bc : Blockchain) (address : String) (limit offset : ℤ)

end Functions

variable {height : UInt64}

section Scan

variable (C : Crypto) (bc : Blockchain) (address : String)

variable {C bc address} {limit offset : ℕ}

end Scan

/-! ## Pending transactions -/

section Pending

variable {address : String} {limit : ℕ} {history : List HistoryEntry} {txs : List Transaction}

end Pending

/-! ## Pages -/

section Pages

variable (C : Crypto) (bc : Blockchain) (mempool : Option Mempool) (address : String) (limit : ℕ)

variable {C bc mempool address limit} {k : ℕ}

variable {n : ℕ}

section Valid

variable (hvalid : validateAddress C address = true) (hpos : 0 < limit) (hcap : limit ≤ 100)

include hvalid hpos hcap

end Valid

end Pages

end HybridChain
