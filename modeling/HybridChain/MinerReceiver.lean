import HybridChain.BlockStream

/-!
# The miner's loop and the receiver's loop

A miner calls `AddUTXO` for each transaction of its block, a receiver calls
`ProcessBlockTransactions`. The receiver debits all senders before it credits any owner, and
replaces accounts whose balance is zero.

## Main definitions

* `addEach`: the miner's loop
* `AgreesOn`: when both leave an account in the same state

## Main results

* `addEach_outputs`: they agree on the outputs
* `accounts_agree_iff`: when they agree on the accounts
-/

namespace HybridChain

open List
open KeyedLog (Store)
open Mempool (amountAt)
open AccountManager (keysOf ownersOf)
open Crypto (sample)
open Transaction (debited debits events ownerUTXOs)

variable (C : Crypto) (calls : List (Transaction × ℤ)) (blockHeight : UInt64)

namespace UTXOPool

/-- `AddUTXO` for each transaction of a list, each at its own time. -/
def addEach (C : Crypto) (state : UTXOPool × Host) (calls : List (Transaction × ℤ))
    (blockHeight : UInt64) : UTXOPool × Host :=
  calls.foldl (fun (pool, host) (tx, now) => pool.addUTXO C host tx blockHeight now) state

/-! ## Outputs -/

/-- Two pools with the same outputs and the same updates. -/
def SameOutputs (p q : UTXOPool) : Prop := p.utxos = q.utxos ∧ p.updates = q.updates

lemma SameOutputs.markInput {p q : UTXOPool} (h : p.SameOutputs q) (key : String) :
    (p.markInput key).SameOutputs (q.markInput key) := by
  unfold UTXOPool.markInput
  rw [h.1]
  cases q.utxos.lookup key with
  | none => exact h
  | some utxo => exact ⟨rfl, by rw [h.2]⟩

lemma SameOutputs.markInputs {p q : UTXOPool} (h : p.SameOutputs q) (tx : Transaction) :
    (p.markInputs tx).SameOutputs (q.markInputs tx) := by
  unfold UTXOPool.markInputs
  induction tx.spentKeys generalizing p q with
  | nil => exact h
  | cons key keys ih => exact ih (h.markInput key)

lemma SameOutputs.createOutputs {p q : UTXOPool} (h : p.SameOutputs q) (tx : Transaction)
    (blockHeight : UInt64) :
    (p.createOutputs tx blockHeight).SameOutputs (q.createOutputs tx blockHeight) := by
  unfold UTXOPool.createOutputs
  induction tx.created blockHeight generalizing p q with
  | nil => exact h
  | cons e es ih =>
    apply ih
    exact ⟨congrArg (fun m : Store String UTXO => m.insert e.1 e.2) h.1,
      congrArg (fun m : Store String UTXO => m.insert e.1 e.2) h.2⟩

/-- **The two loops change the outputs alike**, whatever else the pools have. -/
lemma sameOutputs_addEach
    {p q : UTXOPool} (host : Host) (h : p.SameOutputs q) :
    (addEach C (p, host) calls blockHeight).1.SameOutputs ((calls.map Prod.fst).foldl
        (fun pool tx => (pool.markInputs tx).createOutputs tx blockHeight) q) := by
  induction calls generalizing p q host with
  | nil => exact h
  | cons call calls ih =>
    obtain ⟨tx, now⟩ := call
    rw [map_cons, foldl_cons]
    exact ih _ ((h.markInputs tx).createOutputs tx blockHeight)

lemma merkleRoot_addEach (state : UTXOPool × Host) {calls : List (Transaction × ℤ)}
    (blockHeight : UInt64) (hne : calls ≠ []) : (addEach C state calls blockHeight).1.merkleRoot =
      calculateMerkleRoot C (addEach C state calls blockHeight).1.utxos := by
  obtain ⟨init, last, rfl⟩ := eq_nil_or_concat calls |>.resolve_left hne
  rw [concat_eq_append, addEach, foldl_append]
  rfl

/-- **Miner and receiver agree on the outputs.** The roots differ only for a block without
transactions on top of a pool whose root is out of date: no call of `AddUTXO` then computes it
anew. -/
theorem addEach_outputs (C : Crypto) (pool : UTXOPool) (host host' : Host)
    (calls : List (Transaction × ℤ)) {block : Block} (now : ℤ)
    (htxs : block.transactions = calls.map Prod.fst) :
    let miner := (addEach C (pool, host) calls block.header.blockNumber).1
    let receiver := (pool.processBlockTransactions C host' block now).1.1
    miner.utxos = receiver.utxos ∧ miner.updates = receiver.updates ∧
      (miner.merkleRoot = receiver.merkleRoot ↔
        calls ≠ [] ∨ pool.merkleRoot = calculateMerkleRoot C pool.utxos) := by
  intro miner receiver
  have hsame : miner.SameOutputs receiver := by
    have h := sameOutputs_addEach C calls block.header.blockNumber host (p := pool) (q := pool)
      ⟨rfl, rfl⟩
    have hpool : receiver.SameOutputs ((calls.map Prod.fst).foldl
        (fun pool tx => (pool.markInputs tx).createOutputs tx block.header.blockNumber) pool) := by
      simp only [receiver, processBlockTransactions_pool, applyTransactions,
        foldl_applyTransaction, htxs]
      exact ⟨rfl, rfl⟩
    exact ⟨h.1.trans hpool.1.symm, h.2.trans hpool.2.symm⟩
  have hroot : receiver.merkleRoot = calculateMerkleRoot C receiver.utxos := rfl
  refine ⟨hsame.1, hsame.2, ?_⟩
  rw [hroot, ← hsame.1]
  cases calls with
  | nil => simp [miner, addEach]
  | cons call calls =>
    simp only [ne_eq, reduceCtorEq, not_false_eq_true, true_or, iff_true]
    exact merkleRoot_addEach C (pool, host) block.header.blockNumber (cons_ne_nil _ _)

theorem addEach_outputs_paid_back :
    let block : Block := { header := secondHeader, body := bodyOf payBackTen }
    let s := Ledger.tenTokensLinked
    block.transactions = [payBackTen] ∧ (addEach sample s [(payBackTen, 5)] 1).1.merkleRoot =
        (s.1.processBlockTransactions sample s.2 block 6).1.1.merkleRoot := by
  intro block s
  have htxs : block.transactions = [(payBackTen, (5 : ℤ))].map Prod.fst := by decide +kernel
  exact ⟨htxs, (addEach_outputs sample s.1 s.2 s.2 [(payBackTen, 5)] 6 htxs).2.2.mpr
    (.inl (by simp))⟩

/-- A block without transactions makes a receiver compute a root that was out of date, and a miner
not. -/
theorem empty_block_renews_root :
    let pool : UTXOPool := { merkleRoot := "out of date" }
    Block.transactions {} = [] ∧ (addEach sample (pool, {}) [] 0).1.merkleRoot = "out of date" ∧
      (pool.processBlockTransactions sample {} {} 0).1.1.merkleRoot = "" := by
  decide +kernel

end UTXOPool

/-! ## What happens to the outputs of one account -/

/-- The keys of the outputs that transactions pay to an address. -/
def paid (address : String) (txs : List Transaction) : List String :=
  keysOf (txs.flatMap ownerUTXOs) address

/-- The keys of the outputs that the transactions of an address take as inputs. -/
def taken (address : String) (txs : List Transaction) : List String :=
  (txs.filter (debits address)).flatMap Transaction.inputKeys

/-- An output is paid to an address by one of the transactions, and from that one on no transaction
of the address takes it. -/
def PaidLast (address key : String) (txs : List Transaction) : Prop :=
  ∃ pre tx post, txs = pre ++ tx :: post ∧ key ∈ paid address [tx] ∧
    key ∉ taken address (tx :: post)

lemma mem_paid_cons {address key : String} {tx : Transaction} {txs : List Transaction} :
    key ∈ paid address (tx :: txs) ↔ key ∈ paid address [tx] ∨ key ∈ paid address txs := by
  simp [paid, keysOf]

lemma mem_taken_cons {address key : String} {tx : Transaction} {txs : List Transaction} :
    key ∈ taken address (tx :: txs) ↔ key ∈ taken address [tx] ∨ key ∈ taken address txs := by
  by_cases h : tx.debits address <;> simp [taken, h]

lemma paidLast_cons {address key : String} {tx : Transaction} {txs : List Transaction} :
    PaidLast address key (tx :: txs) ↔
      (key ∈ paid address [tx] ∧ key ∉ taken address (tx :: txs)) ∨ PaidLast address key txs := by
  constructor
  · rintro ⟨pre, t, post, htxs, hpaid, htaken⟩
    cases pre with
    | nil =>
      obtain ⟨rfl, rfl⟩ := List.cons.inj htxs
      exact .inl ⟨hpaid, htaken⟩
    | cons p pre =>
      obtain ⟨rfl, rfl⟩ := List.cons.inj htxs
      exact .inr ⟨pre, t, post, rfl, hpaid, htaken⟩
  · rintro (⟨hpaid, htaken⟩ | ⟨pre, t, post, rfl, hpaid, htaken⟩)
    · exact ⟨[], tx, txs, rfl, hpaid, htaken⟩
    · exact ⟨tx :: pre, t, post, rfl, hpaid, htaken⟩

lemma PaidLast.mem_paid {address key : String} {txs : List Transaction}
    (h : PaidLast address key txs) : key ∈ paid address txs := by
  obtain ⟨pre, tx, post, rfl, hpaid, -⟩ := h
  induction pre with
  | nil => exact mem_paid_cons.mpr (.inl hpaid)
  | cons p pre ih => exact mem_paid_cons.mpr (.inr ih)

lemma paidLast_of_not_taken {address key : String} {txs : List Transaction}
    (hpaid : key ∈ paid address txs) (htaken : key ∉ taken address txs) :
    PaidLast address key txs := by
  induction txs with
  | nil => simp [paid, keysOf] at hpaid
  | cons tx txs ih =>
    rw [paidLast_cons]
    rcases mem_paid_cons.mp hpaid with hpaid | hpaid
    · exact .inl ⟨hpaid, htaken⟩
    · exact .inr (ih hpaid fun h => htaken (mem_taken_cons.mpr (.inr h)))

namespace AccountState

variable {m : Store String String}

lemma mem_eraseInputs {txs : List Transaction} {address key : String} :
    key ∈ eraseInputs txs address m ↔ key ∈ m ∧ key ∉ taken address txs := by
  rw [← Finmap.lookup_isSome, lookup_eraseInputs, ← Finmap.lookup_isSome]
  unfold taken
  split_ifs with hk <;> simp [hk]

lemma mem_insertKeys {utxos : Store String UTXO} {keys : List String} {key : String} : key ∈
    insertKeys utxos keys m ↔ key ∈ keys ∨ key ∈ m := by
  rw [← Finmap.lookup_isSome, lookup_insertKeys, ← Finmap.lookup_isSome]
  split_ifs with hk <;> simp [hk]

/-- The outputs that an account records after `AddUTXO`: a credit records the keys paid to it, then
the debit takes off the inputs. -/
lemma mem_utxos_afterTransaction {utxos : Store String UTXO} {tx : Transaction} {address : String}
    (hutxos : ∀ key ∈ paid address [tx], utxos.lookup key ≠ none) (now : ℤ) (state : AccountState)
    (key : String) : key ∈ (state.afterTransaction utxos now tx address).utxos ↔
      (key ∈ state.utxos ∨ key ∈ paid address [tx]) ∧ key ∉ taken address [tx] := by
  have hpaid : paid address [tx] = keysOf tx.ownerUTXOs address := by simp [paid]
  have hfold : ∀ (keys : List String) (received : ℚ × Store String String),
      (∀ k ∈ keys, utxos.lookup k ≠ none) →
      (key ∈ (keys.foldl (creditKey utxos) received).2 ↔ key ∈ received.2 ∨ key ∈ keys) := by
    intro keys
    induction keys with
    | nil => simp
    | cons k keys ih =>
      intro received hkeys
      rw [foldl_cons, ih _ fun j hj => hkeys j (mem_cons_of_mem _ hj)]
      cases hk : utxos.lookup k with
      | none => exact absurd hk (hkeys k mem_cons_self)
      | some utxo => simp [creditKey, hk, or_left_comm, or_assoc]
  have hcredit : key ∈ (if address ∈ ownersOf tx.ownerUTXOs then
      state.credit utxos now (keysOf tx.ownerUTXOs address) else state).utxos ↔
      key ∈ state.utxos ∨ key ∈ paid address [tx] := by
    by_cases hown : address ∈ ownersOf tx.ownerUTXOs
    · rw [if_pos hown, hpaid]
      exact hfold _ (0, state.utxos) (by rwa [← hpaid])
    · rw [if_neg hown, hpaid, keysOf_eq_nil hown]
      simp
  have hdebit : ∀ s : AccountState, key ∈ (if tx.debits address then s.debit now tx else s).utxos ↔
        key ∈ s.utxos ∧ key ∉ taken address [tx] := by
    intro s
    have hall : (if tx.debits address then s.debit now tx else s) =
        s.debitAll now [tx] address := by
      by_cases htx : tx.debits address <;> simp [debitAll, htx]
    rw [hall, utxos_debitAll, mem_eraseInputs]
  unfold afterTransaction
  rw [hdebit, hcredit]

/-- The account of an address after `AddUTXO` for each transaction of a list. -/
def afterEach (blockHeight : UInt64) (address : String) :
    Store String UTXO → List (Transaction × ℤ) → AccountState → AccountState
  | _, [], state => state
  | utxos, (tx, now) :: calls, state =>
    let utxos := KeyedLog.run UTXO.markSpent utxos (tx.events blockHeight)
    afterEach blockHeight address utxos calls (state.afterTransaction utxos now tx address)

lemma lookup_run_events {tx : Transaction} {h : UInt64} {key address : String}
    (hkey : key ∈ paid address [tx]) (utxos : Store String UTXO) :
    (KeyedLog.run UTXO.markSpent utxos (tx.events h)).lookup key ≠ none := by
  obtain ⟨utxo, hput⟩ := exists_put_of_mem_keysOf (h := h) hkey
  obtain ⟨v, hv, -⟩ := KeyedLog.exists_foldl_cell_of_put UTXO.markSpent (P := fun _ => True)
    (fun _ h => h) (fun _ _ => trivial) ⟨utxo, hput⟩ (utxos.lookup key)
  rw [KeyedLog.lookup_run]
  rw [flatMap_singleton] at hv
  simp [hv]

variable (blockHeight : UInt64) (address : String)

/-- **The outputs an account records after the miner's loop**: those it had that were never taken,
and those paid to it since they were last taken. -/
lemma mem_utxos_afterEach (utxos : Store String UTXO) (calls : List (Transaction × ℤ))
    (state : AccountState) (key : String) :
    key ∈ (state.afterEach blockHeight address utxos calls).utxos ↔
      (key ∈ state.utxos ∧ key ∉ taken address (calls.map Prod.fst)) ∨
        PaidLast address key (calls.map Prod.fst) := by
  induction calls generalizing utxos state with
  | nil => simp [afterEach, taken, PaidLast]
  | cons call calls ih =>
    obtain ⟨tx, now⟩ := call
    rw [afterEach, ih, mem_utxos_afterTransaction fun k hk => lookup_run_events hk utxos,
      map_cons, paidLast_cons, @mem_taken_cons address key tx (calls.map Prod.fst)]
    tauto

lemma balance_afterEach (utxos : Store String UTXO) (calls : List (Transaction × ℤ))
    (state : AccountState) : (state.afterEach blockHeight address utxos calls).balance =
      state.balance - ((calls.map Prod.fst).map (debited address)).sum +
        ((calls.map Prod.fst).map (Transaction.received address)).sum := by
  induction calls generalizing utxos state with
  | nil => simp [afterEach]
  | cons call calls ih =>
    obtain ⟨tx, now⟩ := call
    have hreceived := @sum_amountAt_keysOf [tx] blockHeight (by simp) utxos address
    simp only [flatMap_singleton, map_cons, map_nil, sum_cons, sum_nil, add_zero] at hreceived
    rw [afterEach, ih, balance_afterTransaction, hreceived]
    simp only [map_cons, sum_cons]
    ring

lemma nonce_afterEach (utxos : Store String UTXO) (calls : List (Transaction × ℤ))
    (state : AccountState) :
    (state.afterEach blockHeight address utxos calls).nonce = state.nonce := by
  induction calls generalizing utxos state with
  | nil => rfl
  | cons call calls ih =>
    obtain ⟨tx, now⟩ := call
    rw [afterEach, ih]
    unfold afterTransaction
    simp only
    split_ifs <;> rfl

/-- A receiver replaces the account by a new one: it is paid by the block, and the debits of the
block leave it with the balance zero. -/
def Renewed (txs : List Transaction) (state : AccountState) : Prop :=
  address ∈ ownersOf (txs.flatMap ownerUTXOs) ∧ state.balance = (txs.map (debited address)).sum

variable (utxos : Store String UTXO) (now : ℤ) (txs : List Transaction) (state : AccountState)

/-- **The outputs an account records after the receiver's loop.** -/
lemma mem_utxos_afterBlock (key : String) : key ∈ (state.afterBlock utxos now txs address).utxos ↔
      key ∈ paid address txs ∨
        (¬ state.Renewed address txs ∧ key ∈ state.utxos ∧ key ∉ taken address txs) := by
  rw [utxos_afterBlock]
  by_cases hown : address ∈ ownersOf (txs.flatMap ownerUTXOs)
  · rw [if_pos hown, mem_insertKeys]
    refine or_congr Iff.rfl ?_
    by_cases hzero : state.balance = (txs.map (debited address)).sum
    · rw [if_pos (sub_eq_zero.mpr hzero)]
      simp [Renewed, hown, hzero, Finmap.notMem_empty]
    · rw [if_neg (fun h => hzero (sub_eq_zero.mp h)), mem_eraseInputs]
      simp [Renewed, hzero]
  · rw [if_neg hown, mem_eraseInputs, paid, keysOf_eq_nil hown]
    simp [Renewed, hown]

lemma nonce_afterBlock :
    (state.Renewed address txs → (state.afterBlock utxos now txs address).nonce = 0) ∧
      (¬ state.Renewed address txs →
        (state.afterBlock utxos now txs address).nonce = state.nonce) := by
  have hdebits : (state.debitAll now txs address).nonce = state.nonce := by
    unfold debitAll
    induction txs.filter (debits address) generalizing state with
    | nil => rfl
    | cons tx txs ih => rw [foldl_cons, ih]; rfl
  have hzero : (state.debitAll now txs address).balance = 0 ↔
      state.balance = (txs.map (debited address)).sum := by
    rw [balance_debitAll, sub_eq_zero]
  unfold afterBlock Renewed
  by_cases hown : address ∈ ownersOf (txs.flatMap ownerUTXOs)
  · simp only [if_pos hown, creditBlock_eq, ← hzero]
    refine ⟨fun h => ?_, fun h => ?_⟩
    · simp only [if_pos h.2]
    · simp only [if_neg fun hb => h ⟨hown, hb⟩, hdebits]
  · simp only [if_neg hown]
    exact ⟨fun h => absurd h.1 hown, fun _ => hdebits⟩

end AccountState

/-- When the two loops leave the account of an address in the same state: the amounts under the keys
paid to it add up to what the outputs pay it; every such key is paid after its last use as an input;
and an account that the receiver replaces had nothing to lose. -/
structure AgreesOn (blockHeight : UInt64) (txs : List Transaction) (address : String)
    (state : AccountState) : Prop where
  amounts : creditedTo blockHeight txs address = (txs.map (Transaction.received address)).sum
  paidLast : ∀ key ∈ paid address txs, PaidLast address key txs
  nonce : state.Renewed address txs → state.nonce = 0
  keys : state.Renewed address txs → ∀ key ∈ state.utxos,
    key ∈ paid address txs ∨ key ∈ taken address txs

/-- Two states of an account with the same balance, nonce and set of output keys. -/
def AccountState.Agrees (s t : AccountState) : Prop :=
  s.balance = t.balance ∧ s.nonce = t.nonce ∧ ∀ key, key ∈ s.utxos ↔ key ∈ t.utxos

lemma AccountState.keys_agree_iff (address : String) (txs : List Transaction)
    (state : AccountState) :
    (∀ key, (key ∈ state.utxos ∧ key ∉ taken address txs) ∨ PaidLast address key txs ↔
        key ∈ paid address txs ∨
          (¬ state.Renewed address txs ∧ key ∈ state.utxos ∧ key ∉ taken address txs)) ↔
      (∀ key ∈ paid address txs, PaidLast address key txs) ∧
        (state.Renewed address txs → ∀ key ∈ state.utxos,
          key ∈ paid address txs ∨ key ∈ taken address txs) := by
  constructor
  · intro hk
    refine ⟨fun key hkey => ?_, fun hrenewed key hkey => ?_⟩
    · rcases (hk key).mpr (.inl hkey) with ⟨-, htaken⟩ | hlast
      · exact paidLast_of_not_taken hkey htaken
      · exact hlast
    · by_contra hneither
      rw [not_or] at hneither
      rcases (hk key).mp (.inl ⟨hkey, hneither.2⟩) with hpaid | ⟨hnot, -⟩
      · exact hneither.1 hpaid
      · exact hnot hrenewed
  · rintro ⟨hlast, hlost⟩ key
    constructor
    · rintro (⟨hkey, htaken⟩ | hpaid)
      · by_cases hrenewed : state.Renewed address txs
        · exact .inl ((hlost hrenewed key hkey).resolve_right htaken)
        · exact .inr ⟨hrenewed, hkey, htaken⟩
      · exact .inl hpaid.mem_paid
    · rintro (hpaid | ⟨-, hkey, htaken⟩)
      · exact .inr (hlast key hpaid)
      · exact .inl ⟨hkey, htaken⟩

/-- **When the two loops agree on one account.** -/
lemma AccountState.agrees_iff (utxos : Store String UTXO) (now : ℤ)
    (calls : List (Transaction × ℤ)) (address : String) (state : AccountState) :
    (state.afterEach blockHeight address utxos calls).Agrees
        (state.afterBlock (KeyedLog.run UTXO.markSpent utxos
          ((calls.map Prod.fst).flatMap (events blockHeight))) now (calls.map Prod.fst) address) ↔
      AgreesOn blockHeight (calls.map Prod.fst) address state := by
  have hkeys := state.mem_utxos_afterEach blockHeight address utxos calls
  have hbalance := state.balance_afterEach blockHeight address utxos calls
  have hnonce := state.nonce_afterEach blockHeight address utxos calls
  generalize state.afterEach blockHeight address utxos calls = miner at hkeys hbalance hnonce ⊢
  generalize calls.map Prod.fst = txs at hkeys hbalance ⊢
  have hbalance' := balance_afterBlock (KeyedLog.run UTXO.markSpent utxos
    (txs.flatMap (events blockHeight))) now txs address state
  rw [sum_amountAt_eq_creditedTo] at hbalance'
  have hkeys' := state.mem_utxos_afterBlock address (KeyedLog.run UTXO.markSpent utxos
    (txs.flatMap (events blockHeight))) now txs
  have hnonce' := state.nonce_afterBlock address (KeyedLog.run UTXO.markSpent utxos
    (txs.flatMap (events blockHeight))) now txs
  generalize state.afterBlock _ now txs address = receiver at hbalance' hkeys' hnonce' ⊢
  have hagree := state.keys_agree_iff address txs
  constructor
  · rintro ⟨hb, hn, hk⟩
    simp only [hkeys, hkeys'] at hk
    obtain ⟨hlast, hlost⟩ := hagree.mp hk
    refine ⟨by linarith, hlast, fun hrenewed => ?_, hlost⟩
    rw [← hnonce, hn, hnonce'.1 hrenewed]
  · rintro ⟨hamounts, hlast, hzero, hlost⟩
    refine ⟨by linarith, ?_, fun key => ?_⟩
    · by_cases hrenewed : state.Renewed address txs
      · rw [hnonce, hnonce'.1 hrenewed, hzero hrenewed]
      · rw [hnonce, hnonce'.2 hrenewed]
    · rw [hkeys, hkeys']
      exact hagree.mpr ⟨hlast, hlost⟩ key

/-! ## Every account -/

/-- Two account managers in which every account has the same balance, nonce and output keys. -/
def SameAccounts (am am' : AccountManager) : Prop :=
  ∀ address, (am.view address).Agrees (am'.view address)

namespace UTXOPool

/-- **Every account after the miner's loop**, if the pool is linked to accounts. -/
lemma linkedManager_addEach (pool : UTXOPool) (host : Host) (h : UInt64) :
    ∃ after, (addEach C (pool, host) calls h).1.linkedManager (addEach C (pool, host) calls h).2 =
        (pool.linkedManager host).map after ∧ ∀ am address, (after am).view address =
          (am.view address).afterEach h address pool.utxos calls := by
  induction calls generalizing pool host with
  | nil => exact ⟨id, Option.map_id'.symm, fun _ _ => rfl⟩
  | cons call calls ih =>
    obtain ⟨tx, now⟩ := call
    obtain ⟨after, hafter, hview⟩ := ih (pool.addUTXO C host tx h now).1
      (pool.addUTXO C host tx h now).2
    rw [linkedManager_addUTXO, Option.map_map] at hafter
    refine ⟨_, hafter, fun am address => ?_⟩
    rw [Function.comp_apply, hview, AccountManager.view_recordTransaction, utxos_addUTXO]
    rfl

end UTXOPool

/-- **When miner and receiver agree on the accounts**: exactly when they do at every address, as
`AgreesOn` says.

**Proof sketch.** Both loops move a balance by the same debits; the miner credits an output when it
is created, the receiver all of them at the end, from the final outputs. The miner takes inputs off
an account in the order of the transactions, the receiver before any credit. -/
theorem accounts_agree_iff (C : Crypto) (pool : UTXOPool) (host : Host)
    (calls : List (Transaction × ℤ)) {block : Block} (now : ℤ)
    (htxs : block.transactions = calls.map Prod.fst) :
    let miner := UTXOPool.addEach C (pool, host) calls block.header.blockNumber
    let receiver := (pool.processBlockTransactions C host block now).1
    Option.Rel SameAccounts (miner.1.linkedManager miner.2) (receiver.1.linkedManager receiver.2) ↔
      ∀ am, pool.linkedManager host = some am → ∀ address,
        AgreesOn block.header.blockNumber block.transactions address (am.view address) := by
  intro miner receiver
  have hreceiver : receiver.1.linkedManager receiver.2 = _ :=
    UTXOPool.linkedManager_processBlockTransactions C pool host now block
  obtain ⟨after, hafter, hview⟩ :=
    UTXOPool.linkedManager_addEach C calls pool host block.header.blockNumber
  have hminer : miner.1.linkedManager miner.2 = _ := hafter
  rw [hreceiver, hminer]
  cases hlink : pool.linkedManager host with
  | none => simp
  | some am =>
    rw [Option.map_some, Option.map_some, Option.rel_some_some]
    simp only [Option.some.injEq, forall_eq']
    refine forall_congr' fun address => ?_
    rw [hview, AccountManager.view_recordBlock, UTXOPool.utxos_processBlockTransactions, htxs]
    exact AccountState.agrees_iff _ _ _ _ _ _

def soleReward : Transaction := newCoinbaseTransaction sample "miner" 50 1 0

theorem accounts_agree_sole_reward :
    let block : Block := { header := secondHeader, body := bodyOf soleReward }
    let s := Ledger.tenTokensLinked
    let miner := UTXOPool.addEach sample s [(soleReward, 5)] 1
    let receiver := (s.1.processBlockTransactions sample s.2 block 6).1
    block.transactions = [soleReward] ∧ Option.Rel SameAccounts (miner.1.linkedManager miner.2)
        (receiver.1.linkedManager receiver.2) := by
  intro block s miner receiver
  have htxs : block.transactions = [(soleReward, (5 : ℤ))].map Prod.fst := by decide +kernel
  refine ⟨htxs, (accounts_agree_iff sample s.1 s.2 [(soleReward, 5)] 6 htxs).mpr ?_⟩
  intro am ham address
  have htaken : taken address [soleReward] = [] := by
    simp [taken, debits, soleReward]
  have hrenewed : (am.view address).Renewed address [soleReward] →
      am.view address = { address := "miner" } := by
    rintro ⟨hown, -⟩
    obtain rfl : address = "miner" := by
      simpa [ownersOf, ownerUTXOs, soleReward, newCoinbaseTransaction, rewardTransaction] using hown
    obtain rfl := Option.some.inj ham
    decide +kernel
  rw [htxs]
  refine ⟨creditedTo_eq_received (by simp), fun key hkey => ?_, fun h => ?_, fun h key hkey => ?_⟩
  · exact paidLast_of_not_taken hkey (by rw [map_singleton, htaken]; simp)
  · rw [hrenewed h]
  · rw [hrenewed h] at hkey
    exact absurd hkey Finmap.notMem_empty

def spentAccount : UTXOPool × Host := ({ node := true },
    { accountManager := some
        { accounts := (∅ : Store String AccountState).insert "miner"
            { address := "miner", nonce := 7 }
          stored := ∅ } })

/-- A reward for an account with the balance zero: the miner's loop keeps its nonce, the receiver's
loop sets it to zero. -/
theorem receiver_resets_nonce :
    let block : Block := { header := secondHeader, body := bodyOf soleReward }
    let miner := UTXOPool.addEach sample spentAccount [(soleReward, 5)] 1
    let receiver := (spentAccount.1.processBlockTransactions sample spentAccount.2 block 6).1
    block.transactions = [soleReward] ∧
      (miner.1.linkedManager miner.2).map (fun am => (am.view "miner").nonce) = some 7 ∧
      (receiver.1.linkedManager receiver.2).map (fun am => (am.view "miner").nonce) = some 0 := by
  decide +kernel

end HybridChain
