import HybridChain.NodeSync
import HybridChain.ValidatorSelection

/-!
# The sync service

`SyncService.syncWithPeer` and `handleSyncRequest` of `sync/service.go` share a protocol identifier
but not a message: the client asks with `start_height` and `end_height` and expects one object with
`blocks`; the server reads `height` and answers with a `ChainInfo` and arrays of blocks.

A stream is the list of the JSON values on it. What the server reads besides its chain is an
argument. The exchange in the other direction, if the client is ahead, is not part of this one. The
counter of the batches does not overflow: a chain that fits in memory is too short.

## Main definitions

* `handleSyncRequest`, `sendChainToPeer`, `syncWithPeer`, `exchange`

## Main results

* `exchange_transfers_nothing`: no block is ever transferred
-/

namespace HybridChain

open KeyedLog (Store)
open Codec (str uint64)

namespace SyncService

/-! ## The server -/

/-- `SyncRequest`. -/
structure Request where
  height : UInt64 := 0

def Request.codec : Codec Request := Record.start Request.mk
    |>.field "height" uint64 Request.height
    |>.toCodec (fun _ => rfl) (by decide) {}

/-- `ChainInfo`, as far as it is filled in. -/
structure ChainInfo where
  height : UInt64
  lastBlockHash : String
  stateRoot : String

/-- The fields that a `ChainInfo` is written with. -/
def ChainInfo.toFields (info : ChainInfo) : List (String × Json) :=
  [("Height", uint64.encode info.height), ("LastBlockHash", str.encode info.lastBlockHash),
    ("StateRoot", str.encode info.stateRoot),
    ("UTXORoot", str.encode ""),
    ("NetworkVersion", Codec.uint32.encode 0),
    ("ProtocolVersion", Codec.uint32.encode 0),
    ("MinPeerVersion", Codec.uint32.encode 0),
    ("Timestamp", .null)]

def ChainInfo.toJson (info : ChainInfo) : Json := .obj info.toFields

/-- What the server reads besides its chain. -/
structure Surroundings where
  hostID : String := ""
  /-- Whether the blockchain has a stake pool. -/
  hasStakePool : Bool := true
  /-- The validators of the blockchain in the order in which their map is enumerated. -/
  validators : List ValidatorRecord := []
  /-- The address of the wallet and the outputs, for a new first block. -/
  wallet : Option String := none
  utxoSet : Store String UTXO := ∅
  now : ℤ := 0
  /-- `CalculateStateHash`. -/
  stateHash : String := ""

/-- `GetGenesisValidator`: the first active validator. -/
def getGenesisValidator (env : Surroundings) : Option ValidatorRecord :=
  if env.hasStakePool then env.validators.find? fun validator => validator.status = .active
  else none

variable (C : Crypto)

/-- The blocks of a batch; nothing if one of them is missing. -/
def collectBatch (bc : Blockchain) : List UInt64 → Blockchain × Option (List Block)
  | [] => (bc, some [])
  | height :: heights =>
    match bc.getBlockByHeight C height with
    | (none, bc) => (bc, none)
    | (some block, bc) =>
      let (bc, blocks) := collectBatch bc heights
      (bc, blocks.map (block :: ·))

/-- Send batch after batch, until a block is missing. -/
def sendBatches (bc : Blockchain) : List (List UInt64) → Blockchain × List Json
  | [] => (bc, [])
  | batch :: batches =>
    match collectBatch C bc batch with
    | (bc, none) => (bc, [])
    | (bc, some blocks) =>
      let (bc, rest) := sendBatches bc batches
      (bc, .arr (blocks.map Block.marshalJSON) :: rest)

def batchSize : ℕ := 10

def sendChainToPeer (stateHash : String) (bc : Blockchain) (startHeight endHeight : UInt64) :
    Blockchain × List Json :=
  let chainInfo : ChainInfo :=
    { height := endHeight
      lastBlockHash := ((bc.getLatestBlock C).map (Block.getHash C)).getD ""
      stateRoot := stateHash }
  let (bc, batches) := sendBatches C bc
    (Stride.batches batchSize (Blockchain.heightsAfter startHeight endHeight))
  (bc, chainInfo.toJson :: batches)

/-- The server's blockchain after a request at height zero: the genesis validator starts a chain. -/
def startChain (env : Surroundings) (bc : Blockchain) : Blockchain :=
  match getGenesisValidator env with
  | none => bc
  | some validator =>
    if validator.address = env.hostID then
      match bc.initializeChain C env.wallet env.utxoSet env.now with
      | .error _ => bc
      -- the broadcast of the first block fills its hash in
      | .ok bc => (bc.getBlockByHeight C 0).2
    else bc

/-- `handleSyncRequest`: what the server writes to the stream. At height zero it writes nothing,
whether it starts a chain or waits for one. -/
def handleSyncRequest (env : Surroundings) (bc : Blockchain) (request : Json) :
    Blockchain × List Json :=
  match Request.codec.decode request with
  | none => (bc, [])
  | some req =>
    let currentHeight := bc.getHeight
    if currentHeight = 0 then (startChain C env bc, [])
    else if currentHeight > req.height then
      sendChainToPeer C env.stateHash bc req.height currentHeight
    else (bc, [])

/-! ## The client -/

def requestJson (startHeight endHeight : UInt64) : Json :=
  .obj [("start_height", uint64.encode startHeight), ("end_height", uint64.encode endHeight)]

def readAnswer (j : Json) : Except Block.ReadError (List Block × String) :=
  match j.fields with
  | none => .error .malformed
  | some fields =>
    match Json.get fields "blocks" with
    | some (.arr js) =>
      match js.mapM (Block.readJSON C (Block.rebuild C)), str.field fields "error" with
      | .error err, _ => .error err
      | .ok _, none => .error .malformed
      | .ok blocks, some err => .ok (blocks, err)
    | none | some .null =>
      match str.field fields "error" with
      | none => .error .malformed
      | some err => .ok ([], err)
    | some _ => .error .malformed

variable (clock : ℕ → ℤ)

/-- The blocks of an answer are added one after the other. -/
def addBlocks (n : Node) (blocks : List Block) : Node :=
  blocks.zipIdx.foldl (fun n b => n.addBlockWithoutValidation C b.1 (clock b.2)) n

/-- `syncWithPeer`, after the request has been sent. An answer with an error is as good as none. -/
def syncWithPeer (n : Node) : List Json → Node × SyncOutcome
  | [] => (n, .failed "failed to receive blocks")
  | j :: _ =>
    match readAnswer C j with
    | .error .malformed => (n, .failed "failed to receive blocks")
    | .error .nilHeader => (n, .panicked)
    | .ok (blocks, err) => (if err = "" then addBlocks C clock n blocks else n, .done)

/-- One exchange: the client and how it ends, and the server. -/
def exchange (env : Surroundings) (client : Node) (server : Blockchain) :
    (Node × SyncOutcome) × Blockchain :=
  let answer := handleSyncRequest C env server (requestJson client.blockchain.getHeight 0)
  (syncWithPeer C clock client answer.2, answer.1)

/-! ## What the server sends -/

lemma handleSyncRequest_of_lt {env : Surroundings} {server : Blockchain} {request : Json}
    {req : Request} (hreq : Request.codec.decode request = some req)
    (hlt : req.height < server.getHeight) : handleSyncRequest C env server request =
      sendChainToPeer C env.stateHash server req.height server.getHeight := by
  have hne : server.getHeight ≠ 0 := by
    intro h0
    rw [h0, UInt64.lt_iff_toNat_lt] at hlt
    exact Nat.not_lt_zero _ hlt
  simp only [handleSyncRequest, hreq, if_neg hne, if_pos hlt, gt_iff_lt]

/-! ## What the client makes of it -/

lemma decode_requestJson (startHeight endHeight : UInt64) :
    Request.codec.decode (requestJson startHeight endHeight) = some { height := 0 } := by
  refine (Record.decode_obj _ _ _ _ _).trans ?_
  refine Record.read_field rfl (uint64.field_absent ?_)
  simp only [List.map_cons, List.map_nil]
  decide

lemma foldCase_notMem_toFields (info : ChainInfo) : ∀ name ∈ ["blocks", "error"],
      Json.foldCase name ∉ info.toFields.map fun e => Json.foldCase e.1 := by
  simp only [ChainInfo.toFields, List.map_cons, List.map_nil]
  decide

/-- **The client takes a `ChainInfo` for an empty list of blocks.** -/
lemma readAnswer_chainInfo (info : ChainInfo) : readAnswer C info.toJson = .ok ([], "") := by
  have hblocks : Json.get info.toFields "blocks" = none :=
    Json.get_eq_none (foldCase_notMem_toFields info _ (by simp))
  have herror : str.field info.toFields "error" = some "" :=
    str.field_absent (foldCase_notMem_toFields info _ (by simp))
  simp only [readAnswer, ChainInfo.toJson, Json.fields, hblocks, herror]

/-- **No exchange changes a client**: it gets no answer, or one that starts with a `ChainInfo`. -/
theorem exchange_client (env : Surroundings) (client : Node) (server : Blockchain) :
    (exchange C clock env client server).1 =
      (client, if server.getHeight = 0 then .failed "failed to receive blocks" else .done) := by
  have hreq := decode_requestJson client.blockchain.getHeight 0
  split_ifs with hzero
  · simp only [exchange, handleSyncRequest, hreq, if_pos hzero, syncWithPeer]
  · have hlt : (0 : UInt64) < server.getHeight := UInt64.pos_iff_ne_zero.mpr hzero
    simp only [exchange, handleSyncRequest_of_lt C hreq hlt, sendChainToPeer, syncWithPeer,
      readAnswer_chainInfo, if_true]
    rfl

/-- **A client that is behind stays behind**: it reports success, and none of the server's blocks
after its own height is appended. -/
theorem exchange_transfers_nothing (env : Surroundings) (client : Node) (server : Blockchain)
    (h H : ℕ) (hserver : Numbered server.chain H) (hlt : h < H)
    (hclient : client.blockchain.chain = server.chain.take (h + 1)) :
    let result := (exchange C clock env client server).1
    result = (client, .done) ∧
      ¬ ∃ blocks, List.Forall₂ Block.Agrees blocks (server.chain.drop (h + 1)) ∧
        result.1.blockchain.chain = server.chain.take (h + 1) ++ blocks := by
  have hheight := hserver.getHeight_eq
  have hne : server.getHeight ≠ 0 := by
    intro h0
    rw [h0, UInt64.toNat_zero] at hheight
    omega
  rw [exchange_client, if_neg hne, ← hclient]
  refine ⟨rfl, ?_⟩
  rintro ⟨blocks, hblocks, hchain⟩
  have hnil : blocks = [] := List.self_eq_append_right.mp hchain
  have hlen := hblocks.length_eq
  rw [hnil, List.length_nil, List.length_drop, hserver.length_eq] at hlen
  omega

theorem exchange_transfers_nothing_eleven :
    (exchange Crypto.sample (fun _ => 0) {} { blockchain := { chain := emptyBlocks 1 } }
      { chain := emptyBlocks 12 }).1 = ({ blockchain := { chain := emptyBlocks 1 } }, .done) := by
  refine (exchange_transfers_nothing Crypto.sample (fun _ => 0) {}
    { blockchain := { chain := emptyBlocks 1 } } { chain := emptyBlocks 12 } 1 12
    (numbered_emptyBlocks (by decide)) (by decide) rfl).1

/-- A server with one more block sends it, in a batch of its own that the client does not read. -/
theorem exchange_loses_block :
    let client : Node := { blockchain := { chain := emptyBlocks 1 } }
    let server : Blockchain := { chain := emptyBlocks 2 }
    let result := exchange Crypto.sample (fun _ => 0) {} client server
    (handleSyncRequest Crypto.sample {} server (requestJson 1 0)).2.length = 2 ∧
      result.1.2 = .done ∧ result.1.1.blockchain.getHeight = 1 ∧ result.2.getHeight = 2 := by
  decide +kernel

end SyncService

end HybridChain
