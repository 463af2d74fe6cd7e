import HybridChain.Lib.Json
import HybridChain.Lib.Stride
import HybridChain.Utxo

/-!
# Streaming the set of outputs

`SyncService.SyncUTXOSet` of `sync/service.go` and `sync/converters.go`: a response is sent whenever
a buffer holds a chunk, and made from the first output of the buffer.

The store is the list of its entries in the order of the iterator. A value that is not JSON is left
out of its entry. Times in the state are texts.

## Main definitions

* `syncUTXOSet`, `readEntry`, and the converters

## Main results

* `received_syncUTXOSet`: what arrives
* `syncUTXOSet_complete_iff`: when it is everything
-/

namespace HybridChain

open List
open Codec (str uint64)

/-! ## The store -/

/-- `State`. -/
structure StoredState where
  height : UInt64 := 0
  lastBlockHash : String := ""
  lastBlockTime : String := ""
  totalTransactions : UInt64 := 0
  totalBlocks : UInt64 := 0
  totalSupply : UInt64 := 0
  utxoSetRoot : String := ""
  utxoCount : UInt64 := 0
  stateRoot : String := ""
  validatorRoot : String := ""
  difficulty : UInt64 := 0
  gasPrice : UInt64 := 0
  networkVersion : UInt32 := 0
  lastUpdate : String := ""

def StoredState.codec : Codec StoredState := Record.start StoredState.mk
    |>.field "height" uint64 StoredState.height
    |>.field "last_block_hash" str StoredState.lastBlockHash
    |>.field "last_block_time" str StoredState.lastBlockTime
    |>.field "total_transactions" uint64 StoredState.totalTransactions
    |>.field "total_blocks" uint64 StoredState.totalBlocks
    |>.field "total_supply" uint64 StoredState.totalSupply
    |>.field "utxo_set_root" str StoredState.utxoSetRoot
    |>.field "utxo_count" uint64 StoredState.utxoCount
    |>.field "state_root" str StoredState.stateRoot
    |>.field "validator_root" str StoredState.validatorRoot
    |>.field "difficulty" uint64 StoredState.difficulty
    |>.field "gas_price" uint64 StoredState.gasPrice
    |>.field "network_version" Codec.uint32 StoredState.networkVersion
    |>.field "last_update" str StoredState.lastUpdate
    |>.toCodec (fun _ => rfl) (by decide) {}

def UTXO.codec : Codec UTXO := Record.start UTXO.mk
    |>.field "txid" str UTXO.transactionID
    |>.field "vout" Codec.int UTXO.outputIndex
    |>.field "amount" Codec.rat UTXO.amount
    |>.field "owner" str UTXO.owner
    |>.field "spent" Codec.bool UTXO.spent
    |>.field "block_height" uint64 UTXO.blockHeight
    |>.field "timestamp" Codec.int UTXO.timestamp
    |>.field "script_pub_key" str UTXO.scriptPubKey
    |>.toCodec (fun _ => rfl) (by decide) {}

/-- The entries of the database in the order of its iterator. -/
structure SyncStore where
  entries : List (List UInt8 × Option Json) := []

def utxoPrefix : UInt8 := 3

def statePrefix : UInt8 := 4

def decodeEntry (entry : List UInt8 × Option Json) : Option UTXO :=
  if entry.1.head? = some utxoPrefix then entry.2.bind UTXO.codec.decode else none

/-! ## Messages -/

/-- The message `UTXO`. -/
structure ProtoUTXO where
  txId : String := ""
  amount : ℚ := 0
  owner : String := ""

structure UTXORequest where
  chunkSize : UInt32 := 0
  currentHash : String := ""

structure UTXOResponse where
  utxos : List ProtoUTXO := []
  chunkNumber : UInt32 := 0
  totalChunks : UInt32 := 0

def UTXO.convertUTXOToProto (utxo : UTXO) (chunkNumber totalChunks : UInt32) : UTXOResponse where
  utxos := [{ txId := utxo.transactionID, amount := utxo.amount, owner := utxo.owner }]
  chunkNumber := chunkNumber
  totalChunks := totalChunks

def UTXOResponse.convertProtoToUTXO (resp : UTXOResponse) : Option UTXO :=
  resp.utxos.head?.map fun proto =>
    { transactionID := proto.txId, amount := proto.amount, owner := proto.owner }

namespace SyncStore

def getState (store : SyncStore) : Except String StoredState :=
  match store.entries.find? fun entry => entry.1 = statePrefix :: Text.bytes "current" with
  | none => .error "blockchain state not found"
  | some entry =>
    match entry.2.bind StoredState.codec.decode with
    | none => .error "failed to unmarshal state"
    | some state => .ok state

/-- What the loop keeps: the number of the chunk, the buffer and the responses sent. -/
structure ChunkLoop where
  chunkNumber : UInt32 := 0
  utxoBuffer : List UTXO := []
  sent : List UTXOResponse := []

def readEntry (chunkSize : UInt32) (loop : ChunkLoop) (entry : List UInt8 × Option Json) :
    ChunkLoop :=
  match decodeEntry entry with
  | none => loop
  | some utxo =>
    let utxoBuffer := loop.utxoBuffer ++ [utxo]
    if UInt32.ofNat utxoBuffer.length ≥ chunkSize then
      { chunkNumber := loop.chunkNumber + 1
        utxoBuffer := []
        sent := loop.sent ++ (utxoBuffer.head?.map fun first =>
          first.convertUTXOToProto loop.chunkNumber 0).toList }
    else { loop with utxoBuffer := utxoBuffer }

/-- The responses, with the one for the rest of the buffer. -/
def ChunkLoop.finish (loop : ChunkLoop) : List UTXOResponse :=
  loop.sent ++ (loop.utxoBuffer.head?.map fun first =>
    first.convertUTXOToProto loop.chunkNumber (loop.chunkNumber + 1)).toList

def syncUTXOSet (store : SyncStore) (req : UTXORequest) : Except String (List UTXOResponse) :=
  match store.getState with
  | .error err => .error s!"failed to get state: {err}"
  | .ok state =>
    if req.currentHash = state.utxoSetRoot then .ok []
    else .ok (store.entries.foldl (readEntry req.chunkSize) {}).finish

/-! ## What arrives -/

def decodable (store : SyncStore) : List UTXO := store.entries.filterMap decodeEntry

def content (utxo : UTXO) : String × ℤ × String × ℚ :=
  (utxo.transactionID, utxo.outputIndex, utxo.owner, utxo.amount)

/-- What a receiver makes of the responses. -/
def received (responses : List UTXOResponse) : List UTXO :=
  responses.filterMap UTXOResponse.convertProtoToUTXO

def converted (utxo : UTXO) : UTXO :=
  { transactionID := utxo.transactionID, amount := utxo.amount, owner := utxo.owner }

lemma received_append (a b : List UTXOResponse) : received (a ++ b) = received a ++ received b :=
  filterMap_append

lemma received_toList (first : Option UTXO) (chunkNumber totalChunks : UInt32) :
    received (first.map fun utxo =>
      utxo.convertUTXOToProto chunkNumber totalChunks).toList = (first.map converted).toList := by
  cases first <;> rfl

variable {chunkSize : UInt32} {entry : List UInt8 × Option Json} {loop : ChunkLoop}

lemma ofNat_length_ge_iff {n : ℕ} (hn : n < chunkSize.toNat) :
    UInt32.ofNat (n + 1) ≥ chunkSize ↔ n + 1 = chunkSize.toNat := by
  have hlt := chunkSize.toNat_lt
  rw [ge_iff_le, UInt32.le_iff_toNat_le, UInt32.toNat_ofNat', Nat.mod_eq_of_lt (by omega)]
  omega

lemma readEntry_of_full
    {utxo first : UTXO} {rest : List UTXO} (hentry : decodeEntry entry = some utxo)
    (hfull : loop.utxoBuffer.length + 1 = chunkSize.toNat)
    (hbuffer : loop.utxoBuffer ++ [utxo] = first :: rest) :
    readEntry chunkSize loop entry =
      { chunkNumber := loop.chunkNumber + 1
        utxoBuffer := []
        sent := loop.sent ++ [first.convertUTXOToProto loop.chunkNumber 0] } := by
  have hge : UInt32.ofNat (loop.utxoBuffer ++ [utxo]).length ≥ chunkSize := by
    rw [length_append]
    exact (ofNat_length_ge_iff (by omega)).mpr hfull
  simp only [readEntry, hentry, hge, if_true]
  rw [hbuffer]
  rfl

lemma readEntry_of_room {utxo : UTXO} (hentry : decodeEntry entry = some utxo)
    (hroom : loop.utxoBuffer.length + 1 < chunkSize.toNat) :
    readEntry chunkSize loop entry = { loop with utxoBuffer := loop.utxoBuffer ++ [utxo] } := by
  have hge : ¬ UInt32.ofNat (loop.utxoBuffer ++ [utxo]).length ≥ chunkSize := by
    rw [length_append]
    exact mt (ofNat_length_ge_iff (by omega)).mp (Nat.ne_of_lt hroom)
  simp only [readEntry, hentry, hge, if_false]

/-- **The loop**: of the buffer and the outputs still to come, every first one of a chunk is
received. -/
lemma received_foldl_readEntry (entries : List (List UInt8 × Option Json)) :
    ∀ loop : ChunkLoop, loop.utxoBuffer.length < chunkSize.toNat →
      received (entries.foldl (readEntry chunkSize) loop).finish =
        received loop.sent ++ (Stride.every chunkSize.toNat
          (loop.utxoBuffer ++ entries.filterMap decodeEntry)).map converted := by
  induction entries with
  | nil =>
    intro loop hloop
    rw [foldl_nil, ChunkLoop.finish, received_append, received_toList, filterMap_nil, append_nil]
    cases hbuffer : loop.utxoBuffer with
    | nil => rfl
    | cons first rest =>
      rw [hbuffer, length_cons] at hloop
      rw [Stride.every_cons (by omega)]
      rfl
  | cons entry entries ih =>
    intro loop hloop
    rw [foldl_cons]
    cases hentry : decodeEntry entry with
    | none =>
      have hstep : readEntry chunkSize loop entry = loop := by simp only [readEntry, hentry]
      rw [hstep, ih loop hloop, filterMap_cons_none hentry]
    | some utxo =>
      have hsplit : loop.utxoBuffer ++ (entry :: entries).filterMap decodeEntry =
          (loop.utxoBuffer ++ [utxo]) ++ entries.filterMap decodeEntry := by
        rw [filterMap_cons_some hentry, append_assoc]
        rfl
      have hlength : (loop.utxoBuffer ++ [utxo]).length = loop.utxoBuffer.length + 1 :=
        length_append
      rw [hsplit]
      by_cases hfull : loop.utxoBuffer.length + 1 = chunkSize.toNat
      · obtain ⟨first, rest, hbuffer⟩ : ∃ first rest, loop.utxoBuffer ++ [utxo] = first :: rest :=
          exists_cons_of_length_pos (by omega)
        rw [hbuffer, length_cons] at hlength
        rw [readEntry_of_full hentry hfull hbuffer,
          ih _ (by simp only [length_nil]; omega), hbuffer, Stride.every_append (by omega),
          received_append, append_assoc]
        rfl
      · rw [readEntry_of_room hentry (by omega), ih _ (by simp only [hlength]; omega)]

/-- **Of each chunk the first output arrives**, without its index. -/
theorem received_syncUTXOSet {store : SyncStore} {req : UTXORequest} {state : StoredState}
    (hstate : store.getState = .ok state) (hroot : req.currentHash ≠ state.utxoSetRoot)
    (hchunk : 1 ≤ req.chunkSize) :
    ∃ responses, store.syncUTXOSet req = .ok responses ∧
      received responses = (Stride.every req.chunkSize.toNat store.decodable).map converted := by
  have hpos : 1 ≤ req.chunkSize.toNat := UInt32.le_iff_toNat_le.mp hchunk
  refine ⟨(store.entries.foldl (readEntry req.chunkSize) {}).finish, ?_, ?_⟩
  · rw [syncUTXOSet, hstate]
    exact if_neg hroot
  · exact received_foldl_readEntry store.entries {} hpos

/-- **When all outputs arrive**, each once: exactly if the chunks have one output or the store has
at most one, and no output has an index.

**Proof sketch.** As many outputs arrive as there are chunks, and every index arrives as zero. -/
theorem syncUTXOSet_complete_iff (store : SyncStore) (req : UTXORequest) (state : StoredState)
    (hstate : store.getState = .ok state) (hroot : req.currentHash ≠ state.utxoSetRoot)
    (hchunk : 1 ≤ req.chunkSize) :
    (∃ responses, store.syncUTXOSet req = .ok responses ∧
      ((received responses).map content).Perm (store.decodable.map content)) ↔
      (req.chunkSize = 1 ∨ store.decodable.length ≤ 1) ∧
        ∀ utxo ∈ store.decodable, utxo.outputIndex = 0 := by
  have hpos : 0 < req.chunkSize.toNat := UInt32.le_iff_toNat_le.mp hchunk
  have hone : req.chunkSize.toNat = 1 ↔ req.chunkSize = 1 := by
    rw [← UInt32.toNat_inj, UInt32.toNat_one]
  obtain ⟨responses, hresponses, hreceived⟩ := received_syncUTXOSet hstate hroot hchunk
  have hunique : (∃ responses', store.syncUTXOSet req = .ok responses' ∧
      ((received responses').map content).Perm (store.decodable.map content)) ↔
      ((received responses).map content).Perm (store.decodable.map content) := by
    rw [hresponses]
    constructor
    · rintro ⟨responses', heq, hperm⟩
      rwa [Except.ok.inj heq]
    · exact fun hperm => ⟨responses, rfl, hperm⟩
  rw [hunique, hreceived, ← hone, ← Stride.every_eq_self_iff hpos]
  constructor
  · intro hperm
    have hevery : Stride.every req.chunkSize.toNat store.decodable = store.decodable := by
      rw [Stride.every_eq_self_iff hpos, ← Stride.length_every_eq_iff hpos]
      simpa using hperm.length_eq
    refine ⟨hevery, fun utxo hutxo => ?_⟩
    have hmem := hperm.mem_iff.mpr (mem_map_of_mem (f := content) hutxo)
    rw [map_map] at hmem
    obtain ⟨source, -, hsame⟩ := mem_map.mp hmem
    exact (congrArg (fun c : String × ℤ × String × ℚ => c.2.1) hsame).symm
  · rintro ⟨hevery, hindex⟩
    rw [hevery, map_map]
    have hsame : store.decodable.map (content ∘ converted) = store.decodable.map content := by
      refine map_congr_left fun utxo hutxo => ?_
      rw [Function.comp_apply, content, content, hindex utxo hutxo]
      rfl
    rw [hsame]

def ofOutputs (utxos : List UTXO) : SyncStore where
  entries := utxos.map (fun utxo =>
      (utxoPrefix :: Text.bytes utxo.transactionID ++ [UInt8.ofNat utxo.outputIndex.toNat],
        some (UTXO.codec.encode utxo))) ++
    [(statePrefix :: Text.bytes "current", some (StoredState.codec.encode { utxoSetRoot := "r" }))]

theorem syncUTXOSet_complete_two :
    let store := ofOutputs [{ transactionID := "p", amount := 1, owner := "alice" },
      { transactionID := "q", amount := 2, owner := "bob" }]
    ∃ responses, store.syncUTXOSet { chunkSize := 1 } = .ok responses ∧
      ((received responses).map content).Perm (store.decodable.map content) :=
  (syncUTXOSet_complete_iff _ { chunkSize := 1 } { utxoSetRoot := "r" } rfl (by decide)
    (by decide)).mpr ⟨Or.inl rfl, by decide +kernel⟩

/-- **Outputs get lost**: of two outputs of a transaction, in a chunk of two, the second one does
not arrive; in chunks of one, both arrive as the first output. -/
theorem syncUTXOSet_loses_outputs :
    let store := ofOutputs [{ transactionID := "p", amount := 1, owner := "alice" },
      { transactionID := "p", outputIndex := 1, amount := 2, owner := "bob" }]
    let arrived := fun chunkSize => (store.syncUTXOSet { chunkSize := chunkSize }).toOption.map
      fun responses => (received responses).map content
    store.decodable.map content = [("p", 0, "alice", 1), ("p", 1, "bob", 2)] ∧
      arrived 2 = some [("p", 0, "alice", 1)] ∧
      arrived 1 = some [("p", 0, "alice", 1), ("p", 0, "bob", 2)] := by
  decide +kernel

end SyncStore

end HybridChain
