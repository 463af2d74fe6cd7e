import HybridChain.Node

/-!
# State verification between peers

`handleStateVerification` answers whether a state hash is that of the node, `CalculateStateHash`,
which covers the outputs in the order in which Go enumerates the map. Every five minutes a node
sends its hash under `/state/sync/1.0.0`, whose handler reads the whole message before it calls
`handleStateVerification`; under `/state/verify/1.0.0` the hash is read as it is.

A stream is the list of the JSON values on it.

## Main definitions

* `calculateStateHash`, `handleStateVerification`, `handleStateSync`, `broadcastStateVerification`

## Main results

* `stateVerification_iff`: what peers learn from it
-/

namespace HybridChain

open Text (bytes)
open Crypto (sample)

/-- The text `%s-%d-%f` of an output. -/
def UTXO.stateText (utxo : UTXO) : String :=
  utxo.transactionID ++ "-" ++ toString utxo.outputIndex ++ "-" ++ Text.fixed 6 utxo.amount

namespace Blockchain

variable (C : Crypto) (bc : Blockchain)

/-- What `CalculateStateHash` hashes, with the outputs as they are enumerated. An empty block
stands for a latest block that is missing. -/
def stateText (utxos : List UTXO) : String :=
  utxos.foldl (fun state utxo => state ++ utxo.stateText) ((bc.getLatestBlock C).getD {}).hash

def calculateStateHash (utxos : List UTXO) : String := C.hashHex (bytes (bc.stateText C utxos))

/-- The answer of a peer: whether the hashes are equal, and its own. -/
def verificationAnswer (isMatch : Bool) (localHash : String) : Json :=
  .obj [("Match", .bool isMatch), ("Hash", .str localHash)]

/-- `handleStateVerification`, the handler of `/state/verify/1.0.0`: what is written to a stream
with these values. At the end of the stream, or for a value that is not a string, this is
nothing. -/
def handleStateVerification (utxos : List UTXO) : List Json → List Json
  | [] => []
  | j :: _ =>
    match Codec.str.decode j with
    | none => []
    | some stateHash =>
      let localHash := bc.calculateStateHash C utxos
      [verificationAnswer (localHash == stateHash) localHash]

/-- The handler of `/state/sync/1.0.0`, with the outputs of the pool as they are encoded. -/
def handleStateSync (poolJson : Json) (utxos : List UTXO) : List Json → List Json
  | [] => []
  | j :: stream =>
    match j.fields.bind fun fields => Codec.str.field fields "type" with
    | none => []
    | some msgType =>
      if msgType = "UTXO_SYNC_REQUEST" then [poolJson]
      else if msgType = "STATE_VERIFICATION" then bc.handleStateVerification C utxos stream
      else []

/-- What `broadcastStateVerification` writes to the stream of a peer. -/
def broadcastStateVerification (utxos : List UTXO) : List Json :=
  [.obj [("type", .str "STATE_VERIFICATION"), ("payload", .str (bc.calculateStateHash C utxos))]]

lemma bytes_foldl_stateText (state : String) (utxos : List UTXO) :
    bytes (utxos.foldl (fun state utxo => state ++ utxo.stateText) state) =
      bytes state ++ utxos.flatMap fun utxo => bytes utxo.stateText := by
  induction utxos generalizing state with
  | nil => simp
  | cons utxo utxos ih => simp [ih]

/-- **The broadcast is not answered**: the message has been read when the hash is looked for. -/
lemma handleStateSync_broadcast (poolJson : Json) (sent own : List UTXO) :
    bc.handleStateSync C poolJson own (bc.broadcastStateVerification C sent) = [] := by
  have htype : Codec.str.field [("type", .str "STATE_VERIFICATION"),
      ("payload", .str (bc.calculateStateHash C sent))] "type" = some "STATE_VERIFICATION" :=
    Codec.str.field_of_mem (by simp only [List.map_cons, List.map_nil]; decide) "type"
      "STATE_VERIFICATION" (.head _)
  simp only [handleStateSync, broadcastStateVerification, Json.fields, Option.bind_some, htype,
    handleStateVerification]
  rfl

/-- **What peers learn from state verification.** A peer that sends the bare hash is told that it
matches, for all orders of the same outputs, exactly if the texts of any two of them commute; and
the broadcast is not answered. -/
theorem stateVerification_iff {utxos : List UTXO} (hinj : Set.InjOn C.sha256
      {data | data ∈ utxos.permutations'.map fun l => bytes (bc.stateText C l)}) :
    ((∀ sent own : List UTXO, sent.Perm utxos → own.Perm utxos →
        bc.handleStateVerification C own [.str (bc.calculateStateHash C sent)] =
          [verificationAnswer true (bc.calculateStateHash C own)]) ↔
      utxos.Pairwise fun a b => a.stateText ++ b.stateText = b.stateText ++ a.stateText) ∧
    ∀ (poolJson : Json) (sent own : List UTXO),
      bc.handleStateSync C poolJson own (bc.broadcastStateVerification C sent) = [] := by
  have htexts : (utxos.Pairwise fun a b => bytes a.stateText ++ bytes b.stateText =
      bytes b.stateText ++ bytes a.stateText) ↔
      utxos.Pairwise fun a b => a.stateText ++ b.stateText = b.stateText ++ a.stateText := by
    simp only [← Text.bytes_append]
    exact ⟨List.Pairwise.imp Text.bytes_inj, List.Pairwise.imp (congrArg bytes)⟩
  refine ⟨?_, bc.handleStateSync_broadcast C⟩
  rw [← htexts, ← Text.flatMap_perm_iff]
  refine forall₂_congr fun sent own => forall₂_congr fun hsent hown => ?_
  have hanswer : bc.handleStateVerification C own [.str (bc.calculateStateHash C sent)] =
      [verificationAnswer true (bc.calculateStateHash C own)] ↔
        bc.calculateStateHash C own = bc.calculateStateHash C sent := by
    simp [handleStateVerification, verificationAnswer, Codec.str]
  have hmem : ∀ {l : List UTXO}, l.Perm utxos → bytes (bc.stateText C l) ∈
      utxos.permutations'.map fun l => bytes (bc.stateText C l) :=
    fun hl => List.mem_map_of_mem (List.mem_permutations'.mpr hl)
  rw [hanswer, calculateStateHash, calculateStateHash, C.hashHex_eq_iff,
    hinj.eq_iff (hmem hown) (hmem hsent), stateText, stateText, bytes_foldl_stateText,
    bytes_foldl_stateText, List.append_cancel_left_eq, eq_comm]

def twoOutputs : List UTXO :=
  [{ transactionID := "t", amount := 1 }, { transactionID := "t", outputIndex := 1, amount := 1 }]

theorem stateVerification_two_outputs :
    ¬ ∀ sent own : List UTXO, sent.Perm twoOutputs → own.Perm twoOutputs →
      handleStateVerification sample {} own
          [.str (calculateStateHash sample {} sent)] =
        [verificationAnswer true (calculateStateHash sample {} own)] := by
  have hinj : ∀ a ∈ twoOutputs.permutations'.map fun l =>
        bytes (stateText sample {} l),
      ∀ b ∈ twoOutputs.permutations'.map fun l => bytes (stateText sample {} l),
        sample.sha256 a = sample.sha256 b → a = b := by
    decide +kernel
  rw [(stateVerification_iff sample {} fun a ha b hb => hinj a ha b hb).1]
  decide +kernel

end Blockchain

end HybridChain
