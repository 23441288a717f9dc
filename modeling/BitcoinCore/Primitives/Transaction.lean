import BitcoinCore.Serialize

/-!
# Transactions

The fields of transactions as the source has them, and their bytes with and
without witnesses. Hashes of transactions are functions given from outside.
-/

namespace BitcoinCore

open ByteStream Serialize

abbrev CScript := List Byte

def maxScriptSize : ℕ := 10000

def opReturn : Byte := 0x6a

namespace CScript

def isUnspendable (script : CScript) : Bool :=
  script.head? = some opReturn || maxScriptSize < script.length

end CScript

structure COutPoint where
  hash : Uint256
  n : BitVec 32
  deriving DecidableEq

namespace COutPoint

def isNull (point : COutPoint) : Bool := point.hash = 0 && point.n = 0xffffffff

def serialize (point : COutPoint) : List Byte :=
  writeUint256 point.hash ++ writeLE 4 point.n.toNat

end COutPoint

def serializeBytes (bytes : List Byte) : List Byte := writeVector (fun byte => [byte]) bytes

structure CTxIn where
  prevout : COutPoint
  scriptSig : CScript
  nSequence : BitVec 32
  scriptWitness : List (List Byte)
  deriving DecidableEq

def CTxIn.serialize (input : CTxIn) : List Byte :=
  input.prevout.serialize ++ serializeBytes input.scriptSig ++ writeLE 4 input.nSequence.toNat

structure CTxOut where
  nValue : ℤ
  scriptPubKey : CScript
  deriving DecidableEq

namespace CTxOut

def null : CTxOut := { nValue := -1, scriptPubKey := [] }

def isNull (out : CTxOut) : Bool := out.nValue = -1

def serialize (out : CTxOut) : List Byte :=
  writeLE 8 (out.nValue % 2 ^ 64).toNat ++ serializeBytes out.scriptPubKey

end CTxOut

structure CTransaction where
  version : BitVec 32
  vin : List CTxIn
  vout : List CTxOut
  nLockTime : BitVec 32
  deriving DecidableEq

namespace CTransaction

variable (tx : CTransaction)

def isNull : Bool := tx.vin.isEmpty && tx.vout.isEmpty

def isCoinBase : Bool :=
  match tx.vin with
  | [input] => input.prevout.isNull
  | _ => false

def hasWitness : Bool := tx.vin.any fun input => !input.scriptWitness.isEmpty

/-- The extended format stands behind an empty vector of inputs and a flag. -/
def serialize (allowWitness : Bool) (tx : CTransaction) : List Byte :=
  let extended := allowWitness && tx.hasWitness
  writeLE 4 tx.version.toNat ++
    (if extended then writeVector CTxIn.serialize [] ++ writeLE 1 1 else []) ++
    writeVector CTxIn.serialize tx.vin ++ writeVector CTxOut.serialize tx.vout ++
    (if extended then tx.vin.flatMap fun input => writeVector serializeBytes input.scriptWitness
      else []) ++
    writeLE 4 tx.nLockTime.toNat

end CTransaction

end BitcoinCore
