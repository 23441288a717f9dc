import BitcoinCore.ArithUint256
import BitcoinCore.Primitives.Transaction

/-!
# Blocks, their headers and their work

A header claims a target in compact form; the work it stands for is the expected
number of hashes that reach the target. A block is a header with transactions.
-/

namespace BitcoinCore

open ArithUint256

structure CBlockHeader where
  nVersion : BitVec 32
  hashPrevBlock : Uint256
  hashMerkleRoot : Uint256
  nTime : BitVec 32
  nBits : BitVec 32
  nNonce : BitVec 32
  deriving DecidableEq

namespace CBlockHeader

def null : CBlockHeader :=
  { nVersion := 0, hashPrevBlock := 0, hashMerkleRoot := 0, nTime := 0, nBits := 0, nNonce := 0 }

def isNull (hdr : CBlockHeader) : Bool := hdr.nBits = 0

end CBlockHeader

/-- The work of a compact target. The quotient `2 ^ 256 / (target + 1)` is computed
without leaving 256 bits. -/
def getBitsProof (bits : BitVec 32) : ℕ :=
  let bnTarget := setCompact bits
  if compactNegative bits || compactOverflow bits || bnTarget == 0 then 0
  else (2 ^ 256 - 1 - bnTarget) / (bnTarget + 1) + 1

def getBlockProof (hdr : CBlockHeader) : ℕ := getBitsProof hdr.nBits

/-- A block, and which of its expensive checks have been made. -/
structure CBlock extends CBlockHeader where
  vtx : List CTransaction := []
  mCheckedWitnessCommitment : Bool := false
  mCheckedMerkleRoot : Bool := false
  deriving DecidableEq

end BitcoinCore
