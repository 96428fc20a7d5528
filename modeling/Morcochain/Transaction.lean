import Morcochain.Script

/-!
# Transactions and blocks

The data of transactions, block headers and blocks (`main.h`), the tests that classify a transaction by its shape, and
serialized sizes. The cryptographic primitives that the node calls are the fields of `Crypto`.
-/

set_option autoImplicit false

namespace Morcochain

/-- `std::numeric_limits<unsigned int>::max()`. -/
def uintMax : Nat := 4294967295

/-- `COutPoint`. -/
structure COutPoint where
  hash : Uint256 := 0
  n : Nat := uintMax
deriving DecidableEq, Repr

/-- `COutPoint::IsNull`. -/
def COutPoint.isNull (p : COutPoint) : Bool := p.hash = 0 ∧ p.n = uintMax

/-- `CTxIn`. -/
structure CTxIn where
  prevout : COutPoint := {}
  scriptSig : CScript := []
  nSequence : Nat := uintMax
deriving DecidableEq, Repr

/-- `CTxIn::IsFinal`. -/
def CTxIn.isFinal (txin : CTxIn) : Bool := txin.nSequence = uintMax

/-- Filling in a script leaves the outpoints that are spent. -/
theorem prevouts_modify (vin : List CTxIn) (nIn : Nat) (scriptSig : CScript) :
    (vin.modify nIn fun txin => { txin with scriptSig := scriptSig }).map (·.prevout) = vin.map (·.prevout) := by
  refine List.ext_getElem? fun j => ?_
  rw [List.getElem?_map, List.getElem?_map, List.getElem?_modify]
  cases vin[j]? with
  | none => rfl
  | some txin => by_cases hj : nIn = j <;> simp [hj]

/-- `CTxOut`. -/
structure CTxOut where
  nValue : Int := -1
  scriptPubKey : CScript := []
deriving DecidableEq, Repr

namespace CTxOut

/-- `CTxOut::SetNull`. -/
def null : CTxOut := { nValue := -1, scriptPubKey := [] }

/-- `CTxOut::SetEmpty`. -/
def empty : CTxOut := { nValue := 0, scriptPubKey := [] }

/-- `CTxOut::IsNull`. -/
def isNull (txout : CTxOut) : Bool := txout.nValue = -1

/-- `CTxOut::IsEmpty`. -/
def isEmpty (txout : CTxOut) : Bool := txout.nValue = 0 ∧ txout.scriptPubKey = []

/-- `CTxOut::IsVote`. -/
def isVote (txout : CTxOut) : Bool := txout.nValue = 0 ∧ isVoteScript txout.scriptPubKey

/-- `CTxOut::IsParkRateResult`. -/
def isParkRateResult (txout : CTxOut) : Bool := txout.nValue = 0 ∧ isParkRateResultScript txout.scriptPubKey

end CTxOut

/-- `CTransaction`. -/
structure CTransaction where
  nVersion : Int := 1
  nTime : Nat := 0
  vin : List CTxIn := []
  vout : List CTxOut := []
  nLockTime : Nat := 0
  cUnit : CUnit := unitUnknown
deriving DecidableEq, Repr

/-- `CBlockHeader`. -/
structure CBlockHeader where
  nVersion : Int := 2
  hashPrevBlock : Uint256 := 0
  hashMerkleRoot : Uint256 := 0
  nTime : Nat := 0
  nBits : Nat := 0
  nNonce : Nat := 0
deriving DecidableEq, Repr

/-- `CBlock`. -/
structure CBlock extends CBlockHeader where
  vtx : List CTransaction := []
  vchBlockSig : Bytes := []
deriving DecidableEq, Repr

/-- The cryptographic primitives that the node calls. -/
structure Crypto where
  /-- `SerializeHash` of a transaction. -/
  hashTx : CTransaction → Uint256
  /-- `CBlockHeader::GetHash`. -/
  hashHeader : CBlockHeader → Uint256
  /-- `Hash`. -/
  hash : Bytes → Uint256
  /-- `Hash` of two hashes. -/
  hashPair : Uint256 → Uint256 → Uint256
  /-- `Hash160`. -/
  hash160 : Bytes → Uint160
  sha256 : Bytes → Bytes
  sha1 : Bytes → Bytes
  ripemd160 : Bytes → Bytes
  /-- The hash of a transaction and a hash type, at the end of `SignatureHash`. -/
  hashSignature : CTransaction → Nat → Uint256
  /-- `CKey::SetPubKey` accepts the bytes. -/
  setPubKey : Bytes → Bool
  /-- `CKey::Verify` of the key with these bytes. -/
  verify : Bytes → Uint256 → Bytes → Bool

/-- Primitives for concrete runs: a transaction is hashed to its lock time, a header to its nonce, bytes to the first
of them, and a signature verifies when it is the public key. -/
def Crypto.sample : Crypto where
  hashTx tx := tx.nLockTime
  hashHeader header := header.nNonce
  hash b := (b.headD 0).toNat
  hashPair a b := a + 2 * b
  hash160 b := Uint160.ofBytes b
  sha256 b := b
  sha1 b := b
  ripemd160 b := b
  hashSignature tx _ := tx.nLockTime
  setPubKey _ := true
  verify pubKey _ sig := sig = pubKey

namespace CTransaction

/-- The outpoint that `vin[0]` names. -/
def prevout0 (tx : CTransaction) : Option COutPoint := tx.vin.head?.map (·.prevout)

/-- `CTransaction::IsCoinBase`. -/
def isCoinBase (tx : CTransaction) : Bool :=
  tx.cUnit = unitShare ∧ tx.vin.length = 1 ∧ tx.prevout0.any (·.isNull) ∧ 1 ≤ tx.vout.length

/-- `CTransaction::IsCoinStake`. -/
def isCoinStake (tx : CTransaction) : Bool :=
  tx.cUnit = unitShare ∧ tx.vin.length > 0 ∧ tx.prevout0.any (! ·.isNull) ∧ 2 ≤ tx.vout.length ∧
    tx.vout.head?.any (·.isEmpty)

/-- `CTransaction::IsCustodianGrant`. -/
def isCustodianGrant (tx : CTransaction) : Bool :=
  if tx.cUnit = unitShare then
    tx.vin.length = 1 ∧ tx.prevout0.any (fun p => p.hash = 0 ∧ p.n = uintMax - 1) ∧ 1 ≤ tx.vout.length
  else
    isValidCurrency tx.cUnit ∧ tx.vin.length = 1 ∧ tx.prevout0.any (·.isNull) ∧ 1 ≤ tx.vout.length

/-- `CTransaction::IsUnpark`. -/
def isUnpark (tx : CTransaction) : Bool :=
  tx.vin.length = 1 ∧ tx.prevout0.any (! ·.isNull) ∧ tx.vin.head?.any (fun i => isUnparkScript i.scriptSig) ∧
    tx.vout.length = 1

/-- `CTransaction::GetMinTxOutAmount`. -/
def getMinTxOutAmount (tx : CTransaction) : Int := minTxOutAmount tx.cUnit

/-- The loop of `CTransaction::GetValueOut`, with the sum so far. -/
def sumOut : Int → List CTxOut → Check Int
  | nValueOut, [] => .ok nValueOut
  | nValueOut, txout :: vout =>
    if !moneyRange txout.nValue || !moneyRange (nValueOut + txout.nValue) then
      .error (.exception "CTransaction::GetValueOut() : value out of range")
    else sumOut (nValueOut + txout.nValue) vout

/-- `CTransaction::GetValueOut`. -/
def getValueOut (tx : CTransaction) : Check Int := sumOut 0 tx.vout

/-- The sum of the outputs throws where it is out of range. -/
theorem not_silent_sumOut : ∀ {vout : List CTxOut} {n : Int}, ¬ Silent (sumOut n vout)
  | [], n => by simp [sumOut]
  | txout :: vout, n => by
    rw [sumOut]
    split
    · simp [Failure.isSilent]
    · exact not_silent_sumOut

theorem not_silent_getValueOut (tx : CTransaction) : ¬ Silent tx.getValueOut := not_silent_sumOut

/-- `CTransaction::IsFinal`, given the height and the time to compare with. -/
def isFinal (tx : CTransaction) (nBlockHeight nBlockTime : Int) : Bool :=
  tx.nLockTime = 0 ||
    decide ((tx.nLockTime : Int) < if (tx.nLockTime : Int) < locktimeThreshold then nBlockHeight else nBlockTime) ||
    tx.vin.all (·.isFinal)

/-- `CTransaction::GetLegacySigOpCount`. -/
def getLegacySigOpCount (tx : CTransaction) : Nat :=
  (tx.vin.map (fun txin => getSigOpCount txin.scriptSig false)).sum +
    (tx.vout.map (fun txout => getSigOpCount txout.scriptPubKey false)).sum

end CTransaction

/-! ## Serialized sizes -/

/-- `GetSizeOfCompactSize`. -/
def getSizeOfCompactSize (nSize : Nat) : Nat :=
  if nSize < 253 then 1 else if nSize ≤ 0xffff then 3 else if nSize ≤ 0xffffffff then 5 else 9

/-- The serialized size of a byte vector. -/
def bytesSize (b : Bytes) : Nat := getSizeOfCompactSize b.length + b.length

/-- The serialized size of an input: the outpoint, the script and the sequence number. -/
def CTxIn.serializeSize (txin : CTxIn) : Nat := 36 + bytesSize txin.scriptSig + 4

/-- The serialized size of an output: the value and the script. -/
def CTxOut.serializeSize (txout : CTxOut) : Nat := 8 + bytesSize txout.scriptPubKey

/-- `GetSerializeSize` of a transaction: version, time, inputs, outputs, lock time and unit. -/
def CTransaction.serializeSize (tx : CTransaction) : Nat :=
  4 + 4 + (getSizeOfCompactSize tx.vin.length + (tx.vin.map (·.serializeSize)).sum) +
    (getSizeOfCompactSize tx.vout.length + (tx.vout.map (·.serializeSize)).sum) + 4 + 1

/-- `GetSerializeSize` of a block: the header, the transactions and the block signature. -/
def CBlock.serializeSize (block : CBlock) : Nat :=
  80 + (getSizeOfCompactSize block.vtx.length + (block.vtx.map (·.serializeSize)).sum) + bytesSize block.vchBlockSig

namespace CBlock

/-- `CBlock::IsProofOfStake`. -/
def isProofOfStake (block : CBlock) : Bool := block.vtx[1]?.any (·.isCoinStake)

/-- `CBlock::IsProofOfWork`. -/
def isProofOfWork (block : CBlock) : Bool := !block.isProofOfStake

/-- The outpoint that the coinstake of a proof-of-stake block spends first, null for another block. -/
def prevoutStake (block : CBlock) : COutPoint :=
  if block.isProofOfStake then (block.vtx[1]?.bind (·.prevout0)).getD {} else {}

/-- The time of the coinstake of a proof-of-stake block, zero for another block. -/
def nStakeTime (block : CBlock) : Nat :=
  if block.isProofOfStake then (block.vtx[1]?.map (·.nTime)).getD 0 else 0

/-- `CBlock::GetProofOfStake`. -/
def getProofOfStake (block : CBlock) : COutPoint × Nat := (block.prevoutStake, block.nStakeTime)

/-- `CBlock::GetMaxTransactionTime`. -/
def getMaxTransactionTime (block : CBlock) : Nat := block.vtx.foldl (fun m tx => max m tx.nTime) 0

/-- `CBlock::GetBlockTime`. -/
def getBlockTime (block : CBlock) : Int := block.nTime

/-- `CBlock::GetHash`. -/
def getHash (block : CBlock) (cr : Crypto) : Uint256 := cr.hashHeader block.toCBlockHeader

end CBlock

/-- `CTransaction::GetHash`. -/
def CTransaction.getHash (tx : CTransaction) (cr : Crypto) : Uint256 := cr.hashTx tx

/-- One level of the Merkle tree: neighbours are hashed together, a last node without neighbour with itself. -/
def merkleLevel (cr : Crypto) : List Uint256 → List Uint256
  | [] => []
  | [a] => [cr.hashPair a a]
  | a :: b :: l => cr.hashPair a b :: merkleLevel cr l

theorem length_merkleLevel (cr : Crypto) : ∀ l : List Uint256, (merkleLevel cr l).length = (l.length + 1) / 2
  | [] => rfl
  | [_] => by simp [merkleLevel]
  | _ :: _ :: l => by
    rw [merkleLevel, List.length_cons, length_merkleLevel cr l]
    simp only [List.length_cons]
    omega

/-- The root over one level of the Merkle tree. -/
def merkleRoot (cr : Crypto) (l : List Uint256) : Uint256 :=
  match l with
  | [] => 0
  | [a] => a
  | a :: b :: l' => merkleRoot cr (merkleLevel cr (a :: b :: l'))
termination_by l.length
decreasing_by
  rw [length_merkleLevel]
  simp only [List.length_cons]
  omega

/-- The value of `CBlock::BuildMerkleTree`. -/
def CBlock.buildMerkleTree (block : CBlock) (cr : Crypto) : Uint256 := merkleRoot cr (block.vtx.map (·.getHash cr))

end Morcochain
