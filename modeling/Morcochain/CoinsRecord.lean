import Morcochain.Coins
import Morcochain.VarInt

/-!
# Records of coins

How the coins of a transaction are written into a record of the coin database and read from one: `CCoins::Serialize` and
`CCoins::Unserialize`, with `CTxOutCompressor` and `CScriptCompressor` (`main.h`, `main.cpp`, `script.h`, `script.cpp`).
The key library is a parameter: `cr.setPubKey` says which bytes are a public key, and `uncompressed` gives the long form
of one.

* `CCoins.Recorded` : the coins that a record gives back.
-/

set_option autoImplicit false

namespace Morcochain

/-! ## Amounts -/

/-- The result of an operation on `uint64` values. -/
def toUInt64 (x : Int) : Nat := (x % 2 ^ 64).toNat

/-- The loop of `CompressAmount`, which takes at most `k` zeros off: what is left, and the number of zeros taken off. -/
def stripZeros : Nat → Nat → Nat × Nat
  | 0, n => (n, 0)
  | k + 1, n => if n % 10 = 0 then ((stripZeros k (n / 10)).1, (stripZeros k (n / 10)).2 + 1) else (n, 0)

/-- `CTxOutCompressor::CompressAmount`. -/
def compressAmount (n : Nat) : Nat :=
  if n = 0 then 0
  else
    let (m, e) := stripZeros 9 n
    if e < 9 then toUInt64 (1 + (m / 10 * 9 + m % 10 - 1) * 10 + e) else toUInt64 (1 + ((m : Int) - 1) * 10 + 9)

/-- `CTxOutCompressor::DecompressAmount`. -/
def decompressAmount (x : Nat) : Nat :=
  if x = 0 then 0
  else
    let e := (x - 1) % 10
    let x := (x - 1) / 10
    let n := if e < 9 then x / 9 * 10 + (x % 9 + 1) else x + 1
    toUInt64 (n * 10 ^ e)

/-! ## Scripts -/

/-- `CScriptCompressor::nSpecialScripts`. -/
def nSpecialScripts : Nat := 6

/-- `CScriptCompressor::IsToKeyID`. -/
def isToKeyID (script : CScript) : Option Bytes :=
  if script.length = 25 ∧ script[0]? = some opDup ∧ script[1]? = some opHash160 ∧ script[2]? = some 20 ∧
      script[23]? = some opEqualverify ∧ script[24]? = some opChecksig then
    some ((script.drop 3).take 20)
  else none

/-- `CScriptCompressor::IsToScriptID`. -/
def isToScriptID (script : CScript) : Option Bytes :=
  if script.length = 23 ∧ script[0]? = some opHash160 ∧ script[1]? = some 20 ∧ script[22]? = some opEqual then
    some ((script.drop 2).take 20)
  else none

section Keys

variable (cr : Crypto) (uncompressed : Bytes → Bytes)

/-- `CScriptCompressor::IsToPubKey`. -/
def isToPubKey (script : CScript) : Option Bytes :=
  if script.length = 35 ∧ script[0]? = some 33 ∧ script[34]? = some opChecksig ∧
      (script[1]? = some 0x02 ∨ script[1]? = some 0x03) then
    some ((script.drop 1).take 33)
  else if script.length = 67 ∧ script[0]? = some 65 ∧ script[66]? = some opChecksig ∧ script[1]? = some 0x04 ∧
      cr.setPubKey ((script.drop 1).take 65) then
    some ((script.drop 1).take 65)
  else none

/-- The compressed form of a public key: its first coordinate after the byte that tells the second one. -/
def compressKey (pubkey : Bytes) : Option Bytes :=
  if pubkey[0]? = some 0x02 ∨ pubkey[0]? = some 0x03 then some (pubkey.take 33)
  else if pubkey[0]? = some 0x04 then some ((0x04 ||| (pubkey.getD 64 0 &&& 0x01)) :: (pubkey.drop 1).take 32)
  else none

/-- `CScriptCompressor::Compress`. -/
def compressScript (script : CScript) : Option Bytes :=
  match isToKeyID script with
  | some keyID => some (0x00 :: keyID)
  | none =>
    match isToScriptID script with
    | some scriptID => some (0x01 :: scriptID)
    | none => (isToPubKey cr script).bind compressKey

/-- `CScriptCompressor::GetSpecialSize`. -/
def getSpecialSize (nSize : Nat) : Nat :=
  if nSize = 0 ∨ nSize = 1 then 20
  else if nSize = 2 ∨ nSize = 3 ∨ nSize = 4 ∨ nSize = 5 then 32
  else 0

/-- `CScriptCompressor::Decompress`; the script stays empty where it fails. -/
def decompressScript (nSize : Nat) (vch : Bytes) : CScript :=
  if nSize = 0 then opDup :: opHash160 :: 20 :: vch ++ [opEqualverify, opChecksig]
  else if nSize = 1 then opHash160 :: 20 :: vch ++ [opEqual]
  else if nSize = 2 ∨ nSize = 3 then 33 :: UInt8.ofNat nSize :: vch ++ [opChecksig]
  else if nSize = 4 ∨ nSize = 5 then
    if cr.setPubKey (UInt8.ofNat (nSize - 2) :: vch) then
      65 :: uncompressed (UInt8.ofNat (nSize - 2) :: vch) ++ [opChecksig]
    else []
  else []

/-- `CScriptCompressor::Serialize`. -/
def serializeScript (script : CScript) : Bytes :=
  match compressScript cr script with
  | some compr => compr
  | none => writeVarInt (script.length + nSpecialScripts) ++ script

/-- `CScriptCompressor::Unserialize`. -/
def unserializeScript : Reader CScript := do
  let nSize ← readVarInt 32
  if nSize < nSpecialScripts then return decompressScript cr uncompressed nSize (← readBytes (getSpecialSize nSize))
  else readBytes (nSize - nSpecialScripts)

/-! ## Outputs -/

/-- The serialization of a `CTxOutCompressor`. -/
def serializeTxOut (txout : CTxOut) : Bytes :=
  writeVarInt (compressAmount (toUInt64 txout.nValue)) ++ serializeScript cr txout.scriptPubKey

/-- Read a `CTxOutCompressor`. -/
def unserializeTxOut : Reader CTxOut := do
  let nVal ← readVarInt 64
  return { nValue := toInt64 (decompressAmount nVal), scriptPubKey := ← unserializeScript cr uncompressed }

/-! ## Coins -/

namespace CCoins

/-- The outputs from the third one on, eight for each byte of the mask. -/
def maskGroups : List CTxOut → List (List CTxOut)
  | [] => []
  | txout :: vout => (txout :: vout.take 7) :: maskGroups (vout.drop 7)
termination_by l => l.length
decreasing_by
  rw [List.length_drop, List.length_cons]
  omega

/-- `CCoins::CalcMaskSize`: the bytes of the mask up to the last one that is not zero, and how many are not zero. -/
def calcMaskSize (coins : CCoins) : Nat × Nat :=
  (maskGroups (coins.vout.drop 2)).zipIdx.foldl
    (fun n g => if g.1.all (·.isNull) then n else (g.2 + 1, n.2 + 1)) (0, 0)

/-- A byte of the mask: a bit for each output of the group that is not spent. -/
def availByte (group : List CTxOut) : UInt8 :=
  group.zipIdx.foldl (fun chAvail o => if o.1.isNull then chAvail else chAvail ||| (1 <<< UInt8.ofNat o.2)) 0

/-- The output at a position is not spent. -/
def hasOutput (coins : CCoins) (n : Nat) : Bool := coins.vout[n]?.any (! ·.isNull)

/-- The header code of `CCoins::Serialize`. The routine asserts that an output is not spent; its callers have checked
`IsPruned`. -/
def headerCode (coins : CCoins) : Int :=
  let fFirst := coins.hasOutput 0
  let fSecond := coins.hasOutput 1
  8 * (coins.calcMaskSize.2 - (if fFirst || fSecond then 0 else 1)) + (if coins.fCoinBase then 1 else 0) +
    (if fFirst then 2 else 0) + (if fSecond then 4 else 0)

/-- `CCoins::Serialize`. -/
def serialize (coins : CCoins) : Bytes :=
  writeVarInt coins.nVersion ++ writeVarInt coins.headerCode ++
    ((maskGroups (coins.vout.drop 2)).take coins.calcMaskSize.1).map availByte ++
    (coins.vout.filter (! ·.isNull)).flatMap (serializeTxOut cr) ++
    writeVarInt coins.nHeight ++ writeVarInt (if coins.fCoinStake then 1 else 0) ++ writeVarInt coins.nTime ++
    writeVarInt coins.cUnit.toNat

/-- Read bytes of the mask until `nMaskCode` of them are not zero. -/
def readMask : Nat → Reader (List Bool)
  | 0, s => some ([], s)
  | _ + 1, [] => none
  | k + 1, chAvail :: s =>
    (readMask (if chAvail ≠ 0 then k else k + 1) s).map fun r =>
      ((List.range 8).map (fun p => decide (chAvail &&& (1 <<< UInt8.ofNat p) ≠ 0)) ++ r.1, r.2)

/-- Read the outputs that are not spent. -/
def readTxOuts : List Bool → Reader (List CTxOut)
  | [] => return []
  | f :: vAvail => do
    let txout ← if f then unserializeTxOut cr uncompressed else pure CTxOut.null
    return txout :: (← readTxOuts vAvail)

/-- Read a signed 32-bit number. -/
def readVarInt32 : Reader Int := do return Int.bmod (← readVarInt 32) (2 ^ 32)

/-- `CCoins::Unserialize`. -/
def unserialize : Reader CCoins := do
  let nVersion ← readVarInt32
  let nCode ← readVarInt 32
  let vAvail ← readMask (nCode / 8 + if nCode &&& 6 ≠ 0 then 0 else 1)
  let vout ← readTxOuts cr uncompressed (decide (nCode &&& 2 ≠ 0) :: decide (nCode &&& 4 ≠ 0) :: vAvail)
  let nHeight ← readVarInt32
  let nFlag ← readVarInt 32
  let nTime ← readVarInt 32
  let cUnit ← readVarInt 8
  return cleanup
    { fCoinBase := decide (nCode &&& 1 ≠ 0), vout := vout, nHeight := nHeight, nVersion := nVersion
      fCoinStake := decide (nFlag &&& 1 ≠ 0), nTime := nTime, cUnit := UInt8.ofNat cUnit }

/-- What reading a record gives; what follows the coins is ignored. -/
def ofRecord (record : Bytes) : Option CCoins := (unserialize cr uncompressed record).map (·.1)

/-- A record of the coins gives them back. -/
def Recorded (coins : CCoins) : Prop := ofRecord cr uncompressed (coins.serialize cr) = some coins

instance (coins : CCoins) : Decidable (coins.Recorded cr uncompressed) := by
  unfold Recorded
  infer_instance

end CCoins

end Keys

end Morcochain
