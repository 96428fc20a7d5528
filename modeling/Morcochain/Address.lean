import Morcochain.Solver
import Morcochain.Lib.OrderedStore

/-!
# Addresses

`CBitcoinAddress` (`base58.h`): the version byte tells the unit and whether the data is the id of a key or of a script.
Addresses are ordered by version and data.
-/

set_option autoImplicit false

namespace Morcochain

open OrderedStore

/-- The 160-bit hash as a number, as `base_uint` compares it. -/
def Uint160.toNat (h : Uint160) : Nat := leNat h.bytes

/-- `CBitcoinAddress`, with the data of `CBase58Data`. -/
structure CBitcoinAddress where
  nVersion : UInt8 := 0
  vchData : Bytes := []
deriving DecidableEq, Repr

/-- `CBitcoinAddress::PubKeyVersion`; `none` where it throws. -/
def pubKeyVersion (fTestNet : Bool) (cUnit : CUnit) : Option UInt8 :=
  if cUnit = unitShare then some (if fTestNet then 125 else 63)
  else if cUnit = unitCurrency then some (if fTestNet then 85 else 25)
  else none

/-- `CBitcoinAddress::ScriptVersion`; `none` where it throws. -/
def scriptVersion (fTestNet : Bool) (cUnit : CUnit) : Option UInt8 :=
  if cUnit = unitShare then some (if fTestNet then 126 else 64)
  else if cUnit = unitCurrency then some (if fTestNet then 86 else 26)
  else none

namespace CBitcoinAddress

/-- `CBitcoinAddress::GetUnit`. -/
def getUnit (fTestNet : Bool) (address : CBitcoinAddress) : CUnit :=
  if fTestNet then
    if address.nVersion = 125 ∨ address.nVersion = 126 then unitShare
    else if address.nVersion = 85 ∨ address.nVersion = 86 then unitCurrency
    else unitUnknown
  else
    if address.nVersion = 63 ∨ address.nVersion = 64 then unitShare
    else if address.nVersion = 25 ∨ address.nVersion = 26 then unitCurrency
    else unitUnknown

/-- `CBitcoinAddress(dest, cUnit)`: no data is set for `CNoDestination`; `none` where the unit has no version. -/
def ofDestination (fTestNet : Bool) (dest : CTxDestination) (cUnit : CUnit) : Option CBitcoinAddress :=
  match dest with
  | .none => some {}
  | .keyID id => (pubKeyVersion fTestNet cUnit).map (fun v => { nVersion := v, vchData := id.bytes })
  | .scriptID id => (scriptVersion fTestNet cUnit).map (fun v => { nVersion := v, vchData := id.bytes })

/-- `CBitcoinAddress::IsValid(cUnit)`, of a unit that has versions. -/
def isValidFor (fTestNet : Bool) (address : CBitcoinAddress) (cUnit : CUnit) : Bool :=
  (pubKeyVersion fTestNet cUnit = some address.nVersion || scriptVersion fTestNet cUnit = some address.nVersion) &&
    address.vchData.length = 20

/-- `CBitcoinAddress::IsValid()`. -/
def isValid (fTestNet : Bool) (address : CBitcoinAddress) : Bool :=
  let cUnit := address.getUnit fTestNet
  cUnit ≠ unitUnknown && address.isValidFor fTestNet cUnit

/-- `CBitcoinAddress::Get`. -/
def get (fTestNet : Bool) (address : CBitcoinAddress) : CTxDestination :=
  let cUnit := address.getUnit fTestNet
  if address.isValid fTestNet then
    if scriptVersion fTestNet cUnit = some address.nVersion then .scriptID (Uint160.ofBytes address.vchData)
    else .keyID (Uint160.ofBytes address.vchData)
  else .none

/-- The units with address versions. -/
theorem unit_of_version {fTestNet : Bool} {dest : CTxDestination} {cUnit : CUnit} {a : CBitcoinAddress}
    (hd : dest ≠ .none) (h : ofDestination fTestNet dest cUnit = some a) :
    cUnit = unitShare ∨ cUnit = unitCurrency := by
  by_contra hne
  rw [not_or] at hne
  cases dest with
  | none => exact hd rfl
  | keyID id => simp [ofDestination, pubKeyVersion, hne.1, hne.2] at h
  | scriptID id => simp [ofDestination, scriptVersion, hne.1, hne.2] at h

/-- An address gives back the unit and the destination it was made from. -/
theorem get_ofDestination {fTestNet : Bool} {dest : CTxDestination} {cUnit : CUnit} {a : CBitcoinAddress}
    (hd : dest ≠ .none) (h : ofDestination fTestNet dest cUnit = some a) :
    a.getUnit fTestNet = cUnit ∧ a.get fTestNet = dest := by
  have hunit := unit_of_version hd h
  cases dest with
  | none => exact absurd rfl hd
  | keyID id =>
    have hlen := id.size_eq
    have hbytes := Uint160.ofBytes_bytes id
    rcases hunit with rfl | rfl <;> cases fTestNet <;> cases h <;> refine ⟨rfl, ?_⟩ <;>
      simp [get, isValid, isValidFor, getUnit, pubKeyVersion, scriptVersion, unitShare, unitCurrency, unitUnknown,
        hlen, hbytes]
  | scriptID id =>
    have hlen := id.size_eq
    have hbytes := Uint160.ofBytes_bytes id
    rcases hunit with rfl | rfl <;> cases fTestNet <;> cases h <;> refine ⟨rfl, ?_⟩ <;>
      simp [get, isValid, isValidFor, getUnit, pubKeyVersion, scriptVersion, unitShare, unitCurrency, unitUnknown,
        hlen, hbytes]

end CBitcoinAddress

/-! ## The order of addresses -/

/-- The bytes by which addresses compare. -/
def CBitcoinAddress.key (address : CBitcoinAddress) : Bytes := address.nVersion :: address.vchData

theorem CBitcoinAddress.key_inj {a b : CBitcoinAddress} (h : a.key = b.key) : a = b := by
  cases a
  cases b
  simp only [key, List.cons.injEq] at h
  rw [h.1, h.2]

/-- `CBase58Data::operator<=`. -/
instance : LE CBitcoinAddress := ⟨fun a b => a.key ≤ b.key⟩

/-- `CBase58Data::operator<`. -/
instance : LT CBitcoinAddress := ⟨fun a b => a.key < b.key⟩

instance : DecidableLE CBitcoinAddress := fun a b => inferInstanceAs (Decidable (a.key ≤ b.key))
instance : DecidableLT CBitcoinAddress := fun a b => inferInstanceAs (Decidable (a.key < b.key))

theorem CBitcoinAddress.orderedBy : OrderedBy CBitcoinAddress Bytes CBitcoinAddress.key where
  inj _ _ h := key_inj h
  le_iff _ _ := Iff.rfl
  lt_iff _ _ := Iff.rfl

instance : Std.IsLinearOrder CBitcoinAddress := CBitcoinAddress.orderedBy.isLinearOrder
instance : Std.LawfulOrderLT CBitcoinAddress := CBitcoinAddress.orderedBy.lawfulOrderLT

end Morcochain
