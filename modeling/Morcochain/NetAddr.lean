import Morcochain.Transaction
import Morcochain.Serialize
import Morcochain.Lib.OrderedStore

/-!
# Network addresses

`CNetAddr`, `CService` (`netbase.h`, `netbase.cpp`) and `CAddress` (`protocol.h`), as far as the address manager uses
them: which addresses are routable, the group of an address, and how an address is written to disk.

* `CNetAddr.orderedBy` : addresses are ordered by their bytes.
* `reads_address` : **an address is read back**.
-/

set_option autoImplicit false

namespace Morcochain

open OrderedStore Codec

/-! ## Addresses -/

/-- `CNetAddr`: an IPv6 address in network byte order. -/
structure CNetAddr where
  ip : Bytes
  size_eq : ip.length = 16
deriving DecidableEq, Repr

namespace CNetAddr

instance : Inhabited CNetAddr := ⟨⟨List.replicate 16 0, List.length_replicate⟩⟩

instance : LE CNetAddr := ⟨fun a b => a.ip ≤ b.ip⟩

/-- The order of `CNetAddr`, which compares the bytes. -/
instance : LT CNetAddr := ⟨fun a b => a.ip < b.ip⟩

instance : DecidableLE CNetAddr := fun a b => inferInstanceAs (Decidable (a.ip ≤ b.ip))
instance : DecidableLT CNetAddr := fun a b => inferInstanceAs (Decidable (a.ip < b.ip))

theorem ip_inj {a b : CNetAddr} (h : a.ip = b.ip) : a = b := by
  cases a
  cases b
  cases h
  rfl

theorem orderedBy : OrderedBy CNetAddr Bytes ip where
  inj _ _ h := ip_inj h
  le_iff _ _ := Iff.rfl
  lt_iff _ _ := Iff.rfl

instance : Std.IsLinearOrder CNetAddr := orderedBy.isLinearOrder
instance : Std.LawfulOrderLT CNetAddr := orderedBy.lawfulOrderLT

variable (a : CNetAddr)

/-- `GetByte` counts the bytes from the end. -/
def getByte (n : Nat) : UInt8 := a.ip.getD (15 - n) 0

def pchIPv4 : Bytes := [0, 0, 0, 0, 0, 0, 0, 0, 0, 0, 0xff, 0xff]
def pchOnionCat : Bytes := [0xfd, 0x87, 0xd8, 0x7e, 0xeb, 0x43]

def isIPv4 : Bool := a.ip.take 12 = pchIPv4

def isRFC1918 : Bool :=
  a.isIPv4 && (a.getByte 3 = 10 || (a.getByte 3 = 192 && a.getByte 2 = 168) ||
    (a.getByte 3 = 172 && (a.getByte 2 ≥ 16 && a.getByte 2 ≤ 31)))

def isRFC3927 : Bool := a.isIPv4 && (a.getByte 3 = 169 && a.getByte 2 = 254)

def isRFC3849 : Bool := a.getByte 15 = 0x20 && a.getByte 14 = 0x01 && a.getByte 13 = 0x0d && a.getByte 12 = 0xb8

def isRFC3964 : Bool := a.getByte 15 = 0x20 && a.getByte 14 = 0x02

def isRFC6052 : Bool := a.ip.take 12 = [0, 0x64, 0xff, 0x9b, 0, 0, 0, 0, 0, 0, 0, 0]

def isRFC4380 : Bool := a.getByte 15 = 0x20 && a.getByte 14 = 0x01 && a.getByte 13 = 0 && a.getByte 12 = 0

def isRFC4862 : Bool := a.ip.take 8 = [0xfe, 0x80, 0, 0, 0, 0, 0, 0]

def isRFC4193 : Bool := a.getByte 15 &&& 0xfe = 0xfc

def isRFC6145 : Bool := a.ip.take 12 = [0, 0, 0, 0, 0, 0, 0, 0, 0xff, 0xff, 0, 0]

def isRFC4843 : Bool :=
  a.getByte 15 = 0x20 && a.getByte 14 = 0x01 && a.getByte 13 = 0x00 && a.getByte 12 &&& 0xf0 = 0x10

def isTor : Bool := a.ip.take 6 = pchOnionCat

def isLocal : Bool :=
  (a.isIPv4 && (a.getByte 3 = 127 || a.getByte 3 = 0)) || a.ip = [0, 0, 0, 0, 0, 0, 0, 0, 0, 0, 0, 0, 0, 0, 0, 1]

/-- `IsValid`: neither shifted, unspecified, for documentation, `INADDR_NONE` nor 0. -/
def isValid : Bool :=
  a.ip.take 9 ≠ pchIPv4.drop 3 && a.ip ≠ List.replicate 16 0 && !a.isRFC3849 &&
    !(a.isIPv4 && (a.ip.drop 12 = [0xff, 0xff, 0xff, 0xff] || a.ip.drop 12 = [0, 0, 0, 0]))

def isRoutable : Bool :=
  a.isValid &&
    !(a.isRFC1918 || a.isRFC3927 || a.isRFC4862 || (a.isRFC4193 && !a.isTor) || a.isRFC4843 || a.isLocal)

/-- The class of a group, and `nBits` bits from a byte on. -/
def groupOf (nClass : UInt8) (nStartByte nBits : Nat) : Bytes :=
  nClass :: (List.range (nBits / 8)).map (fun i => a.getByte (15 - (nStartByte + i))) ++
    if nBits % 8 > 0 then
      [a.getByte (15 - (nStartByte + nBits / 8)) ||| UInt8.ofNat (2 ^ (nBits % 8) - 1)]
    else []

/-- `GetGroup`: all unroutable addresses belong to the same group, IPv4 addresses to those of their 16 higher bits. -/
def getGroup : Bytes :=
  let (nClass, nBits) := if a.isLocal then (255, 0) else (2, 16)
  if !a.isRoutable then a.groupOf 0 0 0
  else if a.isIPv4 || a.isRFC6145 || a.isRFC6052 then a.groupOf 1 12 nBits
  else if a.isRFC3964 then a.groupOf 1 2 nBits
  else if a.isRFC4380 then [1, a.getByte 3 ^^^ 0xff, a.getByte 2 ^^^ 0xff]
  else if a.isTor then a.groupOf 3 6 4
  else if a.getByte 15 = 0x20 && a.getByte 14 = 0x01 && a.getByte 13 = 0x04 && a.getByte 12 = 0x70 then
    a.groupOf nClass 0 36
  else a.groupOf nClass 0 32

end CNetAddr

/-- `CService`. -/
structure CService extends CNetAddr where
  port : Nat
deriving DecidableEq, Repr, Inhabited

/-- `CService::GetKey`. -/
def CService.getKey (a : CService) : Bytes := a.ip ++ [UInt8.ofNat (a.port / 0x100), UInt8.ofNat (a.port % 0x100)]

/-- `CAddress`. -/
structure CAddress extends CService where
  /-- `NODE_NETWORK` -/
  nServices : Nat := 1
  nTime : Nat := 100000000
  /-- Kept in memory only. -/
  nLastTry : Int := 0
deriving DecidableEq, Repr, Inhabited

/-! ## The format -/

/-- `htons`, which is its own inverse. -/
def htons (port : Nat) : Nat := port % 256 * 256 + port / 256

/-- Write an address to disk, with the version that is given for it. -/
def CAddress.write (nVersion : Int) (a : CAddress) : Bytes :=
  writeInt 4 nVersion ++ (writeLE 4 a.nTime ++ (writeLE 8 a.nServices ++ (a.ip ++ writeLE 2 (htons a.port))))

def readNetAddr : Reader CNetAddr := do
  let ip ← readBytes 16
  if h : ip.length = 16 then return ⟨ip, h⟩ else fun _ => none

def readAddress : Reader CAddress := do
  let _nVersion ← readInt 4
  let nTime ← readUInt 4
  let nServices ← readUInt 8
  let a ← readNetAddr
  let portN ← readUInt 2
  return { toCNetAddr := a, port := htons portN, nServices := nServices, nTime := nTime }

/-- The numbers of an address fit their types. -/
structure CAddress.Fits (a : CAddress) : Prop where
  port : a.port < 2 ^ 16
  nServices : a.nServices < 2 ^ 64
  nTime : a.nTime < 2 ^ 32

section Format

theorem reads_netAddr (a : CNetAddr) : Reads readNetAddr a.ip a := by
  have h := (reads_bytes a.size_eq).bind
    (f := fun ip => if h : ip.length = 16 then pure ⟨ip, h⟩ else fun _ => none) (c := a)
    (by rw [dif_pos a.size_eq]; exact Reads.pure a)
  rwa [List.append_nil] at h

theorem htons_htons {port : Nat} (h : port < 2 ^ 16) : htons port < 2 ^ 16 ∧ htons (htons port) = port := by
  unfold htons
  omega

/-- **An address is read back**, but for the time of the last try. -/
theorem reads_address {nVersion : Int} (hversion : IntFits 4 nVersion) {a : CAddress} (h : a.Fits) :
    Reads readAddress (a.write nVersion) { a with nLastTry := 0 } := by
  obtain ⟨hport, hback⟩ := htons_htons h.port
  unfold readAddress CAddress.write
  refine (reads_int hversion).bind ((reads_uint h.nTime).bind ((reads_uint h.nServices).bind ((reads_netAddr _).bind ?_)))
  have hmap := (reads_uint (by omega : htons a.port < 256 ^ 2)).map fun portN : Nat =>
    ({ toCNetAddr := a.toCNetAddr, port := htons portN, nServices := a.nServices, nTime := a.nTime } : CAddress)
  rwa [hback] at hmap

end Format

end Morcochain
