import Morcochain.Custodians
import Morcochain.Lib.Codec
import Morcochain.Lib.Eviction
import Morcochain.Lib.Run

/-!
# Liquidity info

Elected custodians publish what they offer to buy and to sell. `ProcessLiquidityInfo` (`liquidityinfo.cpp`) checks an
info, unserializes the content that the custodian has signed and stores it by the custodian and an identifier; the
message handler (`main.cpp`) relays what is accepted.

* `processLiquidityInfo_iff` : what is accepted, and what it leaves in the map.
* `removeExtraLiquidityInfo_spec` : a custodian with too many entries loses one of the oldest.
* `wellKept_exec` : the entries of a node stand under the custodians that signed them, up to the limit for each of them.
-/

set_option autoImplicit false

namespace Morcochain

open OrderedStore Guard Run Codec

/-! ## The data -/

def liquidityInfoMaxHeight : Int := 260000
def maxLiquidityInfoPerCustodian : Nat := 100

/-- `CUnsignedLiquidityInfo`, as `SetNull` leaves it. -/
structure CUnsignedLiquidityInfo where
  nVersion : Int := 1
  cUnit : CUnit := unitUnknown
  nTime : Int := 0
  nBuyAmount : Int := 0
  nSellAmount : Int := 0
  sIdentifier : Bytes := []
deriving DecidableEq, Repr

/-- `CUnsignedLiquidityInfo::IsValid`: only printable ASCII is allowed. -/
def CUnsignedLiquidityInfo.isValid (info : CUnsignedLiquidityInfo) : Bool :=
  info.cUnit = unitCurrency ∧ info.sIdentifier.length ≤ 255 ∧ info.sIdentifier.all fun chr => 0x20 ≤ chr ∧ chr ≤ 0x7e

/-- `CLiquidityInfo`. -/
structure CLiquidityInfo extends CUnsignedLiquidityInfo where
  cCustodianUnit : CUnit := unitUnknown
  vchCustodianPubKey : Bytes := []
  vchMsg : Bytes := []
  vchSig : Bytes := []
deriving DecidableEq, Repr

/-- Unserialize a `CUnsignedLiquidityInfo`. -/
def readUnsignedLiquidityInfo : Reader CUnsignedLiquidityInfo := do
  let nVersion ← readInt 4
  let nTime ← readInt 8
  let cUnit ← readUInt 1
  let nBuyAmount ← readInt 8
  let nSellAmount ← readInt 8
  let sIdentifier ← if nVersion ≥ protocolV2_0 then readByteString else pure []
  return { nVersion := nVersion, cUnit := UInt8.ofNat cUnit, nTime := nTime, nBuyAmount := nBuyAmount,
           nSellAmount := nSellAmount, sIdentifier := sIdentifier }

/-- Unserialize a `CLiquidityInfo`: the signed content stays as bytes. -/
def readLiquidityInfo : Reader CLiquidityInfo := do
  let cCustodianUnit ← readUInt 1
  let vchCustodianPubKey ← readByteString
  let vchMsg ← readByteString
  let vchSig ← readByteString
  return { cCustodianUnit := UInt8.ofNat cCustodianUnit, vchCustodianPubKey := vchCustodianPubKey, vchMsg := vchMsg,
           vchSig := vchSig }

/-- `CLiquiditySource`. -/
structure CLiquiditySource where
  custodianAddress : CBitcoinAddress
  sIdentifier : Bytes
deriving DecidableEq, Repr

namespace CLiquiditySource

/-- What sources compare by: the address first. -/
def key (source : CLiquiditySource) : List Bytes := [source.custodianAddress.key, source.sIdentifier]

instance : LE CLiquiditySource := ⟨fun a b => a.key ≤ b.key⟩

/-- `CLiquiditySource::operator<`. -/
instance : LT CLiquiditySource := ⟨fun a b => a.key < b.key⟩

instance : DecidableLE CLiquiditySource := fun a b => inferInstanceAs (Decidable (a.key ≤ b.key))
instance : DecidableLT CLiquiditySource := fun a b => inferInstanceAs (Decidable (a.key < b.key))

theorem key_inj {a b : CLiquiditySource} (h : a.key = b.key) : a = b := by
  cases a
  cases b
  simp only [key, List.cons.injEq, and_true] at h
  rw [CBitcoinAddress.key_inj h.1, h.2]

theorem orderedBy : OrderedBy CLiquiditySource (List Bytes) key where
  inj _ _ h := key_inj h
  le_iff _ _ := Iff.rfl
  lt_iff _ _ := Iff.rfl

instance : Std.IsLinearOrder CLiquiditySource := orderedBy.isLinearOrder
instance : Std.LawfulOrderLT CLiquiditySource := orderedBy.lawfulOrderLT

end CLiquiditySource

/-- `mapLiquidityInfo`. -/
abbrev LiquidityMap := Store CLiquiditySource CLiquidityInfo

/-- What the processing of an info reads of the chain. -/
structure LiquidityView where
  mapBlockIndex : BlockMap
  pindexBest : Option CBlockIndex

/-- The best block, through a pointer that must not be null. -/
def LiquidityView.best (view : LiquidityView) : Check CBlockIndex :=
  match view.pindexBest with
  | none => .error (.assertion "pindexBest")
  | some pindex => .ok pindex

/-! ## The code -/

section Code

variable (fTestNet : Bool) (cr : Crypto)

/-- The entry of the block that has elected the custodian, if there is one. -/
def LiquidityView.electedCustodian (view : LiquidityView) (address : CBitcoinAddress) : Check (Option CBlockIndex) := do
  let mapElectedCustodian ← view.mapBlockIndex.getElectedCustodians fTestNet (← view.best)
  return (mapElectedCustodian.find? address).bind view.mapBlockIndex.find

/-- `CLiquidityInfo::GetCustodianAddress`. -/
def CLiquidityInfo.getCustodianAddress (info : CLiquidityInfo) : Check CBitcoinAddress :=
  match CBitcoinAddress.ofDestination fTestNet (.keyID (cr.hash160 info.vchCustodianPubKey)) info.cCustodianUnit with
  | none => .error (.exception "No address version defined for unit")
  | some address => .ok address

/-- `CLiquidityInfo::CheckSignature`, which leaves the signed content in the info. -/
def CLiquidityInfo.checkSignature (info : CLiquidityInfo) : Check CLiquidityInfo := do
  errorIf (!cr.setPubKey info.vchCustodianPubKey) "CLiquidityInfo::CheckSignature() : SetPubKey failed"
  errorIf (!cr.verify info.vchCustodianPubKey (cr.hash info.vchMsg) info.vchSig)
    "CLiquidityInfo::CheckSignature() : verify signature failed"
  match readUnsignedLiquidityInfo info.vchMsg with
  | none => .error (.exception "CDataStream::read() : end of data")
  | some (content, _) => .ok { info with toCUnsignedLiquidityInfo := content }

/-- One turn of the loop of `RemoveExtraLiquidityInfo`: `nCount` and `mapLiquidityInfoByTime`. -/
def scanLiquidityInfo (custodianAddress : CBitcoinAddress) (st : Nat × Store Int CLiquiditySource)
    (it : CLiquiditySource × CLiquidityInfo) : Check (Nat × Store Int CLiquiditySource) := do
  let infoAddress ← it.2.getCustodianAddress fTestNet cr
  return if infoAddress = custodianAddress then (st.1 + 1, st.2.insert it.2.nTime it.1) else st

/-- `RemoveExtraLiquidityInfo`. -/
def removeExtraLiquidityInfo (m : LiquidityMap) (custodianAddress : CBitcoinAddress) : Check LiquidityMap := do
  let (nCount, mapLiquidityInfoByTime) ← m.entries.foldlM (scanLiquidityInfo fTestNet cr custodianAddress) (0, Store.empty)
  if nCount ≠ 0 ∧ nCount > maxLiquidityInfoPerCustodian then
    match mapLiquidityInfoByTime.entries with
    | [] => .error (.assertion "mapLiquidityInfoByTime.begin()")
    | oldest :: _ => return m.erase oldest.2
  else return m

/-- `CLiquidityInfo::ProcessLiquidityInfo`: the info with its content, and the map. -/
def CLiquidityInfo.processLiquidityInfo (info : CLiquidityInfo) (view : LiquidityView) (m : LiquidityMap) :
    Check (CLiquidityInfo × LiquidityMap) := do
  errorIf (!isValidCurrency info.cCustodianUnit) ""
  let address ← info.getCustodianAddress fTestNet cr
  let pindexBest ← view.best
  errorIf (pindexBest.nProtocolVersion ≥ protocolV2_0 ∧ info.nVersion > pindexBest.nProtocolVersion) ""
  match ← view.electedCustodian fTestNet address with
  | none => .error (.error "")
  | some pindex => do
    errorIf ((pindexBest.nHeight : Int) - pindex.nHeight > liquidityInfoMaxHeight) ""
    let info ← info.checkSignature cr
    errorIf (!info.isValid) ""
    let source : CLiquiditySource := { custodianAddress := address, sIdentifier := info.sIdentifier }
    errorIf ((m.find? source).any fun stored => stored.nTime ≥ info.nTime) ""
    let m ← removeExtraLiquidityInfo fTestNet cr (m.insert source info) address
    return (info, m)

/-- The handler of a `liquidity` message: the info that is relayed, and the map. -/
def receiveLiquidityInfo (view : LiquidityView) (m : LiquidityMap) (vRecv : Bytes) :
    Check (CLiquidityInfo × LiquidityMap) :=
  match readLiquidityInfo vRecv with
  | none => .error (.exception "CDataStream::read() : end of data")
  | some (info, _) => info.processLiquidityInfo fTestNet cr view m

/-- `RemoveExpiredLiquidityInfo`. -/
def removeExpiredLiquidityInfo (view : LiquidityView) (m : LiquidityMap) (nCurrentHeight : Int) :
    Check LiquidityMap := do
  let mapElectedCustodian ← view.mapBlockIndex.getElectedCustodians fTestNet (← view.best)
  return m.entries.foldl (fun kept it =>
    match (mapElectedCustodian.find? it.1.custodianAddress).bind view.mapBlockIndex.find with
    | none => kept.erase it.1
    | some pindex => if nCurrentHeight - pindex.nHeight > liquidityInfoMaxHeight then kept.erase it.1 else kept) m

/-- What changes the map: an info of this node or of a message, and a new best block. -/
inductive LiquidityEvent where
  | process (view : LiquidityView) (info : CLiquidityInfo)
  | expire (view : LiquidityView) (nCurrentHeight : Int)

/-- The map after an event. What fails leaves it as it was. -/
def liquidityStep (m : LiquidityMap) : LiquidityEvent → LiquidityMap
  | .process view info =>
    match info.processLiquidityInfo fTestNet cr view m with
    | .ok (_, m') => m'
    | .error _ => m
  | .expire view nCurrentHeight =>
    match removeExpiredLiquidityInfo fTestNet view m nCurrentHeight with
    | .ok m' => m'
    | .error _ => m

end Code

/-! ## What is accepted -/

section Accepted

variable {fTestNet : Bool} {cr : Crypto}

/-- Everything but the version gate lets an info with this content pass: its custodian was elected not too long ago, the
signature verifies, the content is valid, and nothing that is as new is stored for its source. -/
structure Acceptable (fTestNet : Bool) (cr : Crypto) (view : LiquidityView) (m : LiquidityMap) (info : CLiquidityInfo)
    (content : CUnsignedLiquidityInfo) (address : CBitcoinAddress) : Prop where
  currency : isValidCurrency info.cCustodianUnit = true
  custodian : info.getCustodianAddress fTestNet cr = .ok address
  elected : ∃ best pindex, view.pindexBest = some best ∧ view.electedCustodian fTestNet address = .ok (some pindex) ∧
    (best.nHeight : Int) - pindex.nHeight ≤ liquidityInfoMaxHeight
  pubKey : cr.setPubKey info.vchCustodianPubKey = true
  signature : cr.verify info.vchCustodianPubKey (cr.hash info.vchMsg) info.vchSig = true
  signed : ∃ rest, readUnsignedLiquidityInfo info.vchMsg = some (content, rest)
  valid : content.isValid = true
  newer : ∀ stored, m.find? ⟨address, content.sIdentifier⟩ = some stored → stored.nTime < content.nTime

variable {view : LiquidityView} {m m' : LiquidityMap} {info info' : CLiquidityInfo} {content : CUnsignedLiquidityInfo}
  {address : CBitcoinAddress}

/-- An info as it is read has the version of `SetNull`: the content is not read yet. -/
theorem yields_liquidityInfo : Yields readLiquidityInfo fun info => info.nVersion = 1 :=
  (Yields.true _).bind fun _ _ => (Yields.true _).bind fun _ _ => (Yields.true _).bind fun _ _ =>
    (Yields.true _).bind fun _ _ => .pure rfl

theorem best_ok {best : CBlockIndex} : view.best = .ok best ↔ view.pindexBest = some best := by
  unfold LiquidityView.best
  split <;> simp [*]

theorem checkSignature_ok : info.checkSignature cr = .ok info' ↔ cr.setPubKey info.vchCustodianPubKey = true ∧
    cr.verify info.vchCustodianPubKey (cr.hash info.vchMsg) info.vchSig = true ∧
    ∃ content rest, readUnsignedLiquidityInfo info.vchMsg = some (content, rest) ∧
      { info with toCUnsignedLiquidityInfo := content } = info' := by
  unfold CLiquidityInfo.checkSignature
  simp only [bind_eq_ok, rejectIf_eq_ok, exists_const, Bool.not_eq_true', Bool.not_eq_false]
  refine and_congr_right fun _ => and_congr_right fun _ => ?_
  cases readUnsignedLiquidityInfo info.vchMsg with
  | none => simp
  | some r =>
    obtain ⟨content, rest⟩ := r
    simp

/-- **What is accepted.** The version that the gate compares is the one that the info has before its content is read. -/
theorem processLiquidityInfo_iff : info.processLiquidityInfo fTestNet cr view m = .ok (info', m') ↔
    ∃ content address, Acceptable fTestNet cr view m info content address ∧
      (∀ best, view.pindexBest = some best → protocolV2_0 ≤ best.nProtocolVersion →
        info.nVersion ≤ best.nProtocolVersion) ∧
      info' = { info with toCUnsignedLiquidityInfo := content } ∧
      removeExtraLiquidityInfo fTestNet cr (m.insert ⟨address, content.sIdentifier⟩ info') address = .ok m' := by
  unfold CLiquidityInfo.processLiquidityInfo
  simp only [bind_eq_ok, rejectIf_eq_ok, exists_const, Bool.not_eq_true', Bool.not_eq_false]
  constructor
  · rintro ⟨hcurrency, address, haddress, best, hbest, hgate, elected, helected, h⟩
    cases elected with
    | none => cases h
    | some pindex =>
      simp only [bind_eq_ok, rejectIf_eq_ok, exists_const, Bool.not_eq_false] at h
      obtain ⟨hheight, signed, hsigned, hvalid, hnewer, extra, hextra, h⟩ := h
      obtain ⟨hpubKey, hsignature, content, rest, hread, rfl⟩ := checkSignature_ok.mp hsigned
      cases h
      refine ⟨content, address, ⟨hcurrency, haddress, ⟨best, pindex, best_ok.mp hbest, helected, Int.not_lt.mp hheight⟩,
        hpubKey, hsignature, ⟨rest, hread⟩, hvalid, fun stored hstored => ?_⟩, fun best' hbest' hversion => ?_, rfl,
          hextra⟩
      · dsimp only at hnewer
        rw [hstored] at hnewer
        exact Int.not_le.mp (by simpa using hnewer)
      · obtain rfl : best' = best := Option.some.inj (hbest'.symm.trans (best_ok.mp hbest))
        exact Int.not_lt.mp fun hlater => hgate ⟨hversion, hlater⟩
  · rintro ⟨content, address, hok, hgate, rfl, hextra⟩
    obtain ⟨best, pindex, hbest, helected, hheight⟩ := hok.elected
    obtain ⟨rest, hread⟩ := hok.signed
    refine ⟨hok.currency, address, hok.custodian, best, best_ok.mpr hbest, fun h => ?_, some pindex, helected, ?_⟩
    · exact Int.not_lt.mpr (hgate best hbest h.1) h.2
    · simp only [bind_eq_ok, rejectIf_eq_ok, exists_const, Bool.not_eq_false]
      refine ⟨Int.not_lt.mpr hheight, _, checkSignature_ok.mpr ⟨hok.pubKey, hok.signature, content, rest, hread, rfl⟩,
        hok.valid, ?_, m', hextra, rfl⟩
      cases hstored : m.find? ⟨address, content.sIdentifier⟩ with
      | none => simp
      | some stored => simpa using hok.newer stored hstored

end Accepted

/-! ## The eviction -/

section Eviction

variable {fTestNet : Bool} {cr : Crypto} {m m' : LiquidityMap} {custodianAddress : CBitcoinAddress}

/-- The infos of the entries name the custodians under which they stand. -/
def AddressesKept (fTestNet : Bool) (cr : Crypto) (entries : List (CLiquiditySource × CLiquidityInfo)) : Prop :=
  ∀ e ∈ entries, e.2.getCustodianAddress fTestNet cr = .ok e.1.custodianAddress

/-- The loop counts the entries of the custodian, and keeps one of them for each of their times. -/
theorem foldlM_scanLiquidityInfo (custodianAddress : CBitcoinAddress)
    {entries : List (CLiquiditySource × CLiquidityInfo)}
    (st : Nat × Store Int CLiquiditySource) (h : AddressesKept fTestNet cr entries) :
    ∃ st', entries.foldlM (scanLiquidityInfo fTestNet cr custodianAddress) st = .ok st' ∧
      st'.1 = st.1 + (entries.filter fun e => e.1.custodianAddress = custodianAddress).length ∧
      (∀ t source, st'.2.find? t = some source → st.2.find? t = some source ∨
        ∃ info, (source, info) ∈ entries ∧ source.custodianAddress = custodianAddress ∧ info.nTime = t) ∧
      (∀ t, (st.2.find? t).isSome → (st'.2.find? t).isSome) ∧
      ∀ e ∈ entries, e.1.custodianAddress = custodianAddress → (st'.2.find? e.2.nTime).isSome := by
  induction entries generalizing st with
  | nil => exact ⟨st, rfl, rfl, fun _ _ => Or.inl, fun _ => id, List.forall_mem_nil _⟩
  | cons e entries ih =>
    obtain ⟨he, hentries⟩ := List.forall_mem_cons.mp h
    have hscan : scanLiquidityInfo fTestNet cr custodianAddress st e =
      .ok (if e.1.custodianAddress = custodianAddress then
        (st.1 + 1, st.2.insert e.2.nTime e.1) else st) := by
      rw [scanLiquidityInfo, he]
      rfl
    obtain ⟨st', hst', hcount, hsource, hmono, hall⟩ := ih
      (if e.1.custodianAddress = custodianAddress then (st.1 + 1, st.2.insert e.2.nTime e.1) else st) hentries
    refine ⟨st', foldlM_cons_ok.mpr ⟨_, hscan, hst'⟩, ?_, fun t source hfind => ?_, fun t hsome => hmono t ?_, ?_⟩
    · by_cases hown : e.1.custodianAddress = custodianAddress
      · rw [hcount, if_pos hown, List.filter_cons_of_pos (by simpa using hown), List.length_cons]
        dsimp only
        omega
      · rw [hcount, if_neg hown, List.filter_cons_of_neg (by simpa using hown)]
    · rcases hsource t source hfind with hfind | ⟨info, hmem, hown, htime⟩
      · split at hfind
        · rename_i hown
          rw [Store.find?_insert] at hfind
          split at hfind
          · rename_i htime
            cases hfind
            exact Or.inr ⟨e.2, List.mem_cons_self, hown, htime.symm⟩
          · exact Or.inl hfind
        · exact Or.inl hfind
      · exact Or.inr ⟨info, List.mem_cons_of_mem _ hmem, hown, htime⟩
    · split
      · rw [Store.find?_insert]
        split
        · rfl
        · exact hsome
      · exact hsome
    · refine List.forall_mem_cons.mpr ⟨fun hown => hmono _ ?_, hall⟩
      rw [if_pos hown, Store.find?_insert, if_pos rfl]
      rfl

/-- **A custodian with too many entries loses one of the oldest.** -/
theorem removeExtraLiquidityInfo_spec (custodianAddress : CBitcoinAddress) (h : AddressesKept fTestNet cr m.entries) :
    ∃ m', removeExtraLiquidityInfo fTestNet cr m custodianAddress = .ok m' ∧
      ((countOf (·.custodianAddress) m custodianAddress ≤ maxLiquidityInfoPerCustodian ∧ m' = m) ∨
        (maxLiquidityInfoPerCustodian < countOf (·.custodianAddress) m custodianAddress ∧
          ∃ old w, old.custodianAddress = custodianAddress ∧ IsOldest (·.custodianAddress) (·.nTime) m old w ∧
            m' = m.erase old)) := by
  obtain ⟨⟨nCount, byTime⟩, hscan, hcount, hsource, -, hall⟩ :=
    foldlM_scanLiquidityInfo custodianAddress (0, Store.empty) h
  dsimp only at hcount hsource hall
  have hcount : nCount = countOf (·.custodianAddress) m custodianAddress := by
    rw [hcount, Nat.zero_add]
    rfl
  rw [removeExtraLiquidityInfo, hscan, ok_bind]
  dsimp only
  by_cases hmany : nCount ≠ 0 ∧ nCount > maxLiquidityInfoPerCustodian
  · rw [if_pos hmany]
    cases hbyTime : byTime.entries with
    | nil =>
      -- an entry that is counted has a time
      have hnone : countOf (·.custodianAddress) m custodianAddress = 0 := by
        refine List.length_eq_zero_iff.mpr (List.filter_eq_nil_iff.mpr fun e he hown => ?_)
        obtain ⟨source, hfind⟩ := Option.isSome_iff_exists.mp (hall e he (by simpa using hown))
        have hmem := Store.find?_eq_some.mp hfind
        rw [hbyTime] at hmem
        cases hmem
      omega
    | cons oldest rest =>
      obtain ⟨t, old⟩ := oldest
      have hold : byTime.find? t = some old := Store.find?_eq_some.mpr (hbyTime ▸ List.mem_cons_self)
      obtain ⟨w, hw, hown, rfl⟩ := (hsource t old hold).resolve_left fun hempty => nomatch hempty
      refine ⟨_, rfl, Or.inr ⟨by omega, old, w, hown, ⟨Store.find?_eq_some.mpr hw, fun source info hsame hfind => ?_⟩, rfl⟩⟩
      obtain ⟨s, hs⟩ := Option.isSome_iff_exists.mp
        (hall (source, info) (Store.find?_eq_some.mp hfind) (hsame.trans hown))
      have hmem := Store.find?_eq_some.mp hs
      have hsorted := byTime.sorted
      rw [hbyTime] at hmem hsorted
      rcases List.mem_cons.mp hmem with heq | hmem
      · exact (congrArg Prod.fst heq).ge
      · exact Int.le_of_lt ((List.pairwise_cons.mp hsorted).1 _ hmem)
  · rw [if_neg hmany]
    exact ⟨m, rfl, Or.inl ⟨by omega, rfl⟩⟩

end Eviction

/-! ## What a node keeps -/

section Kept

variable {fTestNet : Bool} {cr : Crypto} {view : LiquidityView} {m m' : LiquidityMap} {info info' : CLiquidityInfo}

/-- The entries stand under the custodians that have signed them, up to the limit for each of them. -/
structure WellKept (fTestNet : Bool) (cr : Crypto) (m : LiquidityMap) : Prop where
  addresses : AddressesKept fTestNet cr m.entries
  bounded : Bounded (·.custodianAddress) maxLiquidityInfoPerCustodian m

theorem wellKept_empty : WellKept fTestNet cr Store.empty :=
  ⟨List.forall_mem_nil _, fun _ => Nat.zero_le _⟩

/-- Without some of its entries, a map is kept as well. -/
theorem WellKept.erase (h : WellKept fTestNet cr m) (source : CLiquiditySource) :
    WellKept fTestNet cr (m.erase source) where
  addresses := fun e he => h.addresses e (List.mem_filter.mp he).1
  bounded := fun o => by
    have hle := h.bounded o
    cases hfind : m.find? source with
    | none => rwa [countOf_erase_of_none hfind]
    | some info =>
      rw [countOf_eq _ hfind] at hle
      omega

/-- The infos name their custodians after an insertion, too. -/
theorem AddressesKept.insert (h : AddressesKept fTestNet cr m.entries) (source : CLiquiditySource)
    (info : CLiquidityInfo)
    (hinfo : info.getCustodianAddress fTestNet cr = .ok source.custodianAddress) :
    AddressesKept fTestNet cr (m.insert source info).entries := by
  intro e he
  rcases Store.mem_insertEntry he with rfl | he
  · exact hinfo
  · exact h e he

/-- **What an accepted info does to the map**: it is written under its source, in place of older infos only, and a
custodian with too many entries loses one of the oldest. -/
theorem WellKept.writes (h : WellKept fTestNet cr m)
    (hprocess : info.processLiquidityInfo fTestNet cr view m = .ok (info', m')) :
    ∃ source : CLiquiditySource, info.getCustodianAddress fTestNet cr = .ok source.custodianAddress ∧
      Writes (·.custodianAddress) (·.nTime) maxLiquidityInfoPerCustodian m source info' m' ∧
        WellKept fTestNet cr m' := by
  obtain ⟨content, address, hok, -, rfl, hextra⟩ := processLiquidityInfo_iff.mp hprocess
  have haddresses := h.addresses.insert ⟨address, content.sIdentifier⟩
    { info with toCUnsignedLiquidityInfo := content } hok.custodian
  obtain ⟨m'', hextra', hspec⟩ := removeExtraLiquidityInfo_spec address haddresses
  obtain rfl : m' = m'' := Except.ok.inj (hextra.symm.trans hextra')
  have hwrites : Writes (·.custodianAddress) (·.nTime) maxLiquidityInfoPerCustodian m ⟨address, content.sIdentifier⟩
      { info with toCUnsignedLiquidityInfo := content } m' := ⟨hok.newer, hspec⟩
  refine ⟨_, hok.custodian, hwrites, ?_, hwrites.bounded h.bounded⟩
  rcases hspec with ⟨-, rfl⟩ | ⟨-, old, w, -, -, rfl⟩
  · exact haddresses
  · exact fun e he => haddresses e (List.mem_filter.mp he).1

/-- In a map that is well kept, what is acceptable is accepted unless the gate stops it. -/
theorem WellKept.accepts (h : WellKept fTestNet cr m) {content : CUnsignedLiquidityInfo} {address : CBitcoinAddress}
    (hok : Acceptable fTestNet cr view m info content address)
    (hgate : ∀ best, view.pindexBest = some best → protocolV2_0 ≤ best.nProtocolVersion →
      info.nVersion ≤ best.nProtocolVersion) :
    ∃ m', info.processLiquidityInfo fTestNet cr view m =
      .ok ({ info with toCUnsignedLiquidityInfo := content }, m') := by
  have haddresses := h.addresses.insert ⟨address, content.sIdentifier⟩
    { info with toCUnsignedLiquidityInfo := content } hok.custodian
  obtain ⟨m', hextra, -⟩ := removeExtraLiquidityInfo_spec address haddresses
  exact ⟨m', processLiquidityInfo_iff.mpr ⟨content, address, hok, hgate, rfl, hextra⟩⟩

/-- Every event keeps the map. -/
theorem WellKept.step (h : WellKept fTestNet cr m) (event : LiquidityEvent) :
    WellKept fTestNet cr (liquidityStep fTestNet cr m event) := by
  cases event with
  | process view info =>
    cases hprocess : info.processLiquidityInfo fTestNet cr view m with
    | error e => simpa only [liquidityStep, hprocess] using h
    | ok r =>
      obtain ⟨info', m'⟩ := r
      obtain ⟨source, -, -, hkept⟩ := h.writes hprocess
      simpa only [liquidityStep, hprocess] using hkept
  | expire view nCurrentHeight =>
    cases hexpire : removeExpiredLiquidityInfo fTestNet view m nCurrentHeight with
    | error e => simpa only [liquidityStep, hexpire] using h
    | ok m' =>
      simp only [liquidityStep, hexpire]
      unfold removeExpiredLiquidityInfo at hexpire
      obtain ⟨best, -, hexpire⟩ := bind_eq_ok.mp hexpire
      obtain ⟨elected, -, hexpire⟩ := bind_eq_ok.mp hexpire
      obtain rfl := Except.ok.inj hexpire
      refine List.foldlRecOn m.entries _ h fun kept hkept it _ => ?_
      split
      · exact hkept.erase it.1
      · split
        · exact hkept.erase it.1
        · exact hkept

/-- **What a node keeps** of the liquidity infos, after any events. -/
theorem wellKept_exec (fTestNet : Bool) (cr : Crypto) (events : List LiquidityEvent) :
    WellKept fTestNet cr (exec (liquidityStep fTestNet cr) Store.empty events) :=
  exec_inv (C := fun _ _ => True) (fun _ e h _ => h.step e) wellKept_empty (meets_of_forall fun _ _ => trivial)

end Kept

end Morcochain
