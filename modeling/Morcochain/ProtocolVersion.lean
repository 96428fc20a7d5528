import Morcochain.Elected
import Morcochain.ProcessBlock

/-!
# The switch of the protocol

`GetProtocolForNextBlock` and `IsProtocolActiveForNextBlock` (`vote.cpp`) along the chains of the block index: the
version is computed once for each block, from its ancestors, and recorded in its entry.

* `countVersionVotes_ge_iff` : the loop that stops early finds enough votes exactly when the window holds enough.
* `version_of_ancestors` : **the version of a block** is 2.0 when some block up to it has switched, and 0.5 before.
* `protocolActivation` : this holds of every block that was put into the index, in all runs.
-/

set_option autoImplicit false

namespace Morcochain

open Guard Filling Run

/-! ## The window -/

/-- The loop of `IsProtocolActiveForNextBlock`, with the turns that are left and the votes so far. -/
def countVersionVotes (nProtocolVersion : Int) (nRequired : Nat) : Nat → Nat → List CBlockIndex → Nat
  | 0, nVotes, _ => nVotes
  | _ + 1, nVotes, [] => nVotes
  | i + 1, nVotes, pPrevIndex :: rest =>
    if nVotes < nRequired then
      countVersionVotes nProtocolVersion nRequired i
        (if nProtocolVersion ≤ pPrevIndex.vote.nVersionVote then nVotes + 1 else nVotes) rest
    else nVotes

/-- The blocks among the first ones of a chain that have voted for a version, or a higher one. -/
def versionVotes (nProtocolVersion : Int) (nToCheck : Nat) (chain : List CBlockIndex) : Nat :=
  ((chain.take nToCheck).filter (fun p => nProtocolVersion ≤ p.vote.nVersionVote)).length

/-- The time from which votes for version 2.0 count. -/
def protocolV2_0Time (cfg : Settings) : Nat := if cfg.fTestNet then protocolV2_0TestVoteTime else protocolV2_0VoteTime

/-- The ancestors of a block switch to version 2.0: the parent has come to the vote time, and enough of the last
ancestors have voted for the version. -/
def Switches (cfg : Settings) (chainPrev : List CBlockIndex) : Prop :=
  (∃ pprev ∈ chainPrev.head?, protocolV2_0Time cfg ≤ pprev.nTime) ∧
    protocolSwitchRequireVotes ≤ versionVotes protocolV2_0 protocolSwitchCountVotes chainPrev

/-- The protocol has switched at the first block of a chain, or at one below it. -/
def Switched (cfg : Settings) (chain : List CBlockIndex) : Prop :=
  ∃ above p chainPrev, chain = above ++ p :: chainPrev ∧ Switches cfg chainPrev

section Window

variable {cfg : Settings} {nProtocolVersion : Int} {nRequired : Nat} {p : CBlockIndex} {chain : List CBlockIndex}

theorem versionVotes_cons (nToCheck : Nat) : versionVotes nProtocolVersion (nToCheck + 1) (p :: chain) =
    (if nProtocolVersion ≤ p.vote.nVersionVote then 1 else 0) + versionVotes nProtocolVersion nToCheck chain := by
  unfold versionVotes
  rw [List.take_succ_cons, List.filter_cons]
  by_cases h : nProtocolVersion ≤ p.vote.nVersionVote
  · simp [h]
    omega
  · simp [h]

/-- **The early exit makes no difference**: the loop comes to the required votes exactly when the window holds them. -/
theorem countVersionVotes_ge_iff : ∀ (nToCheck nVotes : Nat) (chain : List CBlockIndex),
    nRequired ≤ countVersionVotes nProtocolVersion nRequired nToCheck nVotes chain ↔
      nRequired ≤ nVotes + versionVotes nProtocolVersion nToCheck chain := by
  intro nToCheck
  induction nToCheck with
  | zero =>
    intro nVotes chain
    simp [countVersionVotes, versionVotes]
  | succ i ih =>
    intro nVotes chain
    cases chain with
    | nil => simp [countVersionVotes, versionVotes]
    | cons p chain =>
      rw [countVersionVotes, versionVotes_cons]
      by_cases hless : nVotes < nRequired
      · rw [if_pos hless, ih]
        split <;> omega
      · rw [if_neg hless]
        omega

/-- The vote on the next block counts with this loop. -/
theorem isProtocolActiveForNextBlock_cons (nSwitchTime nToCheck : Nat) :
    isProtocolActiveForNextBlock (p :: chain) nSwitchTime nProtocolVersion nRequired nToCheck =
      if nSwitchTime ≤ p.nTime ∧ p.nProtocolVersion < nProtocolVersion then
        decide (nRequired ≤ countVersionVotes nProtocolVersion nRequired nToCheck 0 (p :: chain))
      else decide (nProtocolVersion ≤ p.nProtocolVersion) := by
  have hcount := @countVersionVotes_ge_iff nProtocolVersion nRequired nToCheck 0 (p :: chain)
  rw [Nat.zero_add] at hcount
  unfold isProtocolActiveForNextBlock
  simp only [hcount, versionVotes]

theorem isNuProtocolV20NextBlock_cons : isNuProtocolV20NextBlock cfg (p :: chain) = true ↔
    protocolV2_0 ≤ p.nProtocolVersion ∨ Switches cfg (p :: chain) := by
  have htime : (∃ pprev ∈ (p :: chain).head?, protocolV2_0Time cfg ≤ pprev.nTime) ↔ protocolV2_0Time cfg ≤ p.nTime := by
    simp
  unfold isNuProtocolV20NextBlock isProtocolActiveForNextBlock Switches
  rw [htime]
  unfold protocolV2_0Time versionVotes
  by_cases hversion : p.nProtocolVersion < protocolV2_0
  · by_cases hpassed : (if cfg.fTestNet then protocolV2_0TestVoteTime else protocolV2_0VoteTime) ≤ p.nTime
    · simp only [hpassed, hversion, and_self, if_true, decide_eq_true_eq, true_and]
      omega
    · simp only [hpassed, false_and, if_false, decide_eq_true_eq, or_false]
  · simp only [hversion, and_false, if_false, decide_eq_true_eq]
    omega

/-- A chain has switched with its first block, or below it. -/
theorem switched_cons : Switched cfg (p :: chain) ↔ Switches cfg chain ∨ Switched cfg chain := by
  constructor
  · rintro ⟨above, q, chainPrev, hchain, hswitch⟩
    cases above with
    | nil =>
      cases hchain
      exact .inl hswitch
    | cons a above =>
      cases hchain
      exact .inr ⟨above, q, chainPrev, rfl, hswitch⟩
  · rintro (hswitch | ⟨above, q, chainPrev, rfl, hswitch⟩)
    · exact ⟨[], p, chain, rfl, hswitch⟩
    · exact ⟨p :: above, q, chainPrev, rfl, hswitch⟩

theorem not_switches_nil : ¬ Switches cfg [] := by
  rintro ⟨⟨pprev, hpprev, -⟩, -⟩
  cases hpprev

end Window

/-! ## The version of a block -/

/-- Every entry of the index has the version that its ancestors decide on. -/
def VersionsRecorded (cfg : Settings) (m : BlockMap) : Prop :=
  ∀ h p, m.find h = some p → p.nProtocolVersion = getProtocolForNextBlock cfg (m.prevChain p)

/-- What the version of the next block depends on, of an entry. -/
def CBlockIndex.versionData (p : CBlockIndex) : Int × Nat × Int := (p.nProtocolVersion, p.nTime, p.vote.nVersionVote)

section Version

variable {cfg : Settings} {m m' : BlockMap} {h : Uint256} {p : CBlockIndex} {chain chain' : List CBlockIndex}

theorem versionVotes_congr (nProtocolVersion : Int) (nToCheck : Nat)
    (hdata : chain.map (·.versionData) = chain'.map (·.versionData)) :
    versionVotes nProtocolVersion nToCheck chain = versionVotes nProtocolVersion nToCheck chain' := by
  have hcount : ∀ l : List CBlockIndex, versionVotes nProtocolVersion nToCheck l =
      (((l.map (·.versionData)).take nToCheck).filter (fun d => nProtocolVersion ≤ d.2.2)).length := by
    intro l
    rw [versionVotes, ← List.map_take, List.filter_map, List.length_map]
    rfl
  rw [hcount, hcount, hdata]

/-- The version behind a block, given its own version and the outcome of the vote. -/
def versionAfter (nProtocol : Int) (fActive : Bool) : Int :=
  let nProtocol := if nProtocol < protocolV2_0 ∧ fActive then protocolV2_0 else nProtocol
  if nProtocol < protocolV0_5 then protocolV0_5 else nProtocol

theorem getProtocolForNextBlock_cons :
    getProtocolForNextBlock cfg (p :: chain) =
      versionAfter p.nProtocolVersion (isNuProtocolV20NextBlock cfg (p :: chain)) :=
  rfl

/-- **The version of the next block depends on the ancestors only**: on their versions, times and votes. -/
theorem getProtocolForNextBlock_congr (hdata : chain.map (·.versionData) = chain'.map (·.versionData)) :
    getProtocolForNextBlock cfg chain = getProtocolForNextBlock cfg chain' := by
  cases chain with
  | nil =>
    cases chain' with
    | nil => rfl
    | cons p' chain' => cases hdata
  | cons p chain =>
    cases chain' with
    | nil => cases hdata
    | cons p' chain' =>
      have hvotes := versionVotes_congr protocolV2_0 protocolSwitchCountVotes hdata
      obtain ⟨hp, -⟩ := List.cons.inj hdata
      obtain ⟨hversion, htime, -⟩ : p.nProtocolVersion = p'.nProtocolVersion ∧ p.nTime = p'.nTime ∧
          p.vote.nVersionVote = p'.vote.nVersionVote := by simpa [CBlockIndex.versionData] using hp
      have hactive : isNuProtocolV20NextBlock cfg (p :: chain) = isNuProtocolV20NextBlock cfg (p' :: chain') := by
        rw [Bool.eq_iff_iff, isNuProtocolV20NextBlock_cons, isNuProtocolV20NextBlock_cons, hversion]
        simp only [Switches, hvotes, List.head?_cons, Option.mem_def, Option.some.injEq, exists_eq_left', htime]
      rw [getProtocolForNextBlock_cons, getProtocolForNextBlock_cons, hactive, hversion]

/-- **The version of a block**, when every entry has the one that its ancestors decide on: 2.0 from the first block on
whose ancestors switch, and 0.5 before. -/
theorem version_of_ancestors (hrecorded : VersionsRecorded cfg m) (hp : m.find h = some p) :
    (Switched cfg (p :: m.prevChain p) → p.nProtocolVersion = protocolV2_0) ∧
      (¬ Switched cfg (p :: m.prevChain p) → p.nProtocolVersion = protocolV0_5) := by
  refine BlockMap.chain_induction (P := fun p => (Switched cfg (p :: m.prevChain p) → p.nProtocolVersion = protocolV2_0) ∧
    (¬ Switched cfg (p :: m.prevChain p) → p.nProtocolVersion = protocolV0_5)) ?_ ?_ h p hp
  · intro h p hp hroot
    have hversion := hrecorded h p hp
    rw [BlockMap.prevChain_of_root hroot] at hversion ⊢
    rw [switched_cons]
    refine ⟨?_, fun _ => hversion⟩
    rintro (hswitch | ⟨above, q, chainPrev, hchain, -⟩)
    · exact absurd hswitch not_switches_nil
    · cases above <;> cases hchain
  · intro h p q pprev hp hq hpprev ih
    have hversion := hrecorded h p hp
    rw [BlockMap.prevChain_of_find hq hpprev] at hversion ⊢
    have hactive := @isNuProtocolV20NextBlock_cons cfg pprev (m.prevChain pprev)
    rw [getProtocolForNextBlock_cons] at hversion
    rw [switched_cons]
    by_cases hswitched : Switched cfg (pprev :: m.prevChain pprev)
    · -- the parent has version 2.0 already
      have hparent := ih.1 hswitched
      refine ⟨fun _ => ?_, fun hnot => absurd (.inr hswitched) hnot⟩
      rw [hversion, hparent]
      unfold versionAfter protocolV2_0 protocolV0_5
      simp
    · have hparent := ih.2 hswitched
      rw [hparent] at hversion hactive
      by_cases hswitch : Switches cfg (pprev :: m.prevChain pprev)
      · refine ⟨fun _ => ?_, fun hnot => absurd (.inl hswitch) hnot⟩
        rw [hversion, hactive.mpr (.inr hswitch)]
        rfl
      · refine ⟨fun hor => absurd hor (not_or.mpr ⟨hswitch, hswitched⟩), fun _ => ?_⟩
        have hoff : isNuProtocolV20NextBlock cfg (pprev :: m.prevChain pprev) = false := by
          rw [Bool.eq_false_iff]
          intro hon
          rcases hactive.mp hon with hlarge | hswitch'
          · exact absurd hlarge (by decide)
          · exact hswitch hswitch'
        rw [hversion, hoff]
        rfl

/-- **The versions never decrease** along a chain. -/
theorem version_le_of_mem_prevChain (hrecorded : VersionsRecorded cfg m) (hp : m.find h = some p) :
    ∀ q ∈ m.prevChain p, q.nProtocolVersion ≤ p.nProtocolVersion := by
  refine BlockMap.chain_induction (P := fun p => ∀ q ∈ m.prevChain p,
    q.nProtocolVersion ≤ p.nProtocolVersion) ?_ ?_ h p hp
  · intro h p hp hroot q hq
    rw [BlockMap.prevChain_of_root hroot] at hq
    cases hq
  · intro h p x pprev hp hx hpprev ih q hq
    have hversion := hrecorded h p hp
    rw [BlockMap.prevChain_of_find hx hpprev] at hversion hq
    have hle := (getProtocolForNextBlock_ge cfg (pprev :: m.prevChain pprev)).2 pprev rfl
    rw [← hversion] at hle
    rcases List.mem_cons.mp hq with rfl | hq
    · exact hle
    · exact Int.le_trans (ih q hq) hle

end Version

/-! ## Runs -/

section Runs

variable {cfg : Settings} {cr : Crypto}

/-- The data of a chain that stays when blocks are connected. -/
theorem versionData_of_accepted {l l' : List CBlockIndex} (hl : l.map (·.accepted) = l'.map (·.accepted)) :
    l.map (·.versionData) = l'.map (·.versionData) := by
  have hmap := congrArg (List.map CBlockIndex.versionData) hl
  rwa [List.map_map, List.map_map] at hmap

section Fill

variable {env : NodeContext} {s : NodeState} {block : CBlock} {r : Except Failure Unit} {pindex : CBlockIndex}

/-- The ancestors of an entry that was filled in are the chain of the block that it names. -/
theorem prevChain_of_fill {m' : BlockMap} (hgrown : ∀ h p, s.mapBlockIndex.find h = some p → m'.find h = some p)
    (hfill : run (s.fillIndex env block) (s.startIndex env block) = (r, pindex)) :
    m'.prevChain pindex = s.mapBlockIndex.chain block.hashPrevBlock := by
  have hprev : pindex.place.pprev = (s.startIndex env block).place.pprev := by rw [NodeState.startIndex_place hfill]
  replace hprev : pindex.pprev = (s.startIndex env block).pprev := hprev
  unfold NodeState.startIndex BlockMap.linked at hprev
  cases hfind : s.mapBlockIndex.find block.hashPrevBlock with
  | none =>
    rw [hfind] at hprev
    rw [BlockMap.prevChain_of_root hprev, BlockMap.chain_of_none hfind]
  | some pprev =>
    rw [hfind] at hprev
    rw [BlockMap.prevChain, show pindex.pprev = some block.hashPrevBlock from hprev, Option.map_some, Option.getD_some]
    exact (chain_of_grown hgrown hfind).2

/-- `AddToBlockIndex` computes the version from this chain. -/
theorem startIndex_version : (s.startIndex env block).nProtocolVersion =
    getProtocolForNextBlock env.cfg (s.mapBlockIndex.chain block.hashPrevBlock) := by
  unfold NodeState.startIndex BlockMap.linked
  split <;> rfl

end Fill

/-- **The index keeps the versions**: an entry records what its ancestors decide on when it is put into the index, and
its ancestors do not change. -/
theorem keepsIndex_versions : ProcessState.KeepsIndex cr cfg (VersionsRecorded cfg) where
  same m m' hsame hm := by
    intro h p' hp'
    obtain ⟨p, hp, haccepted⟩ := hsame.find hp'
    have hversion : p.accepted.nProtocolVersion = p'.accepted.nProtocolVersion := by rw [haccepted]
    have hprev : p.accepted.pprev = p'.accepted.pprev := by rw [haccepted]
    have hchain : (m'.prevChain p').map (·.accepted) = (m.prevChain p).map (·.accepted) := by
      unfold BlockMap.prevChain
      rw [← show p.pprev = p'.pprev from hprev]
      cases p.pprev with
      | none => rfl
      | some q => exact hsame.chain q
    rw [← show p.nProtocolVersion = p'.nProtocolVersion from hversion, hm h p hp]
    exact getProtocolForNextBlock_congr (versionData_of_accepted hchain).symm
  insert env s block r pindex hcr hcfg hbefore hfill hm := by
    have hfind := NodeState.find_insertIndex hbefore hfill
    have hnew := NodeState.find_of_checkBefore hbefore
    have hgrown : ∀ h p, s.mapBlockIndex.find h = some p →
        ((s.writeToDisk env block).insertIndex env block pindex).mapBlockIndex.find h = some p := by
      intro h p hp
      rw [hfind, if_neg, hp]
      rintro rfl
      rw [hnew] at hp
      cases hp
    intro h p hp
    rw [hfind] at hp
    split at hp
    · cases hp
      have hplace := NodeState.startIndex_place hfill
      have hversion : pindex.place.nProtocolVersion = (s.startIndex env block).place.nProtocolVersion := by rw [hplace]
      replace hversion : pindex.nProtocolVersion = (s.startIndex env block).nProtocolVersion := hversion
      rw [prevChain_of_fill hgrown hfill, hversion, startIndex_version, hcfg]
    · rw [(chain_of_grown hgrown hp).1]
      exact hm h p hp

end Runs

/-! ## The places that decode a vote -/

/-- The vote that `CreateNewBlock` takes from the coinstake of the block it builds upon a chain. -/
def createNewBlockVote (cfg : Settings) (chainPrev : List CBlockIndex) (pblock : CBlock) : Option CVote :=
  extractVote pblock (getProtocolForNextBlock cfg chainPrev)

/-- All places that decode the vote of a block do it with one version. -/
structure DecodedWith (env : NodeContext) (s : NodeState) (block : CBlock) (nVersion : Int) : Prop where
  /-- `AcceptBlock` -/
  accept : ∀ pindexPrev, s.checkAccept env block pindexPrev = .ok () → block.isProofOfStake = true →
    ∃ vote, extractVote block nVersion = some vote ∧ (protocolV2_0 ≤ nVersion → protocolV2_0 ≤ vote.nVersionVote)
  /-- `AddToBlockIndex` -/
  add : ∀ pindex, run (s.fillIndex env block) (s.startIndex env block) = (.ok (), pindex) →
    pindex.nProtocolVersion = nVersion ∧ (block.isProofOfStake = true → ∃ vote, extractVote block nVersion = some vote ∧
      pindex.vote = { vote with nCoinAgeDestroyed := pindex.nCoinAgeDestroyed })
  /-- `ExtractVotes` -/
  extract : ∀ nCount vVote,
    (s.coinAgeContext env).extractVotes block (s.mapBlockIndex.chain block.hashPrevBlock) nCount =
    .ok vVote → ∃ vote nCoinAge, extractVote block nVersion = some vote ∧
      vVote.head? = some { vote with nCoinAgeDestroyed := nCoinAge }
  /-- `CreateNewBlock` -/
  create : createNewBlockVote env.cfg (s.mapBlockIndex.chain block.hashPrevBlock) block = extractVote block nVersion

section Decode

variable (env : NodeContext) (s : NodeState) (block : CBlock)

/-- **One version for all**: the one that the chain before the block decides on. -/
theorem decodedWith : DecodedWith env s block
    (getProtocolForNextBlock env.cfg (s.mapBlockIndex.chain block.hashPrevBlock)) where
  accept pindexPrev hcheck hstake := by
    unfold NodeState.checkAccept at hcheck
    simp only [bind_eq_ok, rejectIf_eq_ok] at hcheck
    obtain ⟨_, -, _, -, _, -, _, -, _, -, _, -, _, hvote, _, hlow, -⟩ := hcheck
    cases hextract : extractVote block (getProtocolForNextBlock env.cfg (s.mapBlockIndex.chain block.hashPrevBlock)) with
    | none => exact absurd ⟨hstake, by rw [hextract]; rfl⟩ hvote
    | some vote =>
      refine ⟨vote, rfl, fun hversion => ?_⟩
      by_contra hless
      refine hlow ⟨hstake, hversion, ?_⟩
      rw [hextract, Option.any_some, decide_eq_true_eq]
      omega
  add pindex hfill := by
    have hplace := NodeState.startIndex_place hfill
    have hversion : pindex.place.nProtocolVersion = (s.startIndex env block).place.nProtocolVersion := by rw [hplace]
    replace hversion : pindex.nProtocolVersion = (s.startIndex env block).nProtocolVersion := hversion
    rw [startIndex_version] at hversion
    refine ⟨hversion, fun hstake => ?_⟩
    obtain ⟨vote, hvote, -, -, heq⟩ := (fillIndex_ok hfill).1.vote hstake
    exact ⟨vote, hversion ▸ hvote, heq⟩
  extract nCount vVote hextract := by
    unfold CoinAgeContext.extractVotes at hextract
    cases hvote : extractVote block (getProtocolForNextBlock env.cfg (s.mapBlockIndex.chain block.hashPrevBlock)) with
    | none =>
      rw [show (s.coinAgeContext env).cfg = env.cfg from rfl] at hextract
      simp only [hvote] at hextract
      cases hextract
    | some vote =>
      rw [show (s.coinAgeContext env).cfg = env.cfg from rfl] at hextract
      simp only [hvote] at hextract
      obtain ⟨_, -, hextract⟩ := bind_eq_ok.mp hextract
      obtain ⟨nCoinAge, -, hextract⟩ := bind_eq_ok.mp hextract
      cases hextract
      exact ⟨vote, nCoinAge, rfl, rfl⟩
  create := rfl

end Decode

/-! ## Every run -/

/-- The versions along the chains of an index: they are recorded from the ancestors, never decrease, are at least 0.5,
and are 2.0 from the first block on whose ancestors switch. -/
structure ActivatedInOrder (cfg : Settings) (m : BlockMap) : Prop where
  ancestors : VersionsRecorded cfg m
  monotone : ∀ h p, m.find h = some p → ∀ q ∈ m.prevChain p, q.nProtocolVersion ≤ p.nProtocolVersion
  atLeast : ∀ h, protocolV0_5 ≤ getProtocolForNextBlock cfg (m.chain h)
  before : ∀ h p, m.find h = some p → ¬ Switched cfg (p :: m.prevChain p) → p.nProtocolVersion = protocolV0_5
  after : ∀ h p, m.find h = some p → Switched cfg (p :: m.prevChain p) → p.nProtocolVersion = protocolV2_0

section Claim

variable (cfg : Settings) (cr : Crypto) (s₀ : ProcessState) (es : List BlockEvent)

/-- **Protocol activation.** In every state of every run whose block index starts without entries, or with the genesis
block as `AddToBlockIndex` puts it there, the versions are in order along all chains, and all places that decode the
vote of a block do it with the version that its ancestors decide on, which is the one that its entry records. -/
theorem protocolActivation
    (hgenesis : ∀ h p, s₀.mapBlockIndex.find h = some p → p.pprev = none ∧ p.nProtocolVersion = protocolV0_5) :
    Always (ProcessState.step cfg cr) (fun s => ActivatedInOrder cfg s.mapBlockIndex ∧
      ∀ (env : NodeContext) (block : CBlock), env.cfg = cfg → DecodedWith env s.toNodeState block
        (getProtocolForNextBlock cfg (s.mapBlockIndex.chain block.hashPrevBlock))) s₀ es := by
  have hstart : VersionsRecorded cfg s₀.mapBlockIndex := by
    intro h p hp
    obtain ⟨hroot, hversion⟩ := hgenesis h p hp
    rw [BlockMap.prevChain_of_root hroot, hversion]
    rfl
  have halways := (@keepsIndex_versions cfg cr).always hstart es
  intro es' hprefix
  have hrecorded := halways es' hprefix
  refine ⟨⟨hrecorded, fun h p hp => version_le_of_mem_prevChain hrecorded hp, fun h => ?_, fun h p hp => ?_,
    fun h p hp => ?_⟩, ?_⟩
  · exact (getProtocolForNextBlock_ge cfg _).1
  · exact (version_of_ancestors hrecorded hp).2
  · exact (version_of_ancestors hrecorded hp).1
  · rintro env block rfl
    exact decodedWith env _ block

end Claim

/-- A node that knows the genesis block, with its version. -/
def versionedNode : ProcessState where
  toNodeState := { genesisNode with
    mapBlockIndex := BlockMap.empty.insert hashGenesisBlockOfficial 0
      { nChainTrust := 1, fStakeModifier := true, nTime := 1400000000, nBits := 0x1e0fffff, nProtocolVersion := protocolV0_5 } }

/-- A peer sends a block above it. -/
def sentAboveGenesis : BlockEvent where
  block := minedAbove.block
  fFrom := true
  nAdjustedTime := 1400000060
  fuel := 2

/-- The block comes into the index, with version 0.5. -/
theorem protocolActivation_sample :
    ((versionedNode.step noCheckpoints Crypto.sample sentAboveGenesis).mapBlockIndex.find 2).map (·.nProtocolVersion) =
        some protocolV0_5 ∧
      ActivatedInOrder noCheckpoints (versionedNode.step noCheckpoints Crypto.sample sentAboveGenesis).mapBlockIndex := by
  have hgenesis : ∀ h p, versionedNode.mapBlockIndex.find h = some p → p.pprev = none ∧
    p.nProtocolVersion = protocolV0_5 := by
    intro h p hp
    rw [show versionedNode.mapBlockIndex = BlockMap.empty.insert hashGenesisBlockOfficial 0 _ from rfl,
      BlockMap.find_insert] at hp
    rcases Option.or_eq_some_iff.mp hp with hnone | ⟨-, hp⟩
    · cases hnone
    · split at hp
      · cases hp
        exact ⟨rfl, rfl⟩
      · cases hp
  exact ⟨by decide +kernel,
    (protocolActivation noCheckpoints Crypto.sample versionedNode [sentAboveGenesis] hgenesis _ List.prefix_rfl).1⟩

end Morcochain
