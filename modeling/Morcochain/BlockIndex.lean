import Morcochain.Vote

/-!
# The block index

`CBlockIndex` and the map of all block indexes (`main.h`, `blockmap.h`), with block hashes in the place of pointers. A
`BlockMap` carries its own well-formedness: every entry is stored under its hash, and the predecessor of an entry is an
entry one lower. So the chain that ends at an entry can be walked to its root.

* `chain_of_find` : the chain of an entry is the entry and the chain of its predecessor.
* `BlockMap.chain_induction` : **the induction over predecessors**.
* `findFork` : the search of `SetBestChain` for the last common block of two chains.
-/

set_option autoImplicit false

namespace Morcochain

/-! ## Settings of the network -/

/-- The network that the node runs on. -/
structure Settings where
  fTestNet : Bool := false
  /-- `-checkpoints` -/
  fCheckpoints : Bool := true
deriving DecidableEq, Repr

def hashGenesisBlockOfficial : Uint256 := 0x000003cc2da5a0a289ad0a590c20a8b975219ddc1204efd169e947dd4cbad73f
def hashGenesisBlockTestNet : Uint256 := 0x000005fa4ce5f6fefe0d7faee4708051527a35f6c918a03d8fdf077ac4845933

namespace Settings

def hashGenesisBlock (cfg : Settings) : Uint256 :=
  if cfg.fTestNet then hashGenesisBlockTestNet else hashGenesisBlockOfficial

def nStakeMinAge (cfg : Settings) : Nat := if cfg.fTestNet then 300 else stakeMinAge.toNat
def nCoinbaseMaturity (cfg : Settings) : Int := if cfg.fTestNet then 60 else 100
def nCoinstakeMaturity (cfg : Settings) : Int := if cfg.fTestNet then 60 else 5000
def nModifierInterval (cfg : Settings) : Nat := if cfg.fTestNet then 60 * 20 else 4 * 60 * 60

end Settings

def bnProofOfWorkLimit : Int := (2 ^ 256 - 1) >>> 20

/-! ## Compact targets -/

/-- `CBigNum::SetCompact`. -/
def setCompact (nCompact : Nat) : Int :=
  let nSize := nCompact >>> 24
  let nWord := nCompact &&& 0x007fffff
  let magnitude : Nat := if nSize ≤ 3 then nWord >>> (8 * (3 - nSize)) else nWord <<< (8 * (nSize - 3))
  if nCompact &&& 0x00800000 ≠ 0 then -(magnitude : Int) else magnitude

/-- `BN_num_bytes`. -/
def numBytes (x : Int) : Nat := if x = 0 then 0 else Nat.log2 x.natAbs / 8 + 1

/-- `CBigNum::GetCompact`. The result is an `unsigned int`: a size from 256 on does not fit. -/
def getCompact (x : Int) : Nat :=
  let nSize := numBytes x
  let nCompact := if nSize ≤ 3 then x.natAbs <<< (8 * (3 - nSize)) else x.natAbs >>> (8 * (nSize - 3))
  let (nCompact, nSize) :=
    if nCompact &&& 0x00800000 ≠ 0 then (nCompact >>> 8, nSize + 1) else (nCompact, nSize)
  (nCompact ||| nSize <<< 24 ||| (if x < 0 then 0x00800000 else 0)) % 2 ^ 32

/-! ## Entries -/

/-- `CBlockIndex`. The flags are separate fields. -/
structure CBlockIndex where
  phashBlock : Uint256 := 0
  pprev : Option Uint256 := none
  pnext : Option Uint256 := none
  nHeight : Nat := 0
  nChainTrust : Uint256 := 0
  nTx : Nat := 0
  nChainTx : Nat := 0
  nStatus : Nat := 0
  nMint : Int := 0
  mapMoneySupply : CUnitMap Int := {}
  mapTotalParked : CUnitMap Int := {}
  fProofOfStake : Bool := false
  fStakeEntropy : Bool := false
  fStakeModifier : Bool := false
  nStakeModifier : UInt64 := 0
  nStakeModifierChecksum : Nat := 0
  prevoutStake : COutPoint := {}
  nStakeTime : Nat := 0
  hashProofOfStake : Uint256 := 0
  vote : CVote := CVote.null
  vParkRateResult : List CParkRateVote := []
  nCoinAgeDestroyed : Nat := 0
  vElectedCustodian : List CCustodianVote := []
  nProtocolVersion : Int := 0
  mapVotedFee : CUnitMap Nat := {}
  pprevElected : Option Uint256 := none
  nVersion : Int := 0
  hashMerkleRoot : Uint256 := 0
  nTime : Nat := 0
  nBits : Nat := 0
  nNonce : Nat := 0
deriving DecidableEq, Repr

namespace CBlockIndex

/-- `CBlockIndex(CBlock&)`. -/
def ofBlock (block : CBlock) : CBlockIndex :=
  { fProofOfStake := block.isProofOfStake
    prevoutStake := block.prevoutStake
    nStakeTime := block.nStakeTime
    nVersion := block.nVersion
    hashMerkleRoot := block.hashMerkleRoot
    nTime := block.nTime
    nBits := block.nBits
    nNonce := block.nNonce }

/-- `CBlockIndex::IsProofOfStake`. -/
def isProofOfStake (pindex : CBlockIndex) : Bool := pindex.fProofOfStake

/-- `CBlockIndex::GeneratedStakeModifier`. -/
def generatedStakeModifier (pindex : CBlockIndex) : Bool := pindex.fStakeModifier

/-- `CBlockIndex::GetBlockTime`. -/
def getBlockTime (pindex : CBlockIndex) : Int := pindex.nTime

/-- `CBlockIndex::GetBlockTrust`. -/
def getBlockTrust (pindex : CBlockIndex) : Int :=
  let bnTarget := setCompact pindex.nBits
  if bnTarget ≤ 0 then 0 else if pindex.isProofOfStake then Int.tdiv (2 ^ 256) (bnTarget + 1) else 1

/-- `CBlockIndex::GetMoneySupply`. -/
def getMoneySupply (pindex : CBlockIndex) (cUnit : CUnit) : Int :=
  ((pindex.mapMoneySupply.get? cUnit).getD none).getD 0

/-- `CBlockIndex::GetTotalParked`. -/
def getTotalParked (pindex : CBlockIndex) (cUnit : CUnit) : Int :=
  ((pindex.mapTotalParked.get? cUnit).getD none).getD 0

end CBlockIndex

/-- `enum BlockStatus`. -/
def blockValidTransactions : Nat := 3
def blockValidScripts : Nat := 5
def blockValidMask : Nat := 7
def blockHaveData : Nat := 8
def blockHaveUndo : Nat := 16
def blockFailedValid : Nat := 32
def blockFailedChild : Nat := 64
def blockFailedMask : Nat := 96

/-- The block or an ancestor of it is marked as failed. -/
def CBlockIndex.isFailed (pindex : CBlockIndex) : Bool := pindex.nStatus &&& blockFailedMask != 0

/-- The block itself is marked as failed. -/
def CBlockIndex.isFailedValid (pindex : CBlockIndex) : Bool := pindex.nStatus &&& blockFailedValid != 0

theorem CBlockIndex.isFailedValid_eq (pindex : CBlockIndex) : pindex.isFailedValid = pindex.nStatus.testBit 5 := by
  have h : pindex.nStatus &&& 2 ^ 5 = (pindex.nStatus.testBit 5).toNat * 2 ^ 5 := Nat.and_two_pow _ _
  rw [isFailedValid, show blockFailedValid = 2 ^ 5 from rfl, h]
  cases pindex.nStatus.testBit 5 <;> rfl

/-- A block that is being marked is marked. -/
theorem CBlockIndex.isFailedValid_or (pindex : CBlockIndex) :
    ({ pindex with nStatus := pindex.nStatus ||| blockFailedValid } : CBlockIndex).isFailedValid = true := by
  rw [isFailedValid_eq, Nat.testBit_or, show (blockFailedValid).testBit 5 = true by decide, Bool.or_true]

/-! ## The map -/

/-- What an entry's predecessor is in a map. -/
def PrevIn (find : Uint256 → Option CBlockIndex) (pindex : CBlockIndex) : Prop :=
  (pindex.pprev = none ∧ pindex.nHeight = 0) ∨
    ∃ q pprev, pindex.pprev = some q ∧ find q = some pprev ∧ pindex.nHeight = pprev.nHeight + 1

/-- `mapBlockIndex`. -/
structure BlockMap where
  find : Uint256 → Option CBlockIndex
  hash_eq : ∀ h pindex, find h = some pindex → pindex.phashBlock = h
  prev_in : ∀ h pindex, find h = some pindex → PrevIn find pindex

namespace BlockMap

/-- The map without entries. -/
def empty : BlockMap where
  find _ := none
  hash_eq _ _ h := nomatch h
  prev_in _ _ h := nomatch h

/-- The entry under its hash, linked to the predecessor it names when that one is in the map. -/
def linked (m : BlockMap) (hash hashPrevBlock : Uint256) (pindex : CBlockIndex) : CBlockIndex :=
  match m.find hashPrevBlock with
  | some pprev => { pindex with phashBlock := hash, pprev := some hashPrevBlock, nHeight := pprev.nHeight + 1 }
  | none => { pindex with phashBlock := hash, pprev := none, nHeight := 0 }

theorem linked_phashBlock (m : BlockMap) (hash hashPrevBlock : Uint256) (pindex : CBlockIndex) :
    (m.linked hash hashPrevBlock pindex).phashBlock = hash := by
  unfold linked
  split <;> rfl

theorem linked_prevIn (m : BlockMap) (hash hashPrevBlock : Uint256) (pindex : CBlockIndex) :
    PrevIn m.find (m.linked hash hashPrevBlock pindex) := by
  unfold linked
  split
  · rename_i pprev h
    exact .inr ⟨hashPrevBlock, pprev, rfl, h, rfl⟩
  · exact .inl ⟨rfl, rfl⟩

/-- Insert an entry for a hash that is not in the map, linked to its predecessor; a hash that is there keeps its
entry. -/
def insert (m : BlockMap) (hash hashPrevBlock : Uint256) (pindex : CBlockIndex) : BlockMap where
  find h := (m.find h).or (if h = hash then some (m.linked hash hashPrevBlock pindex) else none)
  hash_eq h p hp := by
    rcases Option.or_eq_some_iff.mp hp with hp | ⟨-, hp⟩
    · exact m.hash_eq h p hp
    · split at hp
      · rename_i hh
        cases hp
        rw [hh]
        exact m.linked_phashBlock ..
      · cases hp
  prev_in h p hp := by
    have hprev : PrevIn m.find p := by
      rcases Option.or_eq_some_iff.mp hp with hp | ⟨-, hp⟩
      · exact m.prev_in h p hp
      · split at hp
        · cases hp
          exact m.linked_prevIn ..
        · cases hp
    refine hprev.imp_right fun ⟨q, pprev, hq, hf, hn⟩ => ⟨q, pprev, hq, ?_, hn⟩
    simp only [hf, Option.some_or]

/-- The entry with some of its fields changed; its hash, predecessor and height stay. -/
def updated (f : CBlockIndex → CBlockIndex) (pindex : CBlockIndex) : CBlockIndex :=
  { f pindex with phashBlock := pindex.phashBlock, pprev := pindex.pprev, nHeight := pindex.nHeight }

/-- Change fields of the entry of a hash. -/
def modify (m : BlockMap) (hash : Uint256) (f : CBlockIndex → CBlockIndex) : BlockMap where
  find h := if h = hash then (m.find h).map (updated f) else m.find h
  hash_eq h p hp := by
    split at hp
    · obtain ⟨p', hp', rfl⟩ := Option.map_eq_some_iff.mp hp
      exact m.hash_eq h p' hp'
    · exact m.hash_eq h p hp
  prev_in h p hp := by
    obtain ⟨p', hp', hpp, hn⟩ : ∃ p', m.find h = some p' ∧ p.pprev = p'.pprev ∧ p.nHeight = p'.nHeight := by
      split at hp
      · obtain ⟨p', hp', rfl⟩ := Option.map_eq_some_iff.mp hp
        exact ⟨p', hp', rfl, rfl⟩
      · exact ⟨p, hp, rfl, rfl⟩
    rcases m.prev_in h p' hp' with ⟨h₁, h₂⟩ | ⟨q, pprev, h₁, h₂, h₃⟩
    · exact .inl ⟨hpp.trans h₁, hn.trans h₂⟩
    · by_cases hq : q = hash
      · exact .inr ⟨q, updated f pprev, hpp.trans h₁, by simp only [if_pos hq, h₂, Option.map_some], hn.trans h₃⟩
      · exact .inr ⟨q, pprev, hpp.trans h₁, by simp only [if_neg hq, h₂], hn.trans h₃⟩

theorem find_insert (m : BlockMap) (hash hashPrevBlock : Uint256) (pindex : CBlockIndex) (h : Uint256) :
    (m.insert hash hashPrevBlock pindex).find h =
      (m.find h).or (if h = hash then some (m.linked hash hashPrevBlock pindex) else none) := rfl

theorem find_modify (m : BlockMap) (hash : Uint256) (f : CBlockIndex → CBlockIndex) (h : Uint256) :
    (m.modify hash f).find h = if h = hash then (m.find h).map (updated f) else m.find h := rfl

/-- An insertion keeps what is in the map. -/
theorem find_insert_of_some {m : BlockMap} {h : Uint256} {p : CBlockIndex} (hp : m.find h = some p)
    (hash hashPrevBlock : Uint256) (pindex : CBlockIndex) : (m.insert hash hashPrevBlock pindex).find h = some p := by
  rw [find_insert, hp, Option.some_or]

/-! ## Chains -/

/-- Walk from an entry to its predecessors, `fuel` entries at most. -/
def walk (find : Uint256 → Option CBlockIndex) : Nat → Option Uint256 → List CBlockIndex
  | 0, _ => []
  | _, none => []
  | fuel + 1, some h =>
    match find h with
    | none => []
    | some pindex => pindex :: walk find fuel pindex.pprev

/-- The chain that ends at a block, from the block down to its root. -/
def chain (m : BlockMap) (h : Uint256) : List CBlockIndex :=
  match m.find h with
  | none => []
  | some pindex => walk m.find (pindex.nHeight + 1) (some h)

/-- The chain that ends at the predecessor of an entry. -/
def prevChain (m : BlockMap) (pindex : CBlockIndex) : List CBlockIndex := (pindex.pprev.map m.chain).getD []

theorem chain_of_none {m : BlockMap} {h : Uint256} (hp : m.find h = none) : m.chain h = [] := by rw [chain, hp]

/-- The chain of an entry is the entry and the chain of its predecessor. -/
theorem chain_of_find {m : BlockMap} {h : Uint256} {p : CBlockIndex} (hp : m.find h = some p) :
    m.chain h = p :: m.prevChain p := by
  have hchain : m.chain h = p :: walk m.find p.nHeight p.pprev := by
    rw [chain, hp]
    simp only [walk, hp]
  rw [hchain, prevChain]
  congr 1
  rcases m.prev_in h p hp with ⟨h₁, h₂⟩ | ⟨q, pp, h₁, h₂, h₃⟩
  · rw [h₁, h₂]
    rfl
  · rw [h₁, h₃, Option.map_some, Option.getD_some, chain, h₂]

theorem prevChain_of_root {m : BlockMap} {p : CBlockIndex} (hroot : p.pprev = none) : m.prevChain p = [] := by
  rw [prevChain, hroot]
  rfl

theorem prevChain_of_find {m : BlockMap} {p pprev : CBlockIndex} {q : Uint256} (hq : p.pprev = some q)
    (hpprev : m.find q = some pprev) : m.prevChain p = pprev :: m.prevChain pprev := by
  rw [prevChain, hq, Option.map_some, Option.getD_some, chain_of_find hpprev]

/-- **The induction over predecessors.** -/
theorem chain_induction {m : BlockMap} {P : CBlockIndex → Prop}
    (root : ∀ h p, m.find h = some p → p.pprev = none → P p)
    (succ : ∀ h p q pprev, m.find h = some p → p.pprev = some q → m.find q = some pprev → P pprev → P p) :
    ∀ h p, m.find h = some p → P p := by
  suffices hn : ∀ n h p, p.nHeight = n → m.find h = some p → P p from fun h p hp => hn p.nHeight h p rfl hp
  intro n
  induction n with
  | zero =>
    intro h p hn hp
    rcases m.prev_in h p hp with ⟨h₁, -⟩ | ⟨q, pp, -, -, h₃⟩
    · exact root h p hp h₁
    · omega
  | succ n ih =>
    intro h p hn hp
    rcases m.prev_in h p hp with ⟨h₁, -⟩ | ⟨q, pp, h₁, h₂, h₃⟩
    · exact root h p hp h₁
    · exact succ h p q pp hp h₁ h₂ (ih q pp (by omega) h₂)

/-- A chain has one block for each height. -/
theorem length_chain {m : BlockMap} {h : Uint256} {p : CBlockIndex} (hp : m.find h = some p) :
    (m.chain h).length = p.nHeight + 1 := by
  rw [chain_of_find hp]
  refine chain_induction (P := fun p => (p :: m.prevChain p).length = p.nHeight + 1) ?_ ?_ h p hp
  · intro x p hp hroot
    obtain ⟨-, hheight⟩ | ⟨q, pprev, hq, -, -⟩ := m.prev_in x p hp
    · rw [prevChain, hroot, hheight]
      rfl
    · rw [hroot] at hq
      cases hq
  · intro x p q pprev hp hq hpprev ih
    obtain ⟨hnone, -⟩ | ⟨q', pp, hq', hpp, hheight⟩ := m.prev_in x p hp
    · rw [hq] at hnone
      cases hnone
    · rw [hq, Option.some.injEq] at hq'
      subst hq'
      rw [hpprev, Option.some.injEq] at hpp
      subst hpp
      rw [prevChain, hq, Option.map_some, Option.getD_some, chain_of_find hpprev, List.length_cons, ih, hheight]

/-- The entries of a chain are those of the map. -/
theorem find_of_mem_chain {m : BlockMap} {h : Uint256} {q : CBlockIndex} (hq : q ∈ m.chain h) :
    m.find q.phashBlock = some q := by
  cases hp : m.find h with
  | none =>
    rw [chain_of_none hp] at hq
    cases hq
  | some p =>
    refine chain_induction (P := fun p => ∀ q ∈ p :: m.prevChain p, m.find q.phashBlock = some q) ?_ ?_ h p hp q
      (by rwa [chain_of_find hp] at hq)
    · intro h p hp hroot q hq
      simp only [prevChain, hroot, Option.map_none, Option.getD_none, List.mem_singleton] at hq
      rw [hq, m.hash_eq h p hp, hp]
    · intro h p r pprev hp hr hpr ih q hq
      rcases List.mem_cons.mp hq with rfl | hq
      · rw [m.hash_eq h q hp, hp]
      · rw [prevChain, hr, Option.map_some, Option.getD_some, chain_of_find hpr] at hq
        exact ih q hq

/-- The heights of a chain decrease. -/
theorem chain_heights (m : BlockMap) (h : Uint256) : (m.chain h).Pairwise (fun a b => b.nHeight < a.nHeight) := by
  cases hp : m.find h with
  | none =>
    rw [chain_of_none hp]
    exact .nil
  | some p =>
    rw [chain_of_find hp]
    refine chain_induction (P := fun p => (p :: m.prevChain p).Pairwise (fun a b => b.nHeight < a.nHeight)) ?_ ?_ h p hp
    · intro h p hp hroot
      rw [prevChain, hroot]
      exact List.pairwise_singleton _ _
    · intro h p q pprev hp hq hpr ih
      obtain ⟨hnone, -⟩ | ⟨q', pp, hq', hpp, hheight⟩ := m.prev_in h p hp
      · rw [hq] at hnone
        cases hnone
      rw [hq, Option.some.injEq] at hq'
      subst hq'
      rw [hpr, Option.some.injEq] at hpp
      subst hpp
      rw [prevChain, hq, Option.map_some, Option.getD_some, chain_of_find hpr]
      refine List.pairwise_cons.mpr ⟨fun a ha => ?_, ih⟩
      rcases List.mem_cons.mp ha with rfl | ha
      · omega
      · have hlt := (List.pairwise_cons.mp ih).1 a ha
        omega

/-- A chain has no block twice. -/
theorem nodup_chain (m : BlockMap) (h : Uint256) : (m.chain h).Nodup :=
  (m.chain_heights h).imp (S := fun a b => a ≠ b) fun hlt heq => absurd (heq ▸ hlt) (Nat.lt_irrefl _)

/-- What holds between each block of a chain and the blocks below it holds along the chain. -/
theorem pairwise_chain {m : BlockMap} {R : CBlockIndex → CBlockIndex → Prop} {h : Uint256}
    (hR : ∀ p ∈ m.chain h, ∀ q ∈ m.prevChain p, R p q) : (m.chain h).Pairwise R := by
  cases hp : m.find h with
  | none =>
    rw [chain_of_none hp]
    exact .nil
  | some p =>
    rw [chain_of_find hp] at hR ⊢
    refine chain_induction (P := fun p => (∀ a ∈ p :: m.prevChain p, ∀ q ∈ m.prevChain a, R a q) →
      (p :: m.prevChain p).Pairwise R) ?_ ?_ h p hp hR
    · intro h p hp hroot _
      rw [prevChain_of_root hroot]
      exact List.pairwise_singleton _ _
    · intro h p q pprev hp hq hpprev ih hR
      refine List.pairwise_cons.mpr ⟨hR p List.mem_cons_self, ?_⟩
      rw [prevChain_of_find hq hpprev] at hR ⊢
      exact ih fun a ha => hR a (List.mem_cons_of_mem _ ha)

/-- Down the predecessors of an entry there is one without a predecessor. -/
theorem exists_root {m : BlockMap} {h : Uint256} {p : CBlockIndex} (hp : m.find h = some p) :
    ∃ r ∈ m.chain h, r.pprev = none := by
  rw [chain_of_find hp]
  refine chain_induction (P := fun p => ∃ r ∈ p :: m.prevChain p, r.pprev = none) ?_ ?_ h p hp
  · exact fun _ p _ hroot => ⟨p, List.mem_cons_self, hroot⟩
  · rintro _ p q pprev - hq hpprev ⟨r, hr, hroot⟩
    exact ⟨r, List.mem_cons_of_mem _ (prevChain_of_find hq hpprev ▸ hr), hroot⟩

/-- Below a block of a chain stands the chain of that block. -/
theorem chain_split {m : BlockMap} {h : Uint256} {f : CBlockIndex} (hf : f ∈ m.chain h) :
    ∃ above, m.chain h = above ++ m.chain f.phashBlock ∧ ∀ p ∈ above, f.nHeight < p.nHeight := by
  cases hp : m.find h with
  | none =>
    rw [chain_of_none hp] at hf
    cases hf
  | some p =>
    have hheights := m.chain_heights h
    rw [chain_of_find hp] at hf hheights ⊢
    refine chain_induction (P := fun p => f ∈ p :: m.prevChain p → (p :: m.prevChain p).Pairwise (fun a b => b.nHeight <
      a.nHeight) → ∃ above, p :: m.prevChain p = above ++ m.chain f.phashBlock ∧ ∀ q ∈ above, f.nHeight < q.nHeight)
      ?_ ?_ h p hp hf hheights
    · intro h p hp hroot hf hheights
      have hnil : m.prevChain p = [] := by rw [prevChain, hroot]; rfl
      rw [hnil, List.mem_singleton] at hf
      refine ⟨[], ?_, List.forall_mem_nil _⟩
      rw [hf, m.hash_eq h p hp, chain_of_find hp, List.nil_append]
    · intro h p q pprev hp hq hpr ih hf hheights
      rcases List.mem_cons.mp hf with rfl | hf'
      · refine ⟨[], ?_, List.forall_mem_nil _⟩
        rw [m.hash_eq h f hp, chain_of_find hp, List.nil_append]
      · have hprev : m.prevChain p = pprev :: m.prevChain pprev := by
          rw [prevChain, hq, Option.map_some, Option.getD_some, chain_of_find hpr]
        obtain ⟨hlt, hheights'⟩ := List.pairwise_cons.mp hheights
        obtain ⟨above, habove, hgt⟩ := ih (hprev ▸ hf') (hprev ▸ hheights')
        refine ⟨p :: above, by rw [hprev, habove, List.cons_append], fun a ha => ?_⟩
        rcases List.mem_cons.mp ha with rfl | ha
        · exact hlt f hf'
        · exact hgt a ha

/-- The predecessor of a block of a chain is in the chain, below the top. -/
theorem prev_mem_tail {m : BlockMap} {h : Uint256} {p : CBlockIndex} {q : Uint256} (hp : p ∈ m.chain h)
    (hq : p.pprev = some q) : q ∈ ((m.chain h).map (·.phashBlock)).tail := by
  obtain ⟨above, hsplit, -⟩ := chain_split hp
  have hfind := find_of_mem_chain hp
  obtain ⟨hnone, -⟩ | ⟨q', pprev, hq', hpprev, -⟩ := m.prev_in _ p hfind
  · rw [hq] at hnone
    cases hnone
  rw [hq, Option.some.injEq] at hq'
  subst hq'
  have hmem : q ∈ (m.prevChain p).map (·.phashBlock) := by
    rw [prevChain, hq, Option.map_some, Option.getD_some, chain_of_find hpprev]
    exact List.mem_map.mpr ⟨pprev, List.mem_cons_self, m.hash_eq q pprev hpprev⟩
  rw [hsplit, chain_of_find hfind]
  cases above with
  | nil => simpa using hmem
  | cons a above =>
    rw [List.cons_append, List.map_cons, List.tail_cons, List.map_append, List.mem_append, List.map_cons]
    exact .inr (List.mem_cons_of_mem _ hmem)

/-- What stands below the top of a chain is the predecessor of a block of the chain. -/
theorem exists_next_of_mem_tail {m : BlockMap} {h : Uint256} {q : Uint256}
    (hq : q ∈ ((m.chain h).map (·.phashBlock)).tail) : ∃ p ∈ m.chain h, p.pprev = some q := by
  cases hp : m.find h with
  | none =>
    rw [chain_of_none hp] at hq
    cases hq
  | some p =>
    rw [chain_of_find hp] at hq ⊢
    refine chain_induction (P := fun p => q ∈ ((p :: m.prevChain p).map (·.phashBlock)).tail →
      ∃ a ∈ p :: m.prevChain p, a.pprev = some q) ?_ ?_ h p hp hq
    · intro h p hp hroot hq
      rw [prevChain, hroot] at hq
      cases hq
    · intro h p r pprev hp hr hpr ih hq
      have hprev : m.prevChain p = pprev :: m.prevChain pprev := by
        rw [prevChain, hr, Option.map_some, Option.getD_some, chain_of_find hpr]
      rw [List.map_cons, List.tail_cons, hprev, List.map_cons, List.mem_cons, m.hash_eq r pprev hpr] at hq
      rcases hq with rfl | hq
      · exact ⟨p, List.mem_cons_self, hr⟩
      · obtain ⟨a, ha, haq⟩ := ih (by rw [List.map_cons, List.tail_cons]; exact hq)
        exact ⟨a, List.mem_cons_of_mem _ (hprev ▸ ha), haq⟩

/-- A block is an ancestor of another block, or the block itself. -/
def InChain (m : BlockMap) (a h : Uint256) : Prop := ∃ p ∈ m.chain h, p.phashBlock = a

/-- A block of a chain is in the map. -/
theorem find_of_inChain {m : BlockMap} {a h : Uint256} (ha : m.InChain a h) : ∃ p, m.find a = some p := by
  obtain ⟨p, hp, rfl⟩ := ha
  exact ⟨p, find_of_mem_chain hp⟩

theorem inChain_self {m : BlockMap} {h : Uint256} {p : CBlockIndex} (hp : m.find h = some p) : m.InChain h h :=
  ⟨p, by rw [chain_of_find hp]; exact List.mem_cons_self, m.hash_eq h p hp⟩

/-- Two maps with the same blocks, each with the same predecessor. -/
def SameLinks (m m' : BlockMap) : Prop :=
  ∀ h, (m'.find h).map (fun p => (p.phashBlock, p.pprev, p.nHeight)) =
    (m.find h).map (fun p => (p.phashBlock, p.pprev, p.nHeight))

theorem SameLinks.refl (m : BlockMap) : SameLinks m m := fun _ => rfl

theorem SameLinks.symm {m m' : BlockMap} (h : SameLinks m m') : SameLinks m' m := fun x => (h x).symm

theorem SameLinks.trans {m m' m'' : BlockMap} (h : SameLinks m m') (h' : SameLinks m' m'') : SameLinks m m'' :=
  fun x => (h' x).trans (h x)

theorem sameLinks_modify (m : BlockMap) (hash : Uint256) (f : CBlockIndex → CBlockIndex) :
    SameLinks m (m.modify hash f) := by
  intro h
  rw [find_modify]
  split
  · rw [Option.map_map]
    rfl
  · rfl

/-- The entry of a block in one map has a counterpart with the same predecessor in the other. -/
theorem SameLinks.find {m m' : BlockMap} (hs : SameLinks m m') {h : Uint256} {p' : CBlockIndex}
    (hp : m'.find h = some p') :
    ∃ p, m.find h = some p ∧ p.phashBlock = p'.phashBlock ∧ p.pprev = p'.pprev ∧ p.nHeight = p'.nHeight := by
  have hh := hs h
  rw [hp, Option.map_some] at hh
  obtain ⟨p, hp, hlinks⟩ := Option.map_eq_some_iff.mp hh.symm
  simp only [Prod.mk.injEq] at hlinks
  exact ⟨p, hp, hlinks⟩

theorem walk_hashes {m m' : BlockMap} (hs : SameLinks m m') : ∀ (fuel : Nat) (o : Option Uint256),
    (walk m'.find fuel o).map (·.phashBlock) = (walk m.find fuel o).map (·.phashBlock)
  | 0, _ => rfl
  | _ + 1, none => rfl
  | fuel + 1, some h => by
    have hh := hs h
    rw [walk, walk]
    cases hp : m.find h with
    | none =>
      rw [hp, Option.map_none, Option.map_eq_none_iff] at hh
      rw [hh]
    | some p =>
      obtain ⟨p', hp', h₁, h₂, -⟩ := hs.symm.find hp
      rw [hp']
      simp only [List.map_cons, h₁, h₂, walk_hashes hs fuel p.pprev]

/-- The chains of two such maps have the same blocks. -/
theorem chain_hashes {m m' : BlockMap} (hs : SameLinks m m') (h : Uint256) :
    (m'.chain h).map (·.phashBlock) = (m.chain h).map (·.phashBlock) := by
  have hh := hs h
  cases hp : m.find h with
  | none =>
    rw [hp, Option.map_none, Option.map_eq_none_iff] at hh
    rw [chain_of_none hp, chain_of_none hh]
  | some p =>
    obtain ⟨p', hp', -, -, hheight⟩ := hs.symm.find hp
    rw [chain, chain, hp, hp']
    simp only [hheight, walk_hashes hs]

theorem inChain_congr {m m' : BlockMap} (hs : SameLinks m m') {a h : Uint256} : m'.InChain a h ↔ m.InChain a h := by
  have hmem : ∀ n : BlockMap, n.InChain a h ↔ a ∈ (n.chain h).map (·.phashBlock) := fun n => List.mem_map.symm
  rw [hmem, hmem, chain_hashes hs]

theorem pred_in_line {h n : Nat} (hh : 1 ≤ h ∧ h ≤ n + 1) (h1 : ¬ h = 1) :
    (1 ≤ h - 1 ∧ h - 1 ≤ n + 1) ∧ h - 1 = h - 1 - 1 + 1 := by omega

/-- A chain of blocks with the hashes from `1` on, one for each height up to `n`. -/
def line (n : Nat) (entry : Nat → CBlockIndex) : BlockMap where
  find h := if 1 ≤ h ∧ h ≤ n + 1 then some { entry (h - 1) with
    phashBlock := h, pprev := if h = 1 then none else some (h - 1), nHeight := h - 1 } else none
  hash_eq h p hp := by
    split at hp
    · cases hp
      rfl
    · cases hp
  prev_in h p hp := by
    split at hp
    · rename_i hh
      cases hp
      by_cases h1 : h = 1
      · exact .inl ⟨if_pos h1, by rw [h1]⟩
      · obtain ⟨hlt, hheight⟩ := pred_in_line hh h1
        exact .inr ⟨h - 1, _, if_neg h1, if_pos hlt, hheight⟩
    · cases hp

end BlockMap

/-! ## Two chains -/

/-- The search of `SetBestChain` for the fork: down from the best block, and down the new chain to the same height.
`none` when there is no best block, or where the search would fail an assertion. -/
def findFork : List CBlockIndex → List CBlockIndex → Option CBlockIndex
  | [], _ => none
  | pfork :: rest, longer =>
    match longer.dropWhile (fun plonger => plonger.nHeight > pfork.nHeight) with
    | [] => none
    | plonger :: longer' =>
      if plonger.phashBlock = pfork.phashBlock then some pfork else findFork rest (plonger :: longer')

/-- The blocks of a chain above the fork, from the highest on. -/
def aboveFork (pfork : Option CBlockIndex) (chain : List CBlockIndex) : List CBlockIndex :=
  chain.takeWhile (fun pindex => pfork.map (·.phashBlock) ≠ some pindex.phashBlock)

/-- `vDisconnect` of `SetBestChain`. -/
def disconnected (best new : List CBlockIndex) : List CBlockIndex := aboveFork (findFork best new) best

/-- `vConnect` of `SetBestChain`. -/
def connected (best new : List CBlockIndex) : List CBlockIndex := (aboveFork (findFork best new) new).reverse

/-- The fork is a block of both chains, and no block of the new chain above it is in the best chain. -/
theorem findFork_spec {pfork : CBlockIndex} : ∀ {best new : List CBlockIndex},
    best.Pairwise (fun a b => b.nHeight < a.nHeight) → new.Pairwise (fun a b => b.nHeight < a.nHeight) →
    (∀ a ∈ best, ∀ b ∈ new, a.phashBlock = b.phashBlock → a = b) → findFork best new = some pfork →
      pfork ∈ best ∧ pfork ∈ new ∧ ∀ b ∈ new, pfork.nHeight < b.nHeight → b ∉ best
  | [], _, _, _, _, h => nomatch h
  | p :: best, new, hbest, hnew, hinj, h => by
    rw [findFork] at h
    split at h
    · cases h
    · rename_i plonger longer hdrop
      have hsuffix : plonger :: longer <:+ new := hdrop ▸ List.dropWhile_suffix _
      have hnew' := hnew.sublist hsuffix.sublist
      have hlow : plonger.nHeight ≤ p.nHeight := by
        have hhead := List.head?_dropWhile_not (fun plonger : CBlockIndex => decide (plonger.nHeight > p.nHeight)) new
        rw [hdrop] at hhead
        simpa using hhead
      -- what is dropped is above the block `p`
      have hdropped : ∀ b ∈ new, b.nHeight ≤ p.nHeight → b ∈ plonger :: longer := by
        intro b hb hle
        rw [← List.takeWhile_append_dropWhile (p := fun plonger : CBlockIndex => decide (plonger.nHeight > p.nHeight))
          (l := new), List.mem_append, hdrop] at hb
        refine hb.resolve_left fun htake => ?_
        have hgt := List.mem_takeWhile_imp htake
        simp only [decide_eq_true_eq] at hgt
        omega
      split at h
      · rename_i heq
        cases h
        have hmem : plonger ∈ new := hsuffix.subset List.mem_cons_self
        have hp : pfork = plonger := hinj pfork List.mem_cons_self plonger hmem heq.symm
        refine ⟨List.mem_cons_self, hp ▸ hmem, fun b _ hlt hb => ?_⟩
        rcases List.mem_cons.mp hb with rfl | hb
        · omega
        · have := (List.pairwise_cons.mp hbest).1 b hb
          omega
      · rename_i hne
        obtain ⟨h₁, h₂, h₃⟩ := findFork_spec (List.pairwise_cons.mp hbest).2 hnew'
          (fun a ha b hb => hinj a (List.mem_cons_of_mem _ ha) b (hsuffix.subset hb)) h
        have hforklt := (List.pairwise_cons.mp hbest).1 pfork h₁
        refine ⟨List.mem_cons_of_mem _ h₁, hsuffix.subset h₂, fun b hb hlt hmem => ?_⟩
        rcases List.mem_cons.mp hmem with rfl | hmem
        · rcases List.mem_cons.mp (hdropped b hb le_rfl) with rfl | hb'
          · exact hne rfl
          · have := (List.pairwise_cons.mp hnew').1 b hb'
            omega
        · have hbp := (List.pairwise_cons.mp hbest).1 b hmem
          exact h₃ b (hdropped b hb hbp.le) hlt hmem

/-- What is above the fork of a chain. -/
theorem aboveFork_spec {m : BlockMap} {h : Uint256} {f : CBlockIndex} (hf : f ∈ m.chain h) :
    m.chain h = aboveFork (some f) (m.chain h) ++ m.chain f.phashBlock ∧
      ∀ p ∈ aboveFork (some f) (m.chain h), f.nHeight < p.nHeight := by
  obtain ⟨above, hsplit, hgt⟩ := BlockMap.chain_split hf
  have hfind := BlockMap.find_of_mem_chain hf
  have habove : aboveFork (some f) (m.chain h) = above := by
    unfold aboveFork
    rw [hsplit, BlockMap.chain_of_find hfind, List.takeWhile_append_of_pos]
    · rw [List.takeWhile_cons_of_neg (by simp), List.append_nil]
    · intro p hp
      have hmem : p ∈ m.chain h := hsplit ▸ List.mem_append_left _ hp
      have hlt := hgt p hp
      simp only [Option.map_some, ne_eq, Option.some.injEq, decide_eq_true_eq]
      intro heq
      have hsame := BlockMap.find_of_mem_chain hmem
      rw [← heq, hfind, Option.some.injEq] at hsame
      rw [hsame] at hlt
      exact lt_irrefl _ hlt
  rw [habove]
  exact ⟨hsplit, hgt⟩

/-- **The two sides of a fork**: both chains end in the chain of the fork, and what is above it in the new chain is not
in the best chain. -/
theorem fork_spec {m : BlockMap} {b n : Uint256} {f : CBlockIndex} (h : findFork (m.chain b) (m.chain n) = some f) :
    f ∈ m.chain b ∧ f ∈ m.chain n ∧ m.chain b = disconnected (m.chain b) (m.chain n) ++ m.chain f.phashBlock ∧
      m.chain n = (connected (m.chain b) (m.chain n)).reverse ++ m.chain f.phashBlock ∧
      ∀ p ∈ connected (m.chain b) (m.chain n), p ∉ m.chain b := by
  have hinj : ∀ p ∈ m.chain b, ∀ q ∈ m.chain n, p.phashBlock = q.phashBlock → p = q := by
    intro p hp q hq heq
    have hfind := BlockMap.find_of_mem_chain hp
    rw [heq, BlockMap.find_of_mem_chain hq, Option.some.injEq] at hfind
    exact hfind.symm
  obtain ⟨hb, hn, hnot⟩ := findFork_spec (m.chain_heights b) (m.chain_heights n) hinj h
  refine ⟨hb, hn, ?_, ?_, fun p hp => ?_⟩
  · rw [disconnected, h]
    exact (aboveFork_spec hb).1
  · rw [connected, h, List.reverse_reverse]
    exact (aboveFork_spec hn).1
  · rw [connected, h, List.mem_reverse] at hp
    have hmem : p ∈ m.chain n := by
      rw [(aboveFork_spec hn).1]
      exact List.mem_append_left _ hp
    exact hnot p hmem ((aboveFork_spec hn).2 p hp)

/-- A block that is disconnected is no successor any more. -/
def BlockMap.clearNext (m : BlockMap) (pindex : CBlockIndex) : BlockMap :=
  match pindex.pprev with
  | some q => m.modify q (fun p => { p with pnext := none })
  | none => m

/-- A block that is connected is the successor of its predecessor. -/
def BlockMap.setNext (m : BlockMap) (pindex : CBlockIndex) : BlockMap :=
  match pindex.pprev with
  | some q => m.modify q (fun p => { p with pnext := some pindex.phashBlock })
  | none => m

/-- The updates that `SetBestChain` makes to the successors of the blocks it disconnects and connects. -/
def BlockMap.relink (m : BlockMap) (vDisconnect vConnect : List CBlockIndex) : BlockMap :=
  vConnect.foldl setNext (vDisconnect.foldl clearNext m)

/-- Which successor a block has after one of them is disconnected. -/
theorem BlockMap.find_clearNext (m : BlockMap) (a : CBlockIndex) (h : Uint256) :
    ((m.clearNext a).find h).map (·.pnext) =
      if a.pprev = some h then (m.find h).map (fun _ => none) else (m.find h).map (·.pnext) := by
  unfold clearNext
  cases a.pprev with
  | none => rfl
  | some q =>
    simp only [find_modify, Option.some.injEq, eq_comm (a := q)]
    split
    · rw [Option.map_map]
      rfl
    · rfl

/-- Which successor a block has after one of them is connected. -/
theorem BlockMap.find_setNext (m : BlockMap) (a : CBlockIndex) (h : Uint256) :
    ((m.setNext a).find h).map (·.pnext) =
      if a.pprev = some h then (m.find h).map (fun _ => some a.phashBlock) else (m.find h).map (·.pnext) := by
  unfold setNext
  cases a.pprev with
  | none => rfl
  | some q =>
    simp only [find_modify, Option.some.injEq, eq_comm (a := q)]
    split
    · rw [Option.map_map]
      rfl
    · rfl

/-- The entries of one map are those of the other, but for their successors. -/
def SameButNext (m m' : BlockMap) : Prop :=
  ∀ h, (m'.find h).map (fun p => { p with pnext := none }) = (m.find h).map (fun p => { p with pnext := none })

theorem SameButNext.trans {m m' m'' : BlockMap} (h : SameButNext m m') (h' : SameButNext m' m'') : SameButNext m m'' :=
  fun x => (h' x).trans (h x)

theorem sameButNext_modify (m : BlockMap) (q : Uint256) (next : Option Uint256) :
    SameButNext m (m.modify q (fun p => { p with pnext := next })) := by
  intro h
  rw [BlockMap.find_modify]
  split
  · rw [Option.map_map]
    rfl
  · rfl

theorem sameButNext_foldl {f : BlockMap → CBlockIndex → BlockMap} (hf : ∀ m p, SameButNext m (f m p)) :
    ∀ (l : List CBlockIndex) (m : BlockMap), SameButNext m (l.foldl f m)
  | [], _ => fun _ => rfl
  | p :: l, m => (hf m p).trans (sameButNext_foldl hf l (f m p))

theorem SameButNext.sameLinks {m m' : BlockMap} (h : SameButNext m m') : BlockMap.SameLinks m m' := by
  intro x
  have hx := congrArg (Option.map fun p : CBlockIndex => (p.phashBlock, p.pprev, p.nHeight)) (h x)
  rw [Option.map_map, Option.map_map] at hx
  exact hx

/-- Only the successors change. -/
theorem sameButNext_relink (m : BlockMap) (vDisconnect vConnect : List CBlockIndex) :
    SameButNext m (m.relink vDisconnect vConnect) := by
  refine (sameButNext_foldl (fun m p => ?_) vDisconnect m).trans (sameButNext_foldl (fun m p => ?_) vConnect _)
  all_goals
    first | unfold BlockMap.clearNext | unfold BlockMap.setNext
    cases p.pprev with
    | none => exact fun _ => rfl
    | some q => exact sameButNext_modify m q _

end Morcochain
