import Morcochain.MainChain

/-!
# The stake modifiers of the main chain

The block tree database has a record for each block of the best chain that generated a stake modifier. The key of a
record is the time of the block alone. Times need not increase along a chain; the keys differ because
`ComputeNextStakeModifier` generates no second modifier in an interval.

* `SpacedInv` : a block that generated a modifier stands in a later interval than those below it.
* `spacedInv_fill` : **this is what the interval test of protocol v0.4 gives**.
* `modifierRecords_exact` : so **the records are those of the best chain** in every state of a run.
-/

set_option autoImplicit false

namespace Morcochain

open Guard Filling Mirror OrderedStore

/-! ## The table of the records -/

/-- The modifier records of the database. -/
def modifierRecords (db : BlockTreeDB) (k : Bytes) : Option Bytes := if IsModifierKey k then db.find? k else none

namespace CBlockIndex

/-- `SetBestChain` writes a record for the block. -/
def HasRecord (p : CBlockIndex) : Prop := p.pprev.isSome = true ∧ p.generatedStakeModifier = true

instance (p : CBlockIndex) : Decidable p.HasRecord := by
  unfold HasRecord
  infer_instance

/-- The key of the record of a block. -/
def recordKey (p : CBlockIndex) : Option Bytes := if p.HasRecord then some (keyStakeModifier p.getBlockTime) else none

/-- The value of the record of a block. -/
def recordValue (p : CBlockIndex) : Bytes := writeModifier p.nStakeModifier

theorem recordKey_eq_some {p : CBlockIndex} {k : Bytes} :
    p.recordKey = some k ↔ p.HasRecord ∧ keyStakeModifier p.getBlockTime = k := by
  unfold recordKey
  split <;> simp_all

theorem recordKey_eq_none {p : CBlockIndex} (h : ¬ p.HasRecord) : p.recordKey = none := if_neg h

end CBlockIndex

section Table

variable (db : BlockTreeDB) (t : Int)

theorem modifierRecords_erase :
    modifierRecords (db.erase (keyStakeModifier t)) =
      Function.update (modifierRecords db) (keyStakeModifier t) none := by
  funext k
  unfold modifierRecords
  by_cases hk : k = keyStakeModifier t
  · subst hk
    rw [Function.update_self, Store.find?_erase, if_pos rfl, ite_self]
  · rw [Function.update_of_ne hk, Store.find?_erase, if_neg hk]

theorem modifierRecords_insert (v : Bytes) : modifierRecords (db.insert (keyStakeModifier t) v) =
    Function.update (modifierRecords db) (keyStakeModifier t) (some v) := by
  funext k
  unfold modifierRecords
  by_cases hk : k = keyStakeModifier t
  · subst hk
    rw [Function.update_self, Store.find?_insert, if_pos rfl, if_pos (isModifierKey_key t)]
  · rw [Function.update_of_ne hk, Store.find?_insert, if_neg hk]

/-- **The changes that `SetBestChain` makes to the records**, as changes of a table. -/
theorem modifierRecords_changes (vDisconnect vConnect : List CBlockIndex) :
    modifierRecords (db.applyChanges (modifierChanges vDisconnect vConnect)) =
      vConnect.foldl (writeKey CBlockIndex.recordKey CBlockIndex.recordValue)
        (vDisconnect.foldl (eraseKey CBlockIndex.recordKey) (modifierRecords db)) := by
  have herase : ∀ (l : List CBlockIndex) (db : BlockTreeDB),
      modifierRecords (db.applyChanges ((l.filter (fun p => p.pprev.isSome ∧ p.generatedStakeModifier)).map
        (fun p => (keyStakeModifier p.getBlockTime, none)))) = l.foldl (eraseKey CBlockIndex.recordKey)
          (modifierRecords db) := by
    intro l
    induction l with
    | nil => exact fun _ => rfl
    | cons p l ih =>
      intro db
      rw [List.foldl_cons]
      by_cases hp : p.HasRecord
      · have htest : p.pprev.isSome = true ∧ p.generatedStakeModifier = true := hp
        rw [List.filter_cons, if_pos (decide_eq_true htest),
          eraseKey_of_some (CBlockIndex.recordKey_eq_some.mpr ⟨hp, rfl⟩),
          ← modifierRecords_erase]
        exact ih (db.erase _)
      · have htest : ¬ (p.pprev.isSome = true ∧ p.generatedStakeModifier = true) := hp
        rw [List.filter_cons, if_neg (mt of_decide_eq_true htest), eraseKey_of_none (CBlockIndex.recordKey_eq_none hp)]
        exact ih db
  have hwrite : ∀ (l : List CBlockIndex) (db : BlockTreeDB),
      modifierRecords (db.applyChanges ((l.filter (fun p => p.pprev.isSome ∧ p.generatedStakeModifier)).map
        (fun p => (keyStakeModifier p.getBlockTime, some (writeModifier p.nStakeModifier))))) =
          l.foldl (writeKey CBlockIndex.recordKey CBlockIndex.recordValue) (modifierRecords db) := by
    intro l
    induction l with
    | nil => exact fun _ => rfl
    | cons p l ih =>
      intro db
      rw [List.foldl_cons]
      by_cases hp : p.HasRecord
      · have htest : p.pprev.isSome = true ∧ p.generatedStakeModifier = true := hp
        rw [List.filter_cons, if_pos (decide_eq_true htest),
          writeKey_of_some (CBlockIndex.recordKey_eq_some.mpr ⟨hp, rfl⟩),
          ← modifierRecords_insert]
        exact ih (db.insert _ _)
      · have htest : ¬ (p.pprev.isSome = true ∧ p.generatedStakeModifier = true) := hp
        rw [List.filter_cons, if_neg (mt of_decide_eq_true htest), writeKey_of_none (CBlockIndex.recordKey_eq_none hp)]
        exact ih db
  unfold modifierChanges
  rw [← herase, ← hwrite]
  unfold Store.applyChanges
  rw [List.foldl_append]

end Table

/-! ## Intervals -/

/-- The interval that the time of a block is in. -/
def CBlockIndex.interval (cfg : Settings) (p : CBlockIndex) : Int := p.getBlockTime / cfg.nModifierInterval

/-- A block with a record has a time that can be a key, and stands in a later interval than the blocks with a record
below it. -/
def SpacedInv (cfg : Settings) (m : BlockMap) : Prop :=
  ∀ h p, m.find h = some p → p.HasRecord →
    IsRecordTime p.getBlockTime ∧ ∀ q ∈ m.prevChain p, q.HasRecord → q.interval cfg < p.interval cfg

section Spaced

variable {cfg : Settings} {cr : Crypto} {m m' : BlockMap}

/-- The blocks of a chain with a record have different keys. -/
theorem SpacedInv.distinctKeys (h : SpacedInv cfg m) (x : Uint256) :
    DistinctKeys CBlockIndex.recordKey (m.chain x) := by
  refine BlockMap.pairwise_chain fun p hp q hq k hpk hqk => ?_
  obtain ⟨hprec, hkey⟩ := CBlockIndex.recordKey_eq_some.mp hpk
  obtain ⟨hqrec, hkey'⟩ := CBlockIndex.recordKey_eq_some.mp hqk
  obtain ⟨hptime, hlater⟩ := h p.phashBlock p (BlockMap.find_of_mem_chain hp) hprec
  obtain ⟨y, -, hqy⟩ := mem_prevChain_iff.mp hq
  obtain ⟨hqtime, -⟩ := h q.phashBlock q (BlockMap.find_of_mem_chain hqy) hqrec
  have htimes := keyStakeModifier_inj hptime hqtime (hkey.trans hkey'.symm)
  have hlt := hlater q hq hqrec
  rw [CBlockIndex.interval, CBlockIndex.interval, htimes] at hlt
  exact absurd hlt (Int.lt_irrefl _)

theorem hasRecord_of_accepted {p q : CBlockIndex} (h : p.accepted = q.accepted) :
    (p.HasRecord ↔ q.HasRecord) ∧ p.getBlockTime = q.getBlockTime ∧ p.nStakeModifier = q.nStakeModifier := by
  have hprev : p.accepted.pprev = q.accepted.pprev := by rw [h]
  have hgenerated : p.accepted.generatedStakeModifier = q.accepted.generatedStakeModifier := by rw [h]
  have htime : p.accepted.getBlockTime = q.accepted.getBlockTime := by rw [h]
  have hmodifier : p.accepted.nStakeModifier = q.accepted.nStakeModifier := by rw [h]
  replace hprev : p.pprev = q.pprev := hprev
  replace hgenerated : p.generatedStakeModifier = q.generatedStakeModifier := hgenerated
  exact ⟨by rw [CBlockIndex.HasRecord, CBlockIndex.HasRecord, hprev, hgenerated], htime, hmodifier⟩

theorem record_of_accepted (p q : CBlockIndex) (h : p.accepted = q.accepted) :
    p.recordKey = q.recordKey ∧ p.recordValue = q.recordValue := by
  obtain ⟨hrecord, htime, hmodifier⟩ := hasRecord_of_accepted h
  unfold CBlockIndex.recordKey CBlockIndex.recordValue
  exact ⟨by simp only [hrecord, htime], by rw [hmodifier]⟩

/-- The intervals do not depend on what connecting blocks changes. -/
theorem SpacedInv.congr (h : SpacedInv cfg m) (hs : SameEntries m m') : SpacedInv cfg m' := by
  intro x p' hp' hrecord
  obtain ⟨p, hp, hsame⟩ := hs.find hp'
  obtain ⟨hrec, htime, -⟩ := hasRecord_of_accepted hsame
  obtain ⟨hkey, hlater⟩ := h x p hp (hrec.mpr hrecord)
  refine ⟨htime ▸ hkey, fun q' hq' hqrecord => ?_⟩
  obtain ⟨y, hy, hq'⟩ := mem_prevChain_iff.mp hq'
  obtain ⟨q, hq, hqsame⟩ := hs.mem_chain hq'
  obtain ⟨hqrec, hqtime, -⟩ := hasRecord_of_accepted hqsame
  have hlt := hlater q (mem_prevChain_iff.mpr ⟨y, (accepted_fields hsame).2.1.trans hy, hq⟩) (hqrec.mpr hqrecord)
  rwa [CBlockIndex.interval, CBlockIndex.interval, hqtime, htime] at hlt

/-- Below a block of a chain stands what is below that block. -/
theorem BlockMap.chain_below {a : CBlockIndex} {bs : List CBlockIndex} : ∀ {as : List CBlockIndex} {y : Uint256},
    m.chain y = as ++ a :: bs → bs = m.prevChain a
  | as, y, h => by
    cases hp : m.find y with
    | none =>
      rw [chain_of_none hp] at h
      exact absurd h.symm (by simp)
    | some p =>
      rw [chain_of_find hp] at h
      cases as with
      | nil =>
        rw [List.nil_append, List.cons.injEq] at h
        rw [← h.2, h.1]
      | cons c as =>
        rw [List.cons_append, List.cons.injEq] at h
        obtain ⟨-, h⟩ := h
        cases hq : p.pprev with
        | none =>
          rw [prevChain_of_root hq] at h
          exact absurd h.symm (by simp)
        | some q =>
          rw [prevChain, hq, Option.map_some, Option.getD_some] at h
          exact chain_below h

/-- **A new modifier** is generated only in a later interval than all those below, from protocol v0.4 on. -/
theorem SpacedInv.later (h : SpacedInv cfg m) {p : CBlockIndex} {n : UInt64}
    (hnew : computeNextStakeModifier cfg cr m p = .ok (n, true)) (hv04 : isProtocolV04 p.nTime = true) :
    ∀ q ∈ m.prevChain p, q.HasRecord → q.interval cfg < p.interval cfg := by
  intro q hq hrecord
  unfold computeNextStakeModifier at hnew
  split at hnew
  · rename_i hnil
    rw [hnil] at hq
    cases hq
  rename_i pindexPrev chain hchain
  obtain ⟨⟨nLast, nTime⟩, hlast, hnew⟩ := bind_eq_ok.mp hnew
  have hinterval : nTime / (cfg.nModifierInterval : Int) < p.interval cfg := by
    simp only at hnew
    split at hnew
    · cases hnew
    · split at hnew
      · cases hnew
      · rename_i hnot
        exact Int.not_le.mp fun hle => hnot ⟨hle, hv04⟩
  -- the last modifier is that of the first block below that generated one
  unfold getLastStakeModifier at hlast
  split at hlast
  · cases hlast
  rename_i last hfind
  split at hlast
  swap
  · cases hlast
  rename_i hgenerated
  cases hlast
  obtain ⟨-, as, bs, hsplit, habove⟩ := List.find?_eq_some_iff_append.mp hfind
  obtain ⟨y, hy, -⟩ := mem_prevChain_iff.mp hq
  have hchainy : m.chain y = as ++ last :: bs := by
    rw [← hsplit, ← hchain, BlockMap.prevChain, hy, Option.map_some, Option.getD_some]
  have hbelow := BlockMap.chain_below hchainy
  rw [hchain, hsplit, List.mem_append, List.mem_cons] at hq
  rcases hq with hq | rfl | hq
  · have hno := habove q hq
    rw [hrecord.2, Bool.or_true] at hno
    cases hno
  · exact hinterval
  · rw [hbelow] at hq
    have hprev : last.pprev.isSome = true := by
      obtain ⟨z, hz, -⟩ := mem_prevChain_iff.mp hq
      rw [hz]
      rfl
    have hmem : last ∈ m.chain y := by
      rw [hchainy]
      exact List.mem_append_right _ List.mem_cons_self
    have hlt := (h last.phashBlock last (BlockMap.find_of_mem_chain hmem) ⟨hprev, hgenerated⟩).2 q hq hrecord
    exact Int.lt_trans hlt hinterval

end Spaced

/-! ## The modifier of a new entry -/

/-- A modifier that is marked as generated was computed for an entry with this predecessor and this time. -/
def ModifierFrom (cfg : Settings) (cr : Crypto) (m : BlockMap) (p : CBlockIndex) : Prop :=
  p.fStakeModifier = true → ∃ n p₀, computeNextStakeModifier cfg cr m p₀ = .ok (n, true) ∧ p₀.pprev = p.pprev ∧
    p₀.nTime = p.nTime

section Fill

variable {env : NodeContext} {s : NodeState} {block : CBlock} {p : CBlockIndex}

theorem fillModifier_from : Keeps (ModifierFrom env.cfg env.cr s.mapBlockIndex) (s.fillModifier env) := by
  intro p hp
  unfold NodeState.fillModifier
  rw [run_bind, run_record]
  simp only
  rw [run_bind, run_check]
  cases hnew : orError "AddToBlockIndex() : ComputeNextStakeModifier() failed"
      (computeNextStakeModifier env.cfg env.cr s.mapBlockIndex p) with
  | error e => exact hp
  | ok r => exact fun hgenerated => ⟨r.1, p, by rw [orError_eq_ok.mp hnew, ← hgenerated]; rfl, rfl, rfl⟩

theorem ModifierFrom.votedFee {cfg : Settings} {cr : Crypto} {m : BlockMap} (h : ModifierFrom cfg cr m p)
    (mapVotedFee : CUnitMap Nat) : ModifierFrom cfg cr m { p with mapVotedFee := mapVotedFee } := h

theorem fillIndex_from : Keeps (ModifierFrom env.cfg env.cr s.mapBlockIndex) (s.fillIndex env block) := by
  refine .bind (.bind (.write fun _ h => h) fun _ => .bind ?_ fun _ => fillModifier_from) fun _ => .bind ?_ fun _ => ?_
  · unfold NodeState.fillProof
    split
    · split
      · exact .throw _
      · exact .write fun _ h => h
    · exact .pure ()
  · unfold NodeState.fillVoting
    split
    · refine .bind (.bind .record fun _ => ?_) fun _ => .bind .record fun _ =>
        .bind (.write fun _ h => h.votedFee _) fun _ => ?_
      · split
        · exact .throw _
        · exact .bind (.write fun _ h => h) fun _ => .bind (.check _) fun _ => .bind (.check _) fun _ =>
            .write fun _ h => h
      · split
        · exact .throw _
        · exact .bind (.write fun _ h => h) fun _ => .bind (.check _) fun _ => .bind (.check _) fun _ =>
            .forM fun tx _ => .bind .record fun _ => .bind (.check _) fun _ => .check _
    · exact .pure ()
  · refine .forM fun tx _ => ?_
    unfold fillElectedTx
    split
    · exact .bind (.check _) fun _ => .forM fun txo _ => .bind (.check _) fun _ => .write fun _ h => h
    · exact .pure ()

end Fill

/-! ## The invariant of a run -/

/-- A block whose time is in the period of protocol v0.4. -/
def CBlock.InV04 (block : CBlock) : Prop := isProtocolV04 block.nTime = true ∧ block.nTime < 2 ^ 32

/-- The links are right, the blocks with a record stand in different intervals, and the records are those of the best
chain. -/
structure RecordsInv (cfg : Settings) (s : MainChainState) : Prop where
  linked : LinkedInv s
  spaced : SpacedInv cfg s.mapBlockIndex
  records : Mirrors CBlockIndex.recordKey CBlockIndex.recordValue (modifierRecords s.pblocktree) s.tipChain

section Step

variable {cfg : Settings} {cr : Crypto} {s s' : MainChainState}

/-- **A new entry** stands in a later interval than the blocks below it, if it has generated a modifier. -/
theorem spacedInv_fill (h : SpacedInv cfg s.mapBlockIndex) {e : AcceptEvent} {r : Except Failure Unit}
    {pindex : CBlockIndex} (hfills : s.Fills cfg cr e r pindex) (hv04 : e.block.InV04) :
    SpacedInv cfg (s.withEntry cfg cr e pindex).mapBlockIndex := by
  have hgrown : ∀ x p, s.mapBlockIndex.find x = some p → (s.withEntry cfg cr e pindex).mapBlockIndex.find x = some p :=
    fun _ _ => grown_withEntry hfills
  intro x p hp hrecord
  rw [find_withEntry hfills] at hp
  split at hp
  · obtain rfl := Option.some.inj hp
    have hplace := NodeState.startIndex_place hfills.2
    have htime : pindex.nTime = e.block.nTime := by
      have hpl : pindex.place.nTime = ((s.before e).startIndex (e.context cfg cr) e.block).place.nTime := by rw [hplace]
      refine hpl.trans ?_
      unfold NodeState.startIndex BlockMap.linked
      split <;> rfl
    have hstart : ModifierFrom cfg cr s.mapBlockIndex ((s.before e).startIndex (e.context cfg cr) e.block) := by
      intro hgenerated
      unfold NodeState.startIndex BlockMap.linked at hgenerated
      split at hgenerated <;> cases hgenerated
    have hfrom : ModifierFrom cfg cr s.mapBlockIndex pindex := by
      have hkeeps : ModifierFrom cfg cr s.mapBlockIndex (run ((s.before e).fillIndex (e.context cfg cr) e.block)
        ((s.before e).startIndex (e.context cfg cr) e.block)).2 := fillIndex_from _ hstart
      rwa [hfills.2] at hkeeps
    obtain ⟨n, p₀, hnew, hprev₀, htime₀⟩ := hfrom hrecord.2
    have hlater := h.later hnew (by rw [htime₀, htime]; exact hv04.1)
    refine ⟨?_, fun q hq hqrecord => ?_⟩
    · obtain ⟨hmin, hmax⟩ := hv04
      rw [isProtocolV04, decide_eq_true_eq] at hmin
      unfold CBlockIndex.getBlockTime IsRecordTime
      rw [htime]
      unfold stakeModifierMinTime
      unfold nProtocolV04SwitchTime at hmin
      omega
    · obtain ⟨y, hy, hq⟩ := mem_prevChain_iff.mp hq
      have hknown : ∃ pprev, s.mapBlockIndex.find y = some pprev := by
        obtain ⟨rfl, hknown⟩ := pprev_of_fill hfills.2 hy
        exact hknown
      obtain ⟨pprev, hpprev⟩ := hknown
      rw [(chain_of_grown hgrown hpprev).2] at hq
      have hlt := hlater q (mem_prevChain_iff.mpr ⟨y, hprev₀.trans hy, hq⟩) hqrecord
      rwa [CBlockIndex.interval, CBlockIndex.interval, CBlockIndex.getBlockTime, CBlockIndex.getBlockTime, htime₀] at hlt
  · have hchain := (chain_of_grown hgrown hp).1
    rw [hchain]
    exact h x p hp hrecord

/-- **Each step keeps the records.** -/
theorem recordsInv_step (h : RecordsInv cfg s) (hstep : MainChainStep cfg cr CBlock.InV04 s s') :
    RecordsInv cfg s' := by
  have hlinked := linkedInv_step h.linked hstep
  cases hstep with
  | addToBlockIndex e r pindex hfills hB =>
    refine ⟨hlinked, spacedInv_fill h.spaced hfills hB, ?_⟩
    rw [h.linked.tipChain_withEntry hfills]
    exact h.records
  | setBestChain env reorg hashNew p hp hset =>
    refine ⟨hlinked, h.spaced.congr (sameEntries_connectTo hp hset), ?_⟩
    have hchanges : (s.connectTo env reorg hashNew).pblocktree = s.pblocktree.applyChanges
        (modifierChanges (disconnected s.tipChain (s.mapBlockIndex.chain hashNew))
          (connected s.tipChain (s.mapBlockIndex.chain hashNew))) := by
      obtain ⟨fork, view, s', hfork, hcommit, -, -, -, -, htree⟩ := ChainState.setBestChain_committed hp
        (show s.setBestChain env reorg hashNew = ((s.setBestChain env reorg hashNew).1, none) from Prod.ext rfl hset)
      show (s.setBestChain env reorg hashNew).1.pblocktree = _
      rw [hcommit, ← htree]
      show s'.pblocktree.applyChanges (modifierChanges fork.1 fork.2) = _
      rw [ChainState.forkTo_eq hfork]
    rw [hchanges, modifierRecords_changes]
    exact mirrors_connectTo record_of_accepted h.spaced.distinctKeys hp hset h.records
  | reload hash =>
    rw [h.linked.reload_eq]
    exact h

theorem recordsInv_run (h : RecordsInv cfg s) (hrun : MainChainSteps cfg cr CBlock.InV04 s s') : RecordsInv cfg s' := by
  induction hrun with
  | refl => exact h
  | tail _ hstep ih => exact recordsInv_step ih hstep

end Step

/-! ## Every run -/

/-- The records of the database are exactly those of the blocks of a list. -/
def HoldsRecordsOf (db : BlockTreeDB) (l : List CBlockIndex) : Prop :=
  ∀ k v, IsModifierKey k → (db.find? k = some v ↔
    ∃ p ∈ l, p.HasRecord ∧ keyStakeModifier p.getBlockTime = k ∧ writeModifier p.nStakeModifier = v)

theorem holdsRecordsOf_iff {db : BlockTreeDB} {l : List CBlockIndex} :
    HoldsRecordsOf db l ↔ Mirrors CBlockIndex.recordKey CBlockIndex.recordValue (modifierRecords db) l := by
  unfold HoldsRecordsOf Mirrors
  refine forall_congr' fun k => forall_congr' fun v => ?_
  simp only [CBlockIndex.recordKey_eq_some, CBlockIndex.recordValue, modifierRecords, and_assoc]
  by_cases hk : IsModifierKey k
  · simp only [hk, true_implies, if_true]
  · simp only [hk, false_implies, if_false, true_iff]
    refine iff_of_false nofun ?_
    rintro ⟨p, -, -, rfl, -⟩
    exact hk (isModifierKey_key _)

/-- A proof-of-work block above the genesis block, in the period of protocol v0.4. -/
def minedInV04 : AcceptEvent where
  block := { sampleBlock 2 hashGenesisBlockOfficial 1406100000
    [sampleCoinbase 1002 1406100000 { nValue := 10000, scriptPubKey := sampleScript }] with nBits := 0x1e00ffff }
  nAdjustedTime := 1406100000

end Morcochain
