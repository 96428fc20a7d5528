import Morcochain.Acceptance

/-!
# Which blocks get into the best chain

Blocks are handed to `AcceptBlock` one after the other. `AddToBlockIndex` puts the entry of a block into the index
before it checks the block, and leaves it there when the block is rejected; a later block can then name it as its
predecessor.

* `Admitted` : the entries of accepted blocks are closed under predecessors, and the candidates and the best block are
  among them.
* `admitted_step` : **what keeps this**: a block is not handed over above a block that was rejected.
* `bestChain_passed` : then **every block of the best chain has passed** the checks of `AddToBlockIndex`.
-/

set_option autoImplicit false

namespace Morcochain

open Guard Filling Run

/-! ## Runs of AcceptBlock -/

/-- A block that is handed to `AcceptBlock`, with what else the node brings along. -/
structure AcceptEvent where
  block : CBlock
  nAdjustedTime : Int := 0
  fThreads : Bool := false
  mapProofOfStake : Uint256 → Option Uint256 := fun _ => none
  /-- The calls and rounds of `ConnectBestBlock`. -/
  fuel : Nat := 0

/-- The settings of the node at the event. -/
def AcceptEvent.context (cfg : Settings) (cr : Crypto) (e : AcceptEvent) : NodeContext :=
  { cfg := cfg, cr := cr, fThreads := e.fThreads, nAdjustedTime := e.nAdjustedTime }

namespace NodeState

variable (cfg : Settings) (cr : Crypto)

/-- The node with the proof hashes that were computed before the event. -/
def before (s : NodeState) (e : AcceptEvent) : NodeState := { s with mapProofOfStake := e.mapProofOfStake }

/-- The node after the event. -/
def accept (s : NodeState) (e : AcceptEvent) : NodeState :=
  ((s.before e).acceptBlock (e.context cfg cr) e.block e.fuel).1

/-- `AddToBlockIndex` fills in the entry of the block, with this result. -/
def Fills (s : NodeState) (e : AcceptEvent) (r : Except Failure Unit) (pindex : CBlockIndex) : Prop :=
  (s.before e).checkBefore (e.context cfg cr) e.block = .ok () ∧
    run ((s.before e).fillIndex (e.context cfg cr) e.block) ((s.before e).startIndex (e.context cfg cr) e.block) =
      (r, pindex)

/-- The block passes the checks of `AddToBlockIndex`. -/
def Passes (hash : Uint256) (s : NodeState) (e : AcceptEvent) : Prop :=
  e.block.getHash cr = hash ∧ ∃ pindex, s.Fills cfg cr e (.ok ()) pindex

/-- `AddToBlockIndex` rejects the block. -/
def Rejects (hash : Uint256) (s : NodeState) (e : AcceptEvent) : Prop :=
  e.block.getHash cr = hash ∧ ∃ failure pindex, s.Fills cfg cr e (.error failure) pindex

/-- What an event does to the node, and which block passes in it. -/
inductive AcceptEffect (s : NodeState) (e : AcceptEvent) : NodeState → Prop where
  /-- The block is refused before it is written to disk. -/
  | refused (hpasses : ∀ x, ¬ s.Passes cfg cr x e) : AcceptEffect s e (s.before e)
  /-- `AddToBlockIndex` rejects the block. -/
  | rejected (failure : Failure) (pindex : CBlockIndex) (hfills : s.Fills cfg cr e (.error failure) pindex)
      (hpasses : ∀ x, ¬ s.Passes cfg cr x e) (hrejects : ∀ x, s.Rejects cfg cr x e ↔ e.block.getHash cr = x) :
      AcceptEffect s e (((s.before e).writeToDisk (e.context cfg cr) e.block).insertIndex (e.context cfg cr) e.block
        pindex)
  /-- The block passes. -/
  | added (pindex : CBlockIndex) (c : ChainState) (hfills : s.Fills cfg cr e (.ok ()) pindex)
      (hsteps : ChainState.ReorgSteps (e.context cfg cr)
        ((s.before e).withCandidate (e.context cfg cr) e.block pindex).toChainState c)
      (hpasses : ∀ x, s.Passes cfg cr x e ↔ e.block.getHash cr = x) :
      AcceptEffect s e { (s.before e).withCandidate (e.context cfg cr) e.block pindex with toChainState := c }

/-- **Everything that an event can do.** -/
theorem accept_cases (s : NodeState) (e : AcceptEvent) : AcceptEffect cfg cr s e (s.accept cfg cr e) := by
  have hcases := acceptBlock_cases (e.context cfg cr) (s.before e) e.block e.fuel
  unfold accept
  generalize ((s.before e).acceptBlock (e.context cfg cr) e.block e.fuel).1 = s' at hcases ⊢
  cases hcases with
  | refused failure hbefore =>
    refine .refused ?_
    rintro x ⟨-, pindex, hok, -⟩
    rw [hbefore] at hok
    cases hok
  | rejected failure pindex hbefore hfill =>
    refine .rejected failure pindex ⟨hbefore, hfill⟩ ?_ fun x =>
      ⟨fun hx => hx.1, fun hhash => ⟨hhash, failure, pindex, hbefore, hfill⟩⟩
    rintro x ⟨-, pindex', -, hok⟩
    rw [hfill] at hok
    cases hok
  | added pindex c hbefore hfill hsteps =>
    exact .added pindex c ⟨hbefore, hfill⟩ hsteps fun x =>
      ⟨fun hx => hx.1, fun hhash => ⟨hhash, pindex, hbefore, hfill⟩⟩

end NodeState

/-! ## The invariant -/

/-- The blocks of `A` are in the index, with their predecessors; the candidates and the best block are among them; and
every entry that is not among them is one of `R`. -/
structure Admitted (s : ChainState) (A R : Uint256 → Prop) : Prop where
  covered : ∀ h p, s.mapBlockIndex.find h = some p → A h ∨ R h
  present : ∀ h, A h → ∃ p, s.mapBlockIndex.find h = some p
  closed : ∀ h p q, s.mapBlockIndex.find h = some p → A h → p.pprev = some q → A q
  candidates : ∀ it ∈ s.setBlockIndexValid, A it.hash
  best : ∀ b, s.pindexBest = some b → A b

section Admit

variable {cfg : Settings} {cr : Crypto} {s s' : ChainState} {A R : Uint256 → Prop}

/-- The blocks below a block of `A` are in `A`. -/
theorem Admitted.chain (h : Admitted s A R) {x : Uint256} (hx : A x) :
    ∀ q ∈ s.mapBlockIndex.chain x, A q.phashBlock := by
  obtain ⟨p, hp⟩ := h.present x hx
  rw [BlockMap.chain_of_find hp]
  refine BlockMap.chain_induction (P := fun p => A p.phashBlock →
    ∀ q ∈ p :: s.mapBlockIndex.prevChain p, A q.phashBlock) ?_ ?_ x p hp (by rwa [s.mapBlockIndex.hash_eq x p hp])
  · intro y p hp hroot hA q hq
    rw [BlockMap.prevChain, hroot] at hq
    obtain rfl := List.mem_singleton.mp hq
    exact hA
  · intro y p r pprev hp hr hpprev ih hA q hq
    rcases List.mem_cons.mp hq with rfl | hq
    · exact hA
    · have hprev : A r := h.closed y p r hp (by rwa [s.mapBlockIndex.hash_eq y p hp] at hA) hr
      rw [BlockMap.prevChain, hr, Option.map_some, Option.getD_some, BlockMap.chain_of_find hpprev] at hq
      exact ih (by rwa [s.mapBlockIndex.hash_eq r pprev hpprev]) q hq

/-- A reorganisation keeps it. -/
theorem Admitted.reorgStep {env : NodeContext} (h : Admitted s A R) (hstep : ChainState.ReorgStep env s s') :
    Admitted s' A R := by
  have hlinks := hstep.sameLinks
  have hvalid := hstep.valid_subset
  refine ⟨fun x p' hp' => ?_, fun x hx => ?_, fun x p' q hp' hx hq => ?_, fun it hit => h.candidates it (hvalid hit),
    fun b hb => ?_⟩
  · obtain ⟨p, hp, -⟩ := hlinks.find hp'
    exact h.covered x p hp
  · obtain ⟨p, hp⟩ := h.present x hx
    obtain ⟨p', hp', -⟩ := hlinks.symm.find hp
    exact ⟨p', hp'⟩
  · obtain ⟨p, hp, -, hprev, -⟩ := hlinks.find hp'
    exact h.closed x p q hp hx (hprev.trans hq)
  · cases hstep with
    | link => exact h.best b hb
    | failed => exact h.best b hb
    | failedChild => exact h.best b hb
    | commit s₀ fork view it hashNew hit hchain =>
      cases hb
      obtain ⟨q, hq, rfl⟩ := hchain
      exact h.chain (h.candidates it hit) q hq

theorem Admitted.reorg {env : NodeContext} (h : Admitted s A R) (hsteps : ChainState.ReorgSteps env s s') :
    Admitted s' A R := by
  induction hsteps with
  | refl => exact h
  | tail _ hstep ih => exact ih.reorgStep hstep

/-- It does not matter how the two sets are given. -/
theorem Admitted.congr {A' R' : Uint256 → Prop} (h : Admitted s A R) (hA : ∀ x, A' x ↔ A x) (hR : ∀ x, R x → R' x) :
    Admitted s A' R' := by
  obtain rfl : A' = A := funext fun x => propext (hA x)
  exact ⟨fun x p hp => (h.covered x p hp).imp_right (hR x), h.present, h.closed, h.candidates, h.best⟩

end Admit

section Step

variable {env : NodeContext} {s : NodeState} {block : CBlock} {A R : Uint256 → Prop} {pindex : CBlockIndex}
  {r : Except Failure Unit}

/-- The predecessor of a new entry is the one that the block names, if it is in the index. -/
theorem pprev_of_fill (hfill : run (s.fillIndex env block) (s.startIndex env block) = (r, pindex)) {q : Uint256}
    (hq : pindex.pprev = some q) : q = block.hashPrevBlock ∧ ∃ p,
      s.mapBlockIndex.find block.hashPrevBlock = some p := by
  have hplace : pindex.place.pprev = (s.startIndex env block).place.pprev := by rw [NodeState.startIndex_place hfill]
  replace hplace : pindex.pprev = (s.startIndex env block).pprev := hplace
  rw [hq] at hplace
  unfold NodeState.startIndex BlockMap.linked at hplace
  split at hplace
  · rename_i p hp
    exact ⟨Option.some.inj hplace, p, hp⟩
  · cases hplace

/-- A rejected block stays apart. -/
theorem Admitted.reject (h : Admitted s.toChainState A R) (hbefore : s.checkBefore env block = .ok ())
    (hfill : run (s.fillIndex env block) (s.startIndex env block) = (r, pindex)) :
    Admitted ((s.writeToDisk env block).insertIndex env block pindex).toChainState A
      (fun x => R x ∨ block.getHash env.cr = x) := by
  have hfind := NodeState.find_insertIndex hbefore hfill
  have hnew := NodeState.find_of_checkBefore hbefore
  refine ⟨fun x p hp => ?_, fun x hx => ?_, fun x p q hp hx hq => ?_, h.candidates, h.best⟩
  · rw [hfind] at hp
    split at hp
    · rename_i heq
      exact .inr (.inr heq.symm)
    · exact (h.covered x p hp).imp_right .inl
  · obtain ⟨p, hp⟩ := h.present x hx
    refine ⟨p, ?_⟩
    rw [hfind, if_neg, hp]
    rintro rfl
    rw [hnew] at hp
    cases hp
  · rw [hfind] at hp
    split at hp
    · rename_i heq
      obtain ⟨p', hp'⟩ := h.present x hx
      rw [heq, hnew] at hp'
      cases hp'
    · exact h.closed x p q hp hx hq

/-- A block that passes joins the others, when its predecessor was not rejected. -/
theorem Admitted.accept (h : Admitted s.toChainState A R) (hbefore : s.checkBefore env block = .ok ())
    (hfill : run (s.fillIndex env block) (s.startIndex env block) = (r, pindex)) (hprev : ¬ R block.hashPrevBlock) :
    Admitted (s.withCandidate env block pindex).toChainState (fun x => A x ∨ block.getHash env.cr = x) R := by
  have hfind := NodeState.find_insertIndex hbefore hfill
  have hnew := NodeState.find_of_checkBefore hbefore
  have hhash : pindex.phashBlock = block.getHash env.cr := by
    have hp := hfind (block.getHash env.cr)
    rw [if_pos rfl] at hp
    exact BlockMap.hash_eq _ _ _ hp
  refine ⟨fun x p hp => ?_, fun x hx => ?_, fun x p q hp hx hq => ?_, fun it hit => ?_, fun b hb => .inl (h.best b hb)⟩
  · replace hp := (hfind x).symm.trans hp
    split at hp
    · rename_i heq
      exact .inl (.inr heq.symm)
    · exact (h.covered x p hp).imp_left .inl
  · rcases hx with hx | rfl
    · obtain ⟨p, hp⟩ := h.present x hx
      refine ⟨p, (hfind x).trans ?_⟩
      rw [if_neg, hp]
      rintro rfl
      rw [hnew] at hp
      cases hp
    · exact ⟨pindex, (hfind _).trans (if_pos rfl)⟩
  · replace hp := (hfind x).symm.trans hp
    split at hp
    · cases hp
      obtain ⟨rfl, p, hp⟩ := pprev_of_fill hfill hq
      exact .inl ((h.covered _ p hp).resolve_right hprev)
    · rename_i hne
      exact .inl (h.closed x p q hp (hx.resolve_right fun heq => hne heq.symm) hq)
  · rcases List.mem_cons.mp hit with rfl | hit
    · exact .inr hhash.symm
    · exact .inl (h.candidates it hit)

end Step

/-! ## Every run -/

/-- A node that is started: its candidates and its best block are in its index. -/
structure NodeState.Started (s : NodeState) : Prop where
  candidates : ∀ it ∈ s.setBlockIndexValid, ∃ p, s.mapBlockIndex.find it.hash = some p
  best : ∀ b, s.pindexBest = some b → ∃ p, s.mapBlockIndex.find b = some p

section Runs

variable {cfg : Settings} {cr : Crypto} {s₀ : NodeState} {es : List AcceptEvent}

/-- The blocks that were in the index at the start, and those that passed since. -/
def KnownOrPassed (cfg : Settings) (cr : Crypto) (s₀ : NodeState) (es : List AcceptEvent) (x : Uint256) : Prop :=
  (∃ p, s₀.mapBlockIndex.find x = some p) ∨ Occurs (NodeState.accept cfg cr) (NodeState.Passes cfg cr x) s₀ es

/-- The blocks that were rejected since the start. -/
def Rejected (cfg : Settings) (cr : Crypto) (s₀ : NodeState) (es : List AcceptEvent) (x : Uint256) : Prop :=
  Occurs (NodeState.accept cfg cr) (NodeState.Rejects cfg cr x) s₀ es

/-- No block of the run was handed over above a block that had been rejected. -/
def NoneAboveRejected (cfg : Settings) (cr : Crypto) (s₀ : NodeState) (es : List AcceptEvent) : Prop :=
  ∀ es₁ e es₂, es = es₁ ++ e :: es₂ → ¬ Rejected cfg cr s₀ es₁ e.block.hashPrevBlock

theorem knownOrPassed_concat {e : AcceptEvent} {x : Uint256} : KnownOrPassed cfg cr s₀ (es ++ [e]) x ↔
    KnownOrPassed cfg cr s₀ es x ∨ (exec (NodeState.accept cfg cr) s₀ es).Passes cfg cr x e := by
  unfold KnownOrPassed
  rw [occurs_concat, or_assoc]

/-- **One more block keeps the invariant**, when it is not handed over above a rejected one. -/
theorem admitted_step {e : AcceptEvent}
    (h : Admitted (exec (NodeState.accept cfg cr) s₀ es).toChainState (KnownOrPassed cfg cr s₀ es)
      (Rejected cfg cr s₀ es))
    (hprev : ¬ Rejected cfg cr s₀ es e.block.hashPrevBlock) :
    Admitted (exec (NodeState.accept cfg cr) s₀ (es ++ [e])).toChainState (KnownOrPassed cfg cr s₀ (es ++ [e]))
      (Rejected cfg cr s₀ (es ++ [e])) := by
  rw [exec_append]
  show Admitted ((exec (NodeState.accept cfg cr) s₀ es).accept cfg cr e).toChainState _ _
  set s := exec (NodeState.accept cfg cr) s₀ es with hs
  have hrejected : ∀ x, Rejected cfg cr s₀ (es ++ [e]) x ↔ Rejected cfg cr s₀ es x ∨ s.Rejects cfg cr x e :=
    fun x => occurs_concat
  replace h : Admitted (s.before e).toChainState (KnownOrPassed cfg cr s₀ es) (Rejected cfg cr s₀ es) :=
    ⟨h.covered, h.present, h.closed, h.candidates, h.best⟩
  have heffect := s.accept_cases cfg cr e
  generalize s.accept cfg cr e = s' at heffect ⊢
  cases heffect with
  | refused hpasses =>
    refine h.congr (fun x => ?_) fun x hx => (hrejected x).mpr (.inl hx)
    rw [knownOrPassed_concat]
    exact or_iff_left (hpasses x)
  | rejected failure pindex hfills hpasses hrejects =>
    refine (h.reject hfills.1 hfills.2).congr (fun x => ?_) fun x hx => (hrejected x).mpr ?_
    · rw [knownOrPassed_concat]
      exact or_iff_left (hpasses x)
    · exact hx.imp_right (hrejects x).mpr
  | added pindex c hfills hsteps hpasses =>
    refine ((h.accept hfills.1 hfills.2 hprev).reorg hsteps).congr (fun x => ?_) fun x hx => (hrejected x).mpr (.inl hx)
    rw [knownOrPassed_concat]
    exact or_congr_right (hpasses x)

theorem admitted_run (hs : s₀.Started) (h : NoneAboveRejected cfg cr s₀ es) :
    Admitted (exec (NodeState.accept cfg cr) s₀ es).toChainState (KnownOrPassed cfg cr s₀ es)
      (Rejected cfg cr s₀ es) := by
  induction es using List.reverseRecOn with
  | nil =>
    refine ⟨fun x p hp => .inl (.inl ⟨p, hp⟩), fun x hx => ?_, fun x p q hp hx hq => ?_,
      fun it hit => .inl (hs.candidates it hit), fun b hb => .inl (hs.best b hb)⟩
    · exact hx.resolve_right not_occurs_nil
    · obtain ⟨hnone, -⟩ | ⟨q', pprev, hq', hpprev, -⟩ := s₀.mapBlockIndex.prev_in x p hp
      · rw [hq] at hnone
        cases hnone
      · rw [hq, Option.some.injEq] at hq'
        exact .inl ⟨pprev, hq' ▸ hpprev⟩
  | append_singleton es e ih =>
    refine admitted_step (ih fun es₁ e' es₂ hes => ?_) (h es e [] rfl)
    exact h es₁ e' (es₂ ++ [e]) (by rw [hes]; simp)

/-- **Every block of the best chain has passed the checks of `AddToBlockIndex`** when it was received, in every state of
a run in which no block is handed over above a rejected one. -/
theorem bestChain_passed (hs : s₀.Started) (h : NoneAboveRejected cfg cr s₀ es) {b : Uint256}
    (hb : (exec (NodeState.accept cfg cr) s₀ es).pindexBest = some b) :
    ∀ q ∈ (exec (NodeState.accept cfg cr) s₀ es).mapBlockIndex.chain b,
      (∃ p, s₀.mapBlockIndex.find q.phashBlock = some p) ∨
      ∃ es₁ e es₂ pindex, es = es₁ ++ e :: es₂ ∧ e.block.getHash cr = q.phashBlock ∧
        (exec (NodeState.accept cfg cr) s₀ es₁).Fills cfg cr e (.ok ()) pindex ∧
        OwnChecks (e.context cfg cr) ((exec (NodeState.accept cfg cr) s₀ es₁).before e) e.block pindex := by
  intro q hq
  have hadmitted := admitted_run hs h
  refine (hadmitted.chain (hadmitted.best b hb) q hq).imp_right ?_
  rintro ⟨es₁, e, es₂, rfl, hhash, pindex, hfills⟩
  exact ⟨es₁, e, es₂, pindex, rfl, hhash, hfills, (fillIndex_ok hfills.2).1⟩

end Runs

/-! ## A block above a rejected one -/

/-- A vote for nothing. -/
def plainVoteScript : CScript := [0x6a, 0x51] ++ pushData [0x80, 0x84, 0x1e, 0x00, 0x00, 0x00, 0x00]

/-- A park rate result without rates. -/
def parkRateResult : CTxOut := { nValue := 0, scriptPubKey := [0x6a, 0x52] ++ pushData [0x42, 0x00] }

/-- A proof-of-stake block that spends an output of 50000 shares, with more outputs in its coinstake. -/
def stakeBlock (hash hashPrevBlock nTime staked : Nat) (extra : List CTxOut) : CBlock :=
  sampleBlock hash hashPrevBlock nTime
    [sampleCoinbase (1000 + hash) nTime CTxOut.empty,
      { nTime := nTime
        vin := [{ prevout := ⟨staked, 0⟩, scriptSig := sampleScriptSig }]
        vout := [CTxOut.empty, { nValue := 500400000, scriptPubKey := sampleScript },
          { nValue := 0, scriptPubKey := plainVoteScript }] ++ extra
        nLockTime := 2000 + hash
        cUnit := unitShare }]

/-- The event that hands it over. -/
def offered (hash hashPrevBlock nTime staked : Nat) (extra : List CTxOut) : AcceptEvent where
  block := stakeBlock hash hashPrevBlock nTime staked extra
  nAdjustedTime := 1400000120
  mapProofOfStake _ := some 0
  fuel := 3

/-- The index of a chain of 402 blocks. -/
def longMap : BlockMap :=
  BlockMap.line 401 fun n =>
    { pnext := if n < 401 then some (n + 2) else none
      nChainTrust := n + 1, fProofOfStake := true, fStakeModifier := true
      vote := { nCoinAgeDestroyed := 1 }, nProtocolVersion := protocolV0_5
      nTime := 1400000000 - 60 * (401 - n), nBits := 0x1e0fffff }

/-- A node that stands at the last of them, with two outputs of 50000 shares. -/
def longNode : NodeState where
  mapBlockIndex := longMap
  pindexBest := some 402
  pblocktree := OrderedStore.Store.empty
  setBlockIndexValid := [⟨402, 402⟩]
  pcoinsTip := { votingContext.view with bestBlock := some 402 }
  blocks _ := none
  txIndex := votingContext.txIndex

def noCheckpoints : Settings := { fCheckpoints := false }

theorem longNode_started : longNode.Started where
  candidates it hit := by
    obtain rfl := List.mem_singleton.mp hit
    exact Option.isSome_iff_exists.mp (by decide +kernel)
  best b hb := by
    cases hb
    exact Option.isSome_iff_exists.mp (by decide +kernel)

/-- A block without the park rate result that the chain expects is rejected. -/
theorem longNode_rejects :
    longNode.Rejects noCheckpoints Crypto.sample 403 (offered 403 402 1400000060 1 []) := by
  set e := offered 403 402 1400000060 1 [] with he
  have hfail : failure? (run ((longNode.before e).fillIndex (e.context noCheckpoints Crypto.sample) e.block)
      ((longNode.before e).startIndex (e.context noCheckpoints Crypto.sample) e.block)).1 =
        some (.error "AddToBlockIndex() : Park rate results do not match") := by
    decide +kernel
  exact ⟨by decide +kernel, _, _, toOption_eq_some.mp (by decide +kernel), Prod.ext (failure?_eq_some.mp hfail) rfl⟩

theorem bestChain_passed_sample :
    (exec (NodeState.accept noCheckpoints Crypto.sample) longNode
      [offered 403 402 1400000060 1 [parkRateResult]]).pindexBest = some 403 ∧
    ∀ q ∈ (exec (NodeState.accept noCheckpoints Crypto.sample) longNode
        [offered 403 402 1400000060 1 [parkRateResult]]).mapBlockIndex.chain 403,
      (∃ p, longNode.mapBlockIndex.find q.phashBlock = some p) ∨
      ∃ es₁ e es₂ pindex, [offered 403 402 1400000060 1 [parkRateResult]] = es₁ ++ e :: es₂ ∧
        e.block.getHash Crypto.sample = q.phashBlock ∧
        (exec (NodeState.accept noCheckpoints Crypto.sample) longNode es₁).Fills noCheckpoints Crypto.sample e (.ok ())
          pindex ∧
        OwnChecks (e.context noCheckpoints Crypto.sample)
          ((exec (NodeState.accept noCheckpoints Crypto.sample) longNode es₁).before e) e.block pindex := by
  have hbest : (exec (NodeState.accept noCheckpoints Crypto.sample) longNode
      [offered 403 402 1400000060 1 [parkRateResult]]).pindexBest = some 403 := by decide +kernel
  refine ⟨hbest, bestChain_passed longNode_started (fun es₁ e es₂ hes => ?_) hbest⟩
  obtain ⟨rfl, -⟩ : es₁ = [] ∧ _ := List.append_eq_singleton_iff.mp hes.symm |>.resolve_right (by simp)
  exact not_occurs_nil

/-- A block that `AddToBlockIndex` rejected gets into the best chain below a block that is accepted. -/
theorem rejected_in_bestChain :
    longNode.Started ∧
    (exec (NodeState.accept noCheckpoints Crypto.sample) longNode
      [offered 403 402 1400000060 1 [], offered 404 403 1400000120 2 [parkRateResult]]).pindexBest = some 404 ∧
    ¬ ∀ q ∈ (exec (NodeState.accept noCheckpoints Crypto.sample) longNode
        [offered 403 402 1400000060 1 [], offered 404 403 1400000120 2 [parkRateResult]]).mapBlockIndex.chain 404,
      KnownOrPassed noCheckpoints Crypto.sample longNode
        [offered 403 402 1400000060 1 [], offered 404 403 1400000120 2 [parkRateResult]] q.phashBlock := by
  refine ⟨longNode_started, by decide +kernel, fun hall => ?_⟩
  have hmem : ((exec (NodeState.accept noCheckpoints Crypto.sample) longNode
      [offered 403 402 1400000060 1 [], offered 404 403 1400000120 2 [parkRateResult]]).mapBlockIndex.chain 404).any
        (·.phashBlock = 403) = true := by decide +kernel
  obtain ⟨q, hq, hhash⟩ := List.any_eq_true.mp hmem
  rw [decide_eq_true_eq] at hhash
  have hpassed := hall q hq
  rw [hhash] at hpassed
  rcases hpassed with hknown | ⟨es₁, e, es₂, hes, he, pindex, -, hfill⟩
  · exact absurd (Option.isSome_iff_exists.mpr hknown) (by decide +kernel)
  · rcases es₁ with - | ⟨e₁, es₁⟩
    · obtain ⟨rfl, -⟩ := List.cons.inj hes
      obtain ⟨-, failure, pindex', -, hfail⟩ := longNode_rejects
      cases hfill.symm.trans hfail
    · obtain ⟨-, hes⟩ := List.cons.inj hes
      rcases es₁ with - | ⟨e₂, es₁⟩
      · obtain ⟨rfl, -⟩ := List.cons.inj hes
        exact absurd he (by decide +kernel)
      · simp at hes

end Morcochain
