import Morcochain.BlockFees
import Morcochain.ChainVotes
import Morcochain.CoinAge
import Morcochain.ProofOfStake
import Morcochain.VoteScript
import Morcochain.Lib.Retry

/-!
# Creating a coinstake

`CWallet::CreateCoinStake` (`wallet.cpp`): a kernel is searched among the coins of the wallet, small coins of the same
key are added to it, and the stake with its reward is paid to outputs that may be split, beside outputs for the vote and
for the park rates that result from it.

* `setAmounts_spec` : which outputs get an amount.
* `addInputs_spec`, `prepare_spec` : the coins that are spent, and the outputs before they have amounts.
* `stakeRound_spec` : **the fee loop takes one turn**.
-/

set_option autoImplicit false

namespace Morcochain

open Guard Retry

/-! ## Coins -/

/-- A coin of the wallet, as `AvailableCoins` offers it: the number of an output of a transaction. Outputs are counted
below the number of the null outpoint. -/
structure StakeCoin where
  tx : CTransaction
  n : Nat
  /-- `GetDepthInMainChain` -/
  nDepth : Int
  n_lt : n < tx.vout.length
  fits : tx.vout.length ≤ uintMax
  nValue_pos : 0 < (tx.vout.get ⟨n, n_lt⟩).nValue

namespace StakeCoin

variable (coin : StakeCoin)

def txout : CTxOut := coin.tx.vout.get ⟨coin.n, coin.n_lt⟩

def nValue : Int := coin.txout.nValue

/-- The outpoint that spends the coin. -/
def prevout (cr : Crypto) : COutPoint := ⟨coin.tx.getHash cr, coin.n⟩

theorem prevout_not_null (cr : Crypto) : (coin.prevout cr).isNull = false := by
  have hlt := lt_of_lt_of_le coin.n_lt coin.fits
  exact decide_eq_false fun h => absurd h.2 (Nat.ne_of_lt hlt)

end StakeCoin

/-- A kernel: the coin, how far before the time of the transaction it is one, and the script to pay the stake to. -/
structure StakeKernel where
  coin : StakeCoin
  n : Nat
  scriptPubKeyOut : CScript

/-! ## The kernel -/

/-- What `CreateCoinStake` reads of the node and of the wallet. -/
structure StakeContext extends CoinAgeContext where
  cUnit : CUnit
  fTxIndex : Bool
  /-- `GetTime` -/
  nNow : Int
  kernelState : KernelState
  /-- The chain of `pindexprev`. -/
  chainPrev : List CBlockIndex
  /-- The public key that `keystore.GetKey` finds for a key id. -/
  getKey : Uint160 → Option Bytes
  nBalance : Int
  /-- `-reservebalance`, `none` when it is not an amount. -/
  nReserveBalance : Option Int
  nSplitShareOutputs : Int
  /-- What `SelectCoins` returns for a target and a time, in the order of the set. -/
  selectCoins : Int → Nat → Option (List StakeCoin)
  vote : CVote
  /-- The script that `SignSignature` puts into an input in a round, for the script that it spends. -/
  signSignature : Nat → CTransaction → Nat → CScript → Option CScript

/-- An `unsigned int` time, some seconds earlier. -/
def secondsBefore (nTime n : Nat) : Nat := (((nTime : Int) - n) % 2 ^ 32).toNat

def nMaxStakeSearchInterval : Nat := 60

/-- A number that is kept in an `int`. -/
def toInt32 (x : Int) : Int := Int.bmod x (2 ^ 32)

namespace StakeContext

variable (c : StakeContext)

/-- Search backward in time from `nTime` for one coin. -/
def searchTimes (nBits nTime : Nat) (coin : StakeCoin) (record : CDiskTx) :
    List Nat → StakeModifierCache → Check (Option Nat × StakeModifierCache)
  | [], cache => .ok (none, cache)
  | n :: ns, cache =>
    let st := { c.kernelState with cache := cache }
    let q : KernelQuery := {
      nBits := nBits
      blockFrom := record.header
      nTxPrevOffset := record.nTxOffset + sizeofBlockHeader
      txPrev := coin.tx
      prevout := coin.prevout c.cr
      nTimeTx := secondsBefore nTime n }
    match q.checkStakeKernelHash c.cfg c.cr st with
    | .ok _ => .ok (some n, cache)
    | .error (.exception msg) => .error (.exception msg)
    | .error _ => searchTimes nBits nTime coin record ns (q.cacheAfter c.cfg c.cr st c.nNow)

/-- The script that a kernel with a script pays to: pay to address is converted to pay to public key. -/
def stakeScript (scriptPubKeyKernel : CScript) : Option CScript :=
  match solver scriptPubKeyKernel with
  | some (.pubkey, _) => some scriptPubKeyKernel
  | some (.pubkeyhash, vSolutions) =>
    (c.getKey (Uint160.ofBytes (vSolutions.getD 0 []))).map fun pubKey => pushData pubKey ++ [opChecksig]
  | _ => none

/-- The loop that searches for a kernel. It stops at the first one, also when its script is not supported. -/
def findKernel (nBits : Nat) (nSearchInterval : Int) (nTime : Nat) :
    List StakeCoin → StakeModifierCache → Check (Option StakeKernel)
  | [], _ => .ok none
  | coin :: coins, cache =>
    if coin.nValue < minCoinstakeValue then findKernel nBits nSearchInterval nTime coins cache
    else
      match c.txIndex (coin.tx.getHash c.cr) with
      | none => findKernel nBits nSearchInterval nTime coins cache
      | some record =>
        if record.header.nTime + c.cfg.nStakeMinAge > secondsBefore nTime nMaxStakeSearchInterval then
          findKernel nBits nSearchInterval nTime coins cache
        else
          match c.searchTimes nBits nTime coin record
              (List.range (min nSearchInterval nMaxStakeSearchInterval).toNat) cache with
          | .error e => .error e
          | .ok (none, cache) => findKernel nBits nSearchInterval nTime coins cache
          | .ok (some n, _) => .ok ((c.stakeScript coin.txout.scriptPubKey).map fun script => ⟨coin, n, script⟩)

/-! ## Inputs and outputs -/

/-- The loop that adds more inputs of the same key, with the inputs and their credit so far. -/
def addInputs (kernel : StakeKernel) (nLimit : Int) : List StakeCoin → List StakeCoin × Int → List StakeCoin × Int
  | [], s => s
  | coin :: coins, s =>
    let scriptPubKey := coin.txout.scriptPubKey
    if (scriptPubKey = kernel.coin.txout.scriptPubKey ∨ scriptPubKey = kernel.scriptPubKeyOut) ∧
        coin.tx.getHash c.cr ≠ kernel.coin.tx.getHash c.cr then
      if s.1.length ≥ 5 then s
      else if s.2 + coin.nValue > nLimit then s
      -- neither coins that are able to find a block, nor unconfirmed ones
      else if coin.nValue ≥ minCoinstakeValue then addInputs kernel nLimit coins s
      else if coin.nDepth = 0 then addInputs kernel nLimit coins s
      else addInputs kernel nLimit coins (s.1 ++ [coin], s.2 + coin.nValue)
    else addInputs kernel nLimit coins s

/-- `nOutputs`: -1 when outputs are not split. -/
def nOutputs (nCredit : Int) : Int :=
  if c.nSplitShareOutputs > 0 then min (toInt32 (Int.tdiv nCredit c.nSplitShareOutputs)) 5 else -1

end StakeContext

/-- `CParkRateVote::ToParkRateResultScript`. -/
def CParkRateVote.toParkRateResultScript (v : CParkRateVote) : CScript :=
    opReturn :: op2 :: pushData (writeParkRateVote v)

/-- Set the amounts of the stake outputs from place `i` on, all but the last of them the split amount. -/
def setAmounts (nSplit : Int) : Nat → Nat → Int → List CTxOut → List CTxOut
  | 0, i, nAmount, vout => vout.modify i fun txout => { txout with nValue := nAmount }
  | k + 1, i, nAmount, vout =>
    setAmounts nSplit k (i + 1) (nAmount - nSplit) (vout.modify i fun txout => { txout with nValue := nSplit })

/-- The coinstake before its outputs have amounts. -/
structure PreparedStake where
  txNew : CTransaction
  kernel : StakeKernel
  /-- The coins that are spent. -/
  coins : List StakeCoin
  /-- Their credit with the reward. -/
  nCredit : Int
  nOutputs : Int

namespace StakeContext

variable (c : StakeContext)

/-- `pindexdummy`, after `CalculateVotedFees`. -/
def pindexdummy (txNew : CTransaction) : CBlockIndex :=
  let pindex : CBlockIndex := { nTime := txNew.nTime }
  { pindex with mapVotedFee := calculateVotedFees (pindex :: c.chainPrev) }

/-- The outputs for the vote and for the park rates that result from it. -/
def voteOutputs (txNew : CTransaction) : Check (List CTxOut) := do
  let nProtocolVersion := getProtocolForNextBlock c.cfg c.chainPrev
  errorIf (!c.vote.isValid nProtocolVersion) "CreateCoinStake : current vote is invalid"
  let nCoinAgeDestroyed ← c.txCoinAge
    { txNew with vout := txNew.vout ++ [{ nValue := 0, scriptPubKey := c.vote.toScript nProtocolVersion }] }
  let vParkRateResult ←
    calculateParkRateResults { c.vote with nCoinAgeDestroyed := nCoinAgeDestroyed } c.chainPrev nProtocolVersion
  return { nValue := 0, scriptPubKey := c.vote.toScript nProtocolVersion } ::
    vParkRateResult.map fun parkRateResult => { nValue := 0, scriptPubKey := parkRateResult.toParkRateResultScript }

/-- `CreateCoinStake` before the loop. -/
def prepare (txNew : CTransaction) (nBits : Nat) (nSearchInterval : Int) : Check PreparedStake := do
  errorIf (!c.fTxIndex) "CreateCoinStake : transaction index unavailable"
  match c.nReserveBalance with
  | none => .error (.error "CreateCoinStake : invalid reserve balance amount")
  | some nReserveBalance => do
    errorIf (c.nBalance ≤ nReserveBalance) ""
    let setCoins := (c.selectCoins (c.nBalance - nReserveBalance) txNew.nTime).getD []
    errorIf (setCoins.isEmpty) ""
    let cache := cleanStakeModifierCache c.nNow c.kernelState.cache
    match ← c.findKernel nBits nSearchInterval txNew.nTime setCoins cache with
    | none => .error (.error "")
    | some kernel => do
      errorIf (kernel.coin.nValue = 0 ∨ kernel.coin.nValue > c.nBalance - nReserveBalance) ""
      let (coins, nCredit) :=
        c.addInputs kernel (c.nBalance - nReserveBalance) setCoins ([kernel.coin], kernel.coin.nValue)
      let nOutputs := c.nOutputs nCredit
      let txNew := { txNew with
        cUnit := c.cUnit
        nTime := secondsBefore txNew.nTime kernel.n
        vin := coins.map fun coin => { prevout := coin.prevout c.cr, scriptSig := [] }
        vout := CTxOut.empty :: List.replicate (1 + (nOutputs - 1).toNat)
          { nValue := 0, scriptPubKey := kernel.scriptPubKeyOut } }
      let vVoteOut ← c.voteOutputs txNew
      return {
        txNew := { txNew with vout := txNew.vout ++ vVoteOut }
        kernel := kernel
        coins := coins
        nCredit := nCredit + proofOfStakeReward
        nOutputs := nOutputs }

/-! ## The fee loop -/

/-- Sign the inputs from `nIn` on. -/
def signInputs (k : Nat) : List StakeCoin → Nat → CTransaction → Check CTransaction
  | [], _, txNew => .ok txNew
  | coin :: coins, nIn, txNew =>
    match c.signSignature k txNew nIn coin.txout.scriptPubKey with
    | none => .error (.error "CreateCoinStake : failed to sign coinstake")
    | some scriptSig =>
      signInputs k coins (nIn + 1)
        { txNew with vin := txNew.vin.modify nIn fun txin => { txin with scriptSig := scriptSig } }

/-- A turn of the loop, with the transaction and the fee so far. -/
def stakeRound (p : PreparedStake) (k : Nat) (s : CTransaction × Int) :
    Check (Turn (CTransaction × Int) CTransaction) := do
  let (txNew, nMinFee) := s
  let vout := setAmounts c.nSplitShareOutputs (p.nOutputs - 1).toNat 1 (p.nCredit - nMinFee) txNew.vout
  let txNew ← c.signInputs k p.coins 0 { txNew with vout := vout }
  errorIf (txNew.serializeSize ≥ maxCoinstakeSize) "CreateCoinStake : exceeded coinstake size limit"
  let chain := c.pindexdummy txNew :: c.chainPrev
  let nFee ← txNew.getMinFee chain 0
  let nUnitFee ← chainMinFee chain txNew.cUnit
  return if nMinFee < nFee - nUnitFee then .again (txNew, nFee - nUnitFee) else .done txNew

/-- `CreateCoinStake`. -/
def createCoinStake (txNew : CTransaction) (nBits : Nat) (nSearchInterval : Int) (fuel : Nat) :
    Option (Check CTransaction) :=
  match c.prepare txNew nBits nSearchInterval with
  | .error e => some (.error e)
  | .ok p => retry (c.stakeRound p) fuel 0 (p.txNew, 0)

end StakeContext

/-! ## Outputs with amounts -/

/-- The sum of the values of coins. -/
def sumCoins (coins : List StakeCoin) : Int := (coins.map (·.nValue)).sum

/-- Outputs that pay a stake to a script: all but the last of them the split amount. -/
def stakeOutputs (nSplit : Int) (script : CScript) (k : Nat) (nAmount : Int) : List CTxOut :=
  List.replicate k { nValue := nSplit, scriptPubKey := script } ++
    [{ nValue := nAmount - k * nSplit, scriptPubKey := script }]

section Outputs

variable (nSplit : Int) (script : CScript)

/-- **The amounts go to the stake outputs**, which are followed by others. -/
theorem setAmounts_spec (post : List CTxOut) :
    ∀ (k : Nat) (nAmount : Int) (pre stakes : List CTxOut), stakes.length = k + 1 →
    (∀ txout ∈ stakes, txout.scriptPubKey = script) →
    setAmounts nSplit k pre.length nAmount (pre ++ (stakes ++ post)) = pre ++
      (stakeOutputs nSplit script k nAmount ++ post)
  | k, nAmount, pre, [], hlen, _ => nomatch hlen
  | k, nAmount, pre, txout :: stakes, hlen, hscript => by
    obtain ⟨htxout, hrest⟩ := List.forall_mem_cons.mp hscript
    have hmodify : ∀ n : Int,
      (pre ++ (txout :: stakes ++ post)).modify pre.length (fun txout => { txout with nValue := n }) =
        pre ++ [{ nValue := n, scriptPubKey := script }] ++ (stakes ++ post) := by
      intro n
      have h := List.modifyTailIdx_add (List.modifyHead fun txout : CTxOut => { txout with nValue := n }) 0 pre
        (txout :: stakes ++ post)
      rw [← htxout, List.append_assoc]
      exact h
    cases k with
    | zero =>
      obtain rfl := List.eq_nil_of_length_eq_zero (Nat.succ.inj hlen)
      rw [setAmounts, hmodify]
      simp [stakeOutputs]
    | succ k =>
      have ih := setAmounts_spec post k (nAmount - nSplit) (pre ++ [{ nValue := nSplit, scriptPubKey := script }]) stakes
        (Nat.succ.inj hlen) hrest
      have hlast : nAmount - nSplit - k * nSplit = nAmount - ((k + 1 : Nat) : Int) * nSplit := by
        push_cast
        ring
      rw [List.length_append, List.length_singleton] at ih
      rw [setAmounts, hmodify, ih, stakeOutputs, stakeOutputs, List.replicate_succ, hlast]
      simp

/-- The stake outputs pay the amount. -/
theorem sum_stakeOutputs (nSplit : Int) (script : CScript) (k : Nat) (nAmount : Int) :
    ((stakeOutputs nSplit script k nAmount).map (·.nValue)).sum = nAmount := by
  unfold stakeOutputs
  rw [List.map_append, List.sum_append, List.map_replicate, List.sum_replicate, List.map_singleton, List.sum_singleton,
    nsmul_eq_mul]
  ring

/-- Outputs with amounts have a value when their sum is an amount. -/
theorem getValueOut_eq {tx : CTransaction} (hpos : ∀ txout ∈ tx.vout, 0 ≤ txout.nValue)
    (hsum : (tx.vout.map (·.nValue)).sum ≤ maxMoney) : tx.getValueOut = .ok (tx.vout.map (·.nValue)).sum := by
  have hloop : ∀ {l : List CTxOut} {n : Int}, (∀ txout ∈ l, 0 ≤ txout.nValue) → 0 ≤ n →
      n + (l.map (·.nValue)).sum ≤ maxMoney → CTransaction.sumOut n l = .ok (n + (l.map (·.nValue)).sum) := by
    intro l
    induction l with
    | nil =>
      intro n _ _ _
      rw [CTransaction.sumOut, List.map_nil, List.sum_nil, Int.add_zero]
    | cons txout l ih =>
      intro n hpos hn hsum
      obtain ⟨htxout, hrest⟩ := List.forall_mem_cons.mp hpos
      have hl : 0 ≤ (l.map (·.nValue)).sum := List.sum_nonneg fun x hx => by
        obtain ⟨txout', hmem, rfl⟩ := List.mem_map.mp hx
        exact hrest txout' hmem
      rw [List.map_cons, List.sum_cons] at hsum ⊢
      rw [CTransaction.sumOut, if_neg, ih hrest (by omega) (by omega), Int.add_assoc]
      simp
      omega
  have h := hloop hpos le_rfl (by rwa [Int.zero_add])
  rwa [Int.zero_add] at h

end Outputs

/-! ## The transaction before the loop -/

namespace StakeContext

/-- The script that the stake of a kernel is paid to: that of the kernel when it pays to a public key, the script of the
public key when it pays to its address. -/
def PaysKernel (c : StakeContext) (scriptPubKeyKernel scriptPubKeyOut : CScript) : Prop :=
  (∃ vSolutions, solver scriptPubKeyKernel = some (.pubkey, vSolutions) ∧ scriptPubKeyOut = scriptPubKeyKernel) ∨
  ∃ vSolutions pubKey, solver scriptPubKeyKernel = some (.pubkeyhash, vSolutions) ∧
    c.getKey (Uint160.ofBytes (vSolutions.getD 0 [])) = some pubKey ∧ scriptPubKeyOut = pushData pubKey ++ [opChecksig]

/-- The outputs for the vote and for the park rates, without value. -/
def VoteOutputs (c : StakeContext) (vVoteOut : List CTxOut) : Prop :=
  ∃ nCoinAgeDestroyed vParkRateResult,
    calculateParkRateResults { c.vote with nCoinAgeDestroyed := nCoinAgeDestroyed } c.chainPrev
      (getProtocolForNextBlock c.cfg c.chainPrev) = .ok vParkRateResult ∧
    vVoteOut = { nValue := 0, scriptPubKey := c.vote.toScript (getProtocolForNextBlock c.cfg c.chainPrev) } ::
      vParkRateResult.map fun parkRateResult => { nValue := 0, scriptPubKey := parkRateResult.toParkRateResultScript }

/-- What is prepared for the loop. -/
structure Prepares (c : StakeContext) (p : PreparedStake) (vVoteOut : List CTxOut) : Prop where
  kernel : p.coins.head? = some p.kernel.coin
  script : c.PaysKernel p.kernel.coin.txout.scriptPubKey p.kernel.scriptPubKeyOut
  votes : c.VoteOutputs vVoteOut
  nCredit : p.nCredit = sumCoins p.coins + proofOfStakeReward
  nOutputs : p.nOutputs = c.nOutputs (sumCoins p.coins)
  cUnit : p.txNew.cUnit = c.cUnit
  vin : p.txNew.vin.map (·.prevout) = p.coins.map (·.prevout c.cr)
  vout : p.txNew.vout = CTxOut.empty ::
    (List.replicate ((p.nOutputs - 1).toNat + 1) { nValue := 0, scriptPubKey := p.kernel.scriptPubKeyOut } ++ vVoteOut)

end StakeContext

section Prepare

variable {c : StakeContext} {p : PreparedStake} {txNew : CTransaction} {nBits : Nat} {nSearchInterval : Int}

theorem sumCoins_pos (coins : List StakeCoin) : 0 ≤ sumCoins coins := List.sum_nonneg fun x hx => by
  obtain ⟨coin, -, rfl⟩ := List.mem_map.mp hx
  exact le_of_lt coin.nValue_pos

theorem stakeScript_ok {script out : CScript} (h : c.stakeScript script = some out) : c.PaysKernel script out := by
  unfold StakeContext.stakeScript at h
  split at h
  · rename_i vSolutions hsolver
    cases h
    exact .inl ⟨vSolutions, hsolver, rfl⟩
  · rename_i vSolutions hsolver
    obtain ⟨pubKey, hkey, rfl⟩ := Option.map_eq_some_iff.mp h
    exact .inr ⟨vSolutions, pubKey, hsolver, hkey, rfl⟩
  · cases h

/-- A kernel that is found has a script that can be paid to. -/
theorem findKernel_ok {nTime : Nat} {kernel : StakeKernel} : ∀ {coins : List StakeCoin} {cache : StakeModifierCache},
    c.findKernel nBits nSearchInterval nTime coins cache = .ok (some kernel) →
      c.PaysKernel kernel.coin.txout.scriptPubKey kernel.scriptPubKeyOut
  | [], _, h => nomatch h
  | coin :: coins, cache, h => by
    unfold StakeContext.findKernel at h
    split at h
    · exact findKernel_ok h
    · split at h
      · exact findKernel_ok h
      · split at h
        · exact findKernel_ok h
        · split at h
          · cases h
          · exact findKernel_ok h
          · obtain ⟨script, hscript, rfl⟩ := Option.map_eq_some_iff.mp (Except.ok.inj h)
            exact stakeScript_ok hscript

/-- **The inputs that are added** come after those before, and their credit is added. -/
theorem addInputs_spec (kernel : StakeKernel) (nLimit : Int) : ∀ (coins : List StakeCoin) (s : List StakeCoin × Int),
    s.2 = sumCoins s.1 → ∃ added, c.addInputs kernel nLimit coins s = (s.1 ++ added, sumCoins (s.1 ++ added))
  | [], s, h => ⟨[], by rw [List.append_nil, ← h]; rfl⟩
  | coin :: coins, s, h => by
    have hstop : ∃ added, s = (s.1 ++ added, sumCoins (s.1 ++ added)) := ⟨[], by rw [List.append_nil, ← h]⟩
    unfold StakeContext.addInputs
    dsimp only
    split
    · split
      · exact hstop
      · split
        · exact hstop
        · split
          · exact addInputs_spec kernel nLimit coins s h
          · split
            · exact addInputs_spec kernel nLimit coins s h
            · obtain ⟨added, hadded⟩ := addInputs_spec kernel nLimit coins (s.1 ++ [coin], s.2 + coin.nValue) (by
                rw [h]
                simp [sumCoins])
              exact ⟨coin :: added, by rw [hadded]; simp⟩
    · exact addInputs_spec kernel nLimit coins s h

/-- **The credit is enough for the outputs** that it is split into. -/
theorem nOutputs_le {nCredit : Int} (hcredit : 0 ≤ nCredit) (h : 0 < (c.nOutputs nCredit - 1).toNat) :
    0 < c.nSplitShareOutputs ∧
      (((c.nOutputs nCredit - 1).toNat : Int) + 1) * c.nSplitShareOutputs ≤ nCredit := by
  unfold StakeContext.nOutputs at h ⊢
  split at h
  · rename_i hsplit
    rw [if_pos hsplit]
    refine ⟨hsplit, ?_⟩
    have hquot : 0 ≤ Int.tdiv nCredit c.nSplitShareOutputs := Int.tdiv_nonneg hcredit (le_of_lt hsplit)
    have hwrap : toInt32 (Int.tdiv nCredit c.nSplitShareOutputs) ≤ Int.tdiv nCredit c.nSplitShareOutputs := by
      unfold toInt32
      rw [Int.bmod_def]
      generalize Int.tdiv nCredit c.nSplitShareOutputs = nQuotient at hquot
      split <;> omega
    have hnum : ((min (toInt32 (Int.tdiv nCredit c.nSplitShareOutputs)) 5 - 1).toNat : Int) + 1 ≤
        Int.tdiv nCredit c.nSplitShareOutputs := by omega
    refine (Int.mul_le_mul_of_nonneg_right hnum (le_of_lt hsplit)).trans ?_
    rw [Int.tdiv_eq_ediv_of_nonneg hcredit]
    exact Int.ediv_mul_le _ (by omega)
  · exact absurd h (by decide)

theorem voteOutputs_ok {vVoteOut : List CTxOut} (h : c.voteOutputs txNew = .ok vVoteOut) : c.VoteOutputs vVoteOut := by
  unfold StakeContext.voteOutputs at h
  obtain ⟨_, -, h⟩ := bind_eq_ok.mp h
  obtain ⟨nCoinAgeDestroyed, -, h⟩ := bind_eq_ok.mp h
  obtain ⟨vParkRateResult, hresult, h⟩ := bind_eq_ok.mp h
  cases h
  exact ⟨nCoinAgeDestroyed, vParkRateResult, hresult, rfl⟩

/-- **What is there before the loop.** -/
theorem prepare_spec (h : c.prepare txNew nBits nSearchInterval = .ok p) : ∃ vVoteOut, c.Prepares p vVoteOut := by
  unfold StakeContext.prepare at h
  obtain ⟨_, -, h⟩ := bind_eq_ok.mp h
  split at h
  · cases h
  · obtain ⟨_, -, h⟩ := bind_eq_ok.mp h
    obtain ⟨_, -, h⟩ := bind_eq_ok.mp h
    obtain ⟨r, hkernel, h⟩ := bind_eq_ok.mp h
    split at h
    · cases h
    · rename_i kernel
      obtain ⟨_, -, h⟩ := bind_eq_ok.mp h
      obtain ⟨added, hadded⟩ :=
        addInputs_spec (c := c) kernel _ _ ([kernel.coin], kernel.coin.nValue) (by simp [sumCoins])
      rw [hadded] at h
      dsimp only at h
      obtain ⟨vVoteOut, hvotes, h⟩ := bind_eq_ok.mp h
      cases h
      refine ⟨vVoteOut, rfl, findKernel_ok hkernel, voteOutputs_ok hvotes, rfl, rfl, rfl, ?_, ?_⟩
      · rw [List.map_map]
        rfl
      · rw [Nat.add_comm]
        rfl

end Prepare

/-! ## The loop -/

section Loop

variable {c : StakeContext} {p : PreparedStake} {vVoteOut : List CTxOut} {k : Nat} {tx tx' : CTransaction}

/-- Signing fills in scripts, and leaves the rest. -/
theorem signStake_ok : ∀ {coins : List StakeCoin} {nIn : Nat} {tx tx' : CTransaction},
    c.signInputs k coins nIn tx = .ok tx' → tx'.vout = tx.vout ∧ tx'.cUnit = tx.cUnit ∧
      tx'.vin.map (·.prevout) = tx.vin.map (·.prevout)
  | [], _, _, _, h => by
    cases h
    exact ⟨rfl, rfl, rfl⟩
  | coin :: coins, nIn, tx, tx', h => by
    unfold StakeContext.signInputs at h
    split at h
    · cases h
    · obtain ⟨hout, hunit, hin⟩ := signStake_ok h
      exact ⟨hout, hunit, hin.trans (prevouts_modify ..)⟩

/-- The fee without that of one unit is nothing, whatever the fee is. -/
theorem getMinFee_le {chain : List CBlockIndex} {nFee nUnitFee : Int} (hfee : tx.getMinFee chain 0 = .ok nFee)
    (hunit : chainMinFee chain tx.cUnit = .ok nUnitFee) : nFee - nUnitFee ≤ 0 := by
  unfold CTransaction.getMinFee at hfee
  rw [hunit, ok_bind, pure_eq_ok, minFeeFor_zero (chainMinFee_nonneg hunit)] at hfee
  cases hfee
  omega

/-- What a turn of the loop does, whatever it ends with. -/
theorem stakeRound_ok {s : CTransaction × Int} {t : Turn (CTransaction × Int) CTransaction}
    (h : c.stakeRound p k s = .ok t) : ∃ tx nFee nUnitFee,
      tx.vout = setAmounts c.nSplitShareOutputs (p.nOutputs - 1).toNat 1 (p.nCredit - s.2) s.1.vout ∧
      tx.cUnit = s.1.cUnit ∧ tx.vin.map (·.prevout) = s.1.vin.map (·.prevout) ∧
      tx.getMinFee (c.pindexdummy tx :: c.chainPrev) 0 = .ok nFee ∧
      chainMinFee (c.pindexdummy tx :: c.chainPrev) tx.cUnit = .ok nUnitFee ∧
      t = if s.2 < nFee - nUnitFee then .again (tx, nFee - nUnitFee) else .done tx := by
  unfold StakeContext.stakeRound at h
  obtain ⟨tx, hsign, h⟩ := bind_eq_ok.mp h
  obtain ⟨_, -, h⟩ := bind_eq_ok.mp h
  obtain ⟨nFee, hfee, h⟩ := bind_eq_ok.mp h
  obtain ⟨nUnitFee, hunitFee, h⟩ := bind_eq_ok.mp h
  cases h
  obtain ⟨hout, hunit, hin⟩ := signStake_ok hsign
  exact ⟨tx, nFee, nUnitFee, hout, hunit, hin, hfee, hunitFee, rfl⟩

/-- **The loop takes one turn.** -/
theorem stakeRound_spec {s : CTransaction × Int} (hs : 0 ≤ s.2) {s' : CTransaction × Int} :
    c.stakeRound p k s ≠ .ok (.again s') := by
  intro h
  obtain ⟨tx, nFee, nUnitFee, -, -, -, hfee, hunitFee, heq⟩ := stakeRound_ok h
  have hle := getMinFee_le hfee hunitFee
  rw [if_neg (by omega)] at heq
  cases heq

end Loop

/-! ## The coinstake -/

/-- A coinstake that was created from a kernel and further coins. -/
structure CoinStakeOk (c : StakeContext) (tx : CTransaction) (kernel : StakeKernel) (coins : List StakeCoin)
    (stakes vVoteOut : List CTxOut) : Prop where
  /-- The kernel is the first of the coins that are spent. -/
  first : coins.head? = some kernel.coin
  vin : tx.vin.map (·.prevout) = coins.map (·.prevout c.cr)
  vout : tx.vout = CTxOut.empty :: (stakes ++ vVoteOut)
  stake : stakes ≠ []
  /-- All stake outputs have one script, by which the owner of the kernel is paid. -/
  scripts : ∀ txout ∈ stakes, txout.scriptPubKey = kernel.scriptPubKeyOut
  script : c.PaysKernel kernel.coin.txout.scriptPubKey kernel.scriptPubKeyOut
  /-- The outputs but the last have the split amount, and the last one has no less. -/
  split : ∀ txout ∈ stakes.dropLast, txout.nValue = c.nSplitShareOutputs
  last : 1 < stakes.length → ∀ txout ∈ stakes.getLast?, c.nSplitShareOutputs ≤ txout.nValue
  positive : ∀ txout ∈ stakes, 0 ≤ txout.nValue
  votes : c.VoteOutputs vVoteOut
  noValue : ∀ txout ∈ vVoteOut, txout.nValue = 0
  /-- The inputs and the reward are paid out, but for the fee. -/
  sum : ∃ nMinFee nUnitFee, tx.getMinFee (c.pindexdummy tx :: c.chainPrev) 0 = .ok nMinFee ∧
    chainMinFee (c.pindexdummy tx :: c.chainPrev) tx.cUnit = .ok nUnitFee ∧
    (tx.vout.map (·.nValue)).sum = sumCoins coins + proofOfStakeReward - max 0 (nMinFee - nUnitFee)

section Created

variable {c : StakeContext} {p : PreparedStake} {stakes vVoteOut : List CTxOut} {tx : CTransaction} {kernel : StakeKernel}
  {coins : List StakeCoin}

theorem StakeContext.VoteOutputs.noValue (h : c.VoteOutputs vVoteOut) : ∀ txout ∈ vVoteOut, txout.nValue = 0 := by
  obtain ⟨_, vParkRateResult, -, rfl⟩ := h
  intro txout htxout
  rcases List.mem_cons.mp htxout with rfl | htxout
  · rfl
  · obtain ⟨_, -, rfl⟩ := List.mem_map.mp htxout
    rfl

theorem sum_noValue {l : List CTxOut} (h : ∀ txout ∈ l, txout.nValue = 0) : (l.map (·.nValue)).sum = 0 :=
  List.sum_eq_zero fun x hx => by
    obtain ⟨txout, htxout, rfl⟩ := List.mem_map.mp hx
    exact h txout htxout

/-- **The turn that is taken** completes the coinstake. -/
theorem stakeRound_done (hp : c.Prepares p vVoteOut) {k : Nat} (h : c.stakeRound p k (p.txNew, 0) = .ok (.done tx)) :
    ∃ stakes, CoinStakeOk c tx p.kernel p.coins stakes vVoteOut ∧ tx.cUnit = c.cUnit := by
  obtain ⟨tx', nFee, nUnitFee, hout, hunit, hin, hfee, hunitFee, heq⟩ := stakeRound_ok h
  have hle := getMinFee_le hfee hunitFee
  rw [if_neg (by dsimp only; omega)] at heq
  cases heq
  have hset := setAmounts_spec c.nSplitShareOutputs p.kernel.scriptPubKeyOut vVoteOut (p.nOutputs - 1).toNat p.nCredit
    [CTxOut.empty]
    (List.replicate ((p.nOutputs - 1).toNat + 1) { nValue := 0, scriptPubKey := p.kernel.scriptPubKeyOut })
    (List.length_replicate) fun txout htxout => by rw [List.eq_of_mem_replicate htxout]
  have hvout : tx.vout =
    CTxOut.empty :: (stakeOutputs c.nSplitShareOutputs p.kernel.scriptPubKeyOut (p.nOutputs - 1).toNat
      p.nCredit ++ vVoteOut) := by
    rw [hout, hp.vout, Int.sub_zero]
    exact hset
  have hreward : 0 ≤ proofOfStakeReward := by decide
  have hsplit : 0 < (p.nOutputs - 1).toNat → 0 ≤ c.nSplitShareOutputs ∧
      c.nSplitShareOutputs ≤ p.nCredit - (p.nOutputs - 1).toNat * c.nSplitShareOutputs := by
    intro hmore
    rw [hp.nOutputs] at hmore ⊢
    obtain ⟨hpos, henough⟩ := nOutputs_le (sumCoins_pos p.coins) hmore
    rw [Int.add_mul, Int.one_mul] at henough
    rw [hp.nCredit]
    omega
  refine ⟨stakeOutputs c.nSplitShareOutputs p.kernel.scriptPubKeyOut (p.nOutputs - 1).toNat p.nCredit, ?_,
    hunit.trans hp.cUnit⟩
  refine ⟨hp.kernel, hin.trans hp.vin, hvout, List.append_ne_nil_of_right_ne_nil _ (List.cons_ne_nil _ _),
    fun txout htxout => ?_, hp.script, fun txout htxout => ?_, fun hlong txout htxout => ?_, fun txout htxout => ?_,
      hp.votes,
    hp.votes.noValue, nFee, nUnitFee, hfee, hunitFee, ?_⟩
  · rcases List.mem_append.mp htxout with hsplit | hlast
    · rw [List.eq_of_mem_replicate hsplit]
    · rw [List.mem_singleton.mp hlast]
  · rw [stakeOutputs, List.dropLast_concat] at htxout
    rw [List.eq_of_mem_replicate htxout]
  · rw [stakeOutputs, List.getLast?_concat, Option.mem_some_iff] at htxout
    rw [stakeOutputs, List.length_append, List.length_replicate, List.length_singleton] at hlong
    rw [← htxout]
    exact (hsplit (by omega)).2
  · rcases List.mem_append.mp htxout with hmem | hlast
    · obtain ⟨hne, rfl⟩ := List.mem_replicate.mp hmem
      exact (hsplit (Nat.pos_of_ne_zero hne)).1
    · rw [List.mem_singleton.mp hlast]
      rcases Nat.eq_zero_or_pos (p.nOutputs - 1).toNat with hone | hmore
      · rw [hone, hp.nCredit]
        have := sumCoins_pos p.coins
        dsimp only
        omega
      · obtain ⟨hpos, hlast⟩ := hsplit hmore
        exact hpos.trans hlast
  · rw [hvout, List.map_cons, List.sum_cons, List.map_append, List.sum_append, sum_stakeOutputs,
      sum_noValue hp.votes.noValue,
      hp.nCredit, max_eq_left hle]
    show (0 : Int) + _ = _
    omega

/-- The coinstake is one for `CheckInputs`. -/
theorem CoinStakeOk.isCoinStake (h : CoinStakeOk c tx kernel coins stakes vVoteOut) (hunit : tx.cUnit = unitShare) :
    tx.isCoinStake = true := by
  obtain ⟨coins', rfl⟩ : ∃ coins', coins = kernel.coin :: coins' := List.head?_eq_some_iff.mp h.first
  cases hvin : tx.vin with
  | nil =>
    have hprevouts := h.vin
    rw [hvin] at hprevouts
    cases hprevouts
  | cons txin vin =>
    have hprevouts := h.vin
    rw [hvin, List.map_cons, List.map_cons] at hprevouts
    have hprevout : txin.prevout = kernel.coin.prevout c.cr := (List.cons.inj hprevouts).1
    have hlen := List.length_pos_of_ne_nil h.stake
    unfold CTransaction.isCoinStake CTransaction.prevout0
    rw [decide_eq_true_eq, hvin, h.vout]
    refine ⟨hunit, Nat.succ_pos _, ?_, ?_, rfl⟩
    · rw [List.head?_cons, Option.map_some, Option.any_some, hprevout, kernel.coin.prevout_not_null]
      rfl
    · rw [List.length_cons, List.length_append]
      omega

/-- A value of outputs is an amount. -/
theorem getValueOut_le {nValueOut : Int} (h : tx.getValueOut = .ok nValueOut) : nValueOut ≤ maxMoney := by
  have hloop : ∀ {l : List CTxOut} {m n : Int}, m ≤ maxMoney → CTransaction.sumOut m l = .ok n → n ≤ maxMoney := by
    intro l
    induction l with
    | nil =>
      intro m n hm h
      cases h
      exact hm
    | cons txout l ih =>
      intro m n _ h
      unfold CTransaction.sumOut at h
      split at h
      · cases h
      · rename_i hrange
        simp only [Bool.or_eq_true, Bool.not_eq_true', not_or, Bool.not_eq_false, moneyRange_iff] at hrange
        exact ih hrange.2.2 h
  exact hloop (by decide) h

/-- The voted fee of a block that has another one before it is not its own. -/
theorem chainMinFee_cons {chain : List CBlockIndex} (hchain : chain ≠ []) (pindex pindex' : CBlockIndex)
    (cUnit : CUnit) :
    chainMinFee (pindex :: chain) cUnit = chainMinFee (pindex' :: chain) cUnit := by
  have hpos := List.length_pos_of_ne_nil hchain
  have hindex : min feeVoteDelayBlocks ((pindex :: chain).length - 1) =
      min (feeVoteDelayBlocks - 1) (chain.length - 1) + 1 := by
    have hdelay : 0 < feeVoteDelayBlocks := by decide
    rw [List.length_cons]
    omega
  unfold chainMinFee
  rw [show (pindex' :: chain).length = (pindex :: chain).length from rfl, hindex, List.getElem?_cons_succ,
    List.getElem?_cons_succ]

/-- **The stake reward is accepted** exactly when what is paid out is an amount. -/
theorem CoinStakeOk.reward (h : CoinStakeOk c tx kernel coins stakes vVoteOut) (hunit : tx.cUnit = unitShare)
    (hprev : c.chainPrev ≠ []) : checkAmounts tx c.chainPrev (sumCoins coins) false = .ok () ↔
      sumCoins coins + proofOfStakeReward ≤ maxMoney := by
  obtain ⟨nMinFee, nUnitFee, hmin, hfee, hsum⟩ := h.sum
  have hle := getMinFee_le hmin hfee
  rw [max_eq_left hle, Int.sub_zero] at hsum
  have hunitFee : tx.getUnitMinFeeFromPrevBlock c.chainPrev = .ok nUnitFee :=
    (chainMinFee_cons hprev _ _ _).trans hfee
  constructor
  · intro hcheck
    obtain ⟨_, nValueOut, -, hout⟩ := checkAmounts_reads hcheck
    have hrange := getValueOut_le hout
    rwa [getValueOut_ok hout, hsum] at hrange
  · intro hrange
    have hpos : ∀ txout ∈ tx.vout, 0 ≤ txout.nValue := by
      intro txout htxout
      rw [h.vout] at htxout
      rcases List.mem_cons.mp htxout with rfl | htxout
      · exact le_rfl
      · rcases List.mem_append.mp htxout with hstake | hvote
        · exact h.positive txout hstake
        · rw [h.noValue txout hvote]
    rw [checkAmounts_iff hunitFee (getValueOut_eq hpos (by rwa [hsum])), if_pos (h.isCoinStake hunit), hsum]
    omega

/-- **The coinstake** that is completed: the loop ends, and what it leaves pays the inputs and the reward, without the
fee, to the kernel's owner, in outputs that are split as they are to be; the outputs for the votes have no value; and
the stake reward is accepted in a block after `pindexprev` exactly when what is paid out is an amount. -/
theorem createCoinStake_law (c : StakeContext) (hunit : c.cUnit = unitShare) (hprev : c.chainPrev ≠ [])
    (txNew : CTransaction) (nBits : Nat) (nSearchInterval : Int) {fuel : Nat} (hfuel : 0 < fuel) :
    ∃ r, c.createCoinStake txNew nBits nSearchInterval fuel = some r ∧ ∀ tx, r = .ok tx →
      ∃ kernel coins stakes vVoteOut, CoinStakeOk c tx kernel coins stakes vVoteOut ∧
        (checkAmounts tx c.chainPrev (sumCoins coins) false = .ok () ↔ sumCoins coins + proofOfStakeReward ≤ maxMoney) := by
  unfold StakeContext.createCoinStake
  cases hp : c.prepare txNew nBits nSearchInterval with
  | error e => exact ⟨.error e, rfl, fun tx h => nomatch h⟩
  | ok p =>
    obtain ⟨vVoteOut, hprepares⟩ := prepare_spec hp
    obtain ⟨fuel, rfl⟩ := Nat.exists_eq_add_one_of_ne_zero (Nat.ne_of_gt hfuel)
    dsimp only
    unfold retry
    cases hround : c.stakeRound p 0 (p.txNew, 0) with
    | error e => exact ⟨.error e, rfl, fun tx h => nomatch h⟩
    | ok t =>
      cases t with
      | again s' => exact absurd hround (stakeRound_spec le_rfl)
      | done tx =>
        refine ⟨.ok tx, rfl, fun tx' htx' => ?_⟩
        cases htx'
        obtain ⟨stakes, hok, hcUnit⟩ := stakeRound_done hprepares hround
        exact ⟨p.kernel, p.coins, stakes, vVoteOut, hok, hok.reward (hcUnit.trans hunit) hprev⟩

/-! ## A kernel that pays to an address, of the greatest value -/

/-- A coin of all the money there can be, of an address. -/
def wholeStake : StakeCoin where
  tx := {
    cUnit := unitShare
    vout := [{ nValue := maxMoney, scriptPubKey := setDestination (.keyID default) }]
    nLockTime := 5 }
  n := 0
  nDepth := 10000
  n_lt := Nat.one_pos
  fits := by decide
  nValue_pos := by decide

/-- A wallet that has this coin, eight days old, and its key. -/
def wholeStakeWallet : StakeContext where
  cfg := {}
  cr := Crypto.sample
  view := { getCoins := fun _ => some (.ofTx wholeStake.tx 1), bestBlock := none }
  txIndex _ := some ⟨{}, 0, wholeStake.tx⟩
  cUnit := unitShare
  fTxIndex := true
  nNow := 700000
  kernelState := { mapBlockIndex := .empty, pindexBest := none, pblocktree := .empty }
  chainPrev := [{}]
  getKey _ := some (List.replicate 33 2)
  nBalance := maxMoney
  nReserveBalance := some 0
  nSplitShareOutputs := minCoinstakeValue
  selectCoins _ _ := some [wholeStake]
  vote := {}
  signSignature _ _ _ _ := some []

/-- The coinstake that the wallet creates, if it does. -/
def wholeCoinStake : Option CTransaction :=
  (wholeStakeWallet.createCoinStake { nTime := 700000 } 0x1e0fffff 1 1).bind (·.toOption)

theorem createCoinStake_law_sample : wholeStakeWallet.cUnit = unitShare ∧ wholeStakeWallet.chainPrev ≠ [] ∧
    ∃ r, wholeStakeWallet.createCoinStake { nTime := 700000 } 0x1e0fffff 1 1 = some r ∧ ∀ tx, r = .ok tx →
      ∃ kernel coins stakes vVoteOut, CoinStakeOk wholeStakeWallet tx kernel coins stakes vVoteOut ∧
        (checkAmounts tx wholeStakeWallet.chainPrev (sumCoins coins) false = .ok () ↔
          sumCoins coins + proofOfStakeReward ≤ maxMoney) :=
  ⟨rfl, List.cons_ne_nil _ _, createCoinStake_law wholeStakeWallet rfl (List.cons_ne_nil _ _) _ _ _ Nat.one_pos⟩

/-- **The outputs do not have the kernel's script** when it pays to an address, and the stake reward is not accepted
when the outputs are worth more than an amount. -/
theorem wholeCoinStake_converted :
    wholeCoinStake.map (fun tx => (tx.vin.map (·.prevout), tx.vout[1]?.map (·.scriptPubKey))) =
        some ([wholeStake.prevout Crypto.sample], some (pushData (List.replicate 33 2) ++ [opChecksig])) ∧
      pushData (List.replicate 33 2) ++ [opChecksig] ≠ wholeStake.txout.scriptPubKey ∧
      wholeCoinStake.map (fun tx => checkAmounts tx wholeStakeWallet.chainPrev wholeStake.nValue false) =
        some (.error (.exception "CTransaction::GetValueOut() : value out of range")) := by
  refine ⟨by decide +kernel, by decide, by decide +kernel⟩

end Created

end Morcochain
