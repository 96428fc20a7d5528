import Morcochain.Admission

/-!
# One grant for each address

Custodians that were granted before are not paid again: `CheckCustodianGrants` follows the `pprevElected` links that
`AddToBlockIndex` sets, and compares the grants of a block with those that the votes and these custodians leave.

* `electedChain_eq` : the links lead through all blocks below that have elected custodians.
* `getElectedCustodians_find?` : what is collected on the way.
* `not_elected_of_check` : **a block that passes grants nothing to an address that was granted below it.**
* `grantInv_step`, `oneGrantPerAddress` : so it is in every run from the genesis block on.
-/

set_option autoImplicit false

namespace Morcochain

open Guard Filling Run OrderedStore

/-! ## The links to elected custodians -/

/-- The link of each entry leads to its predecessor, if this has elected custodians, and else where the link of the
predecessor leads. -/
def ElectedLinks (m : BlockMap) : Prop :=
  ∀ h p, m.find h = some p → p.pprevElected = (p.pprev.bind m.find).bind fun q =>
    if q.vElectedCustodian ≠ [] then some q.phashBlock else q.pprevElected

/-- The custodian is one of the elected of an entry. -/
def CBlockIndex.Elects (fTestNet : Bool) (p : CBlockIndex) (a : CBitcoinAddress) : Prop :=
  ∃ v ∈ p.vElectedCustodian, v.getAddress fTestNet = some a

section Links

variable {m : BlockMap} {fTestNet : Bool}

theorem electedWalk_eq (hlinks : ElectedLinks m) {h : Uint256} {p : CBlockIndex} (hp : m.find h = some p) :
    ∀ fuel, (m.chain h).length ≤ fuel → electedWalk m.find fuel (some p) =
      p :: (m.prevChain p).filter (·.vElectedCustodian ≠ []) := by
  rw [BlockMap.chain_of_find hp]
  refine BlockMap.chain_induction (P := fun p => ∀ fuel, (p :: m.prevChain p).length ≤ fuel →
    electedWalk m.find fuel (some p) = p :: (m.prevChain p).filter (·.vElectedCustodian ≠ [])) ?_ ?_ h p hp
  · intro h p hp hroot fuel hfuel
    obtain ⟨fuel, rfl⟩ := Nat.exists_eq_add_one.mpr (Nat.lt_of_lt_of_le (Nat.succ_pos _) hfuel)
    have hlink := hlinks h p hp
    rw [hroot] at hlink
    rw [electedWalk, hlink, BlockMap.prevChain, hroot]
    cases fuel <;> rfl
  · intro h p q pprev hp hq hpprev ih fuel hfuel
    obtain ⟨fuel, rfl⟩ := Nat.exists_eq_add_one.mpr (Nat.lt_of_lt_of_le (Nat.succ_pos _) hfuel)
    have hlink := hlinks h p hp
    have hchain : m.prevChain p = pprev :: m.prevChain pprev := by
      rw [BlockMap.prevChain, hq, Option.map_some, Option.getD_some, BlockMap.chain_of_find hpprev]
    rw [hchain, List.length_cons] at hfuel
    rw [hq, Option.bind_some, hpprev, Option.bind_some] at hlink
    rw [electedWalk, hlink, hchain]
    by_cases helected : pprev.vElectedCustodian ≠ []
    · rw [if_pos helected, Option.bind_some, m.hash_eq q pprev hpprev, hpprev,
        List.filter_cons_of_pos (by simpa using helected), ih fuel (by omega)]
    · rw [if_neg helected, List.filter_cons_of_neg (by simpa using helected)]
      have hwalk := ih (fuel + 1) (by omega)
      rw [electedWalk] at hwalk
      rw [(List.cons.inj hwalk).2]

/-- **The links lead through all blocks below that have elected custodians.** -/
theorem electedChain_eq (hlinks : ElectedLinks m) {h : Uint256} {p : CBlockIndex} (hp : m.find h = some p) :
    m.electedChain p = p :: (m.prevChain p).filter (·.vElectedCustodian ≠ []) :=
  electedWalk_eq hlinks hp _ (BlockMap.length_chain hp).le

theorem elects_mem_electedChain (hlinks : ElectedLinks m) {h : Uint256} {p q : CBlockIndex} {a : CBitcoinAddress}
    (hp : m.find h = some p) (hq : q.Elects fTestNet a) : q ∈ m.electedChain p ↔ q ∈ m.chain h := by
  have hne : q.vElectedCustodian ≠ [] := by
    obtain ⟨v, hv, -⟩ := hq
    exact List.ne_nil_of_mem hv
  rw [electedChain_eq hlinks hp, BlockMap.chain_of_find hp]
  simp [hne]

end Links

/-! ## What is collected on the way -/

section Collect

variable {m : BlockMap} {fTestNet : Bool} {a : CBitcoinAddress}

/-- The custodians of one entry. -/
theorem addElected_find? {hash : Uint256} : ∀ {votes : List CCustodianVote} {s s' : Store CBitcoinAddress Uint256},
    votes.foldlM (addElected fTestNet hash) s = .ok s' →
      ((∃ v ∈ votes, v.getAddress fTestNet = some a) → s'.find? a = some hash) ∧
      ((¬ ∃ v ∈ votes, v.getAddress fTestNet = some a) → s'.find? a = s.find? a)
  | [], s, s', h => by
    cases h
    exact ⟨fun ⟨_, hv, _⟩ => absurd hv List.not_mem_nil, fun _ => rfl⟩
  | v :: votes, s, s', h => by
    obtain ⟨s₁, h₁, h₂⟩ := foldlM_cons_ok.mp h
    obtain ⟨hin, hout⟩ := addElected_find? h₂
    have hfirst : ∃ b, v.getAddress fTestNet = some b ∧ s₁ = s.insert b hash := by
      unfold addElected at h₁
      split at h₁
      · cases h₁
      · rename_i b hb
        cases h₁
        exact ⟨b, hb, rfl⟩
    obtain ⟨b, hb, rfl⟩ := hfirst
    by_cases hrest : ∃ v ∈ votes, v.getAddress fTestNet = some a
    · refine ⟨fun _ => hin hrest, fun hno => absurd ?_ hno⟩
      exact hrest.imp fun _ hv => ⟨List.mem_cons_of_mem _ hv.1, hv.2⟩
    · have hfind := hout hrest
      rw [Store.find?_insert] at hfind
      constructor
      · rintro ⟨v', hv', ha⟩
        rcases List.mem_cons.mp hv' with rfl | hv'
        · rw [hb, Option.some.injEq] at ha
          rw [hfind, if_pos ha.symm]
        · exact absurd ⟨v', hv', ha⟩ hrest
      · intro hno
        rw [hfind, if_neg]
        rintro rfl
        exact hno ⟨v, List.mem_cons_self, hb⟩

/-- The custodians of several entries. -/
theorem collectElected_find? : ∀ {l : List CBlockIndex} {s s' : Store CBitcoinAddress Uint256},
    l.foldlM (fun s p => p.vElectedCustodian.foldlM (addElected fTestNet p.phashBlock) s) s = .ok s' →
      (s'.find? a = none ↔ s.find? a = none ∧ ∀ q ∈ l, ¬ q.Elects fTestNet a) ∧
      ∀ g, s'.find? a = some g → s.find? a = some g ∨ ∃ q ∈ l, q.phashBlock = g ∧ q.Elects fTestNet a
  | [], s, s', h => by
    cases h
    exact ⟨⟨fun hnone => ⟨hnone, List.forall_mem_nil _⟩, fun hnone => hnone.1⟩, fun _ hg => .inl hg⟩
  | p :: l, s, s', h => by
    obtain ⟨s₁, h₁, h₂⟩ := foldlM_cons_ok.mp h
    obtain ⟨hnone, hsome⟩ := collectElected_find? h₂
    obtain ⟨hin, hout⟩ := addElected_find? (a := a) h₁
    rw [List.forall_mem_cons, hnone]
    by_cases hp : p.Elects fTestNet a
    · have hfind := hin hp
      refine ⟨iff_of_false ?_ fun hno => hno.2.1 hp, fun g hg => .inr ?_⟩
      · rintro ⟨hno, -⟩
        rw [hfind] at hno
        cases hno
      · rcases hsome g hg with hg | ⟨q, hq, hrest⟩
        · rw [hfind, Option.some.injEq] at hg
          exact ⟨p, List.mem_cons_self, hg, hp⟩
        · exact ⟨q, List.mem_cons_of_mem _ hq, hrest⟩
    · rw [hout hp]
      refine ⟨by tauto, fun g hg => ?_⟩
      rcases hsome g hg with hg | ⟨q, hq, hrest⟩
      · exact .inl (by rwa [hout hp] at hg)
      · exact .inr ⟨q, List.mem_cons_of_mem _ hq, hrest⟩

/-- Entries whose custodians have addresses are collected without an error. -/
theorem collectElected_isOk : ∀ (l : List CBlockIndex) (s : Store CBitcoinAddress Uint256),
    (∀ p ∈ l, ∀ v ∈ p.vElectedCustodian, ∃ b, v.getAddress fTestNet = some b) →
      ∃ s', l.foldlM (fun s p => p.vElectedCustodian.foldlM (addElected fTestNet p.phashBlock) s) s = .ok s'
  | [], s, _ => ⟨s, rfl⟩
  | p :: l, s, h => by
    have hone : ∀ (votes : List CCustodianVote) (s : Store CBitcoinAddress Uint256),
        (∀ v ∈ votes, ∃ b, v.getAddress fTestNet = some b) →
          ∃ s', votes.foldlM (addElected fTestNet p.phashBlock) s = .ok s' := by
      intro votes
      induction votes with
      | nil => exact fun s _ => ⟨s, rfl⟩
      | cons v votes ih =>
        intro s hvotes
        obtain ⟨b, hb⟩ := hvotes v List.mem_cons_self
        obtain ⟨s', hs'⟩ := ih (s.insert b p.phashBlock) fun v hv => hvotes v (List.mem_cons_of_mem _ hv)
        refine ⟨s', foldlM_cons_ok.mpr ⟨_, ?_, hs'⟩⟩
        rw [addElected, hb]
    obtain ⟨s₁, h₁⟩ := hone p.vElectedCustodian s (h p List.mem_cons_self)
    obtain ⟨s', h₂⟩ := collectElected_isOk l s₁ fun p hp => h p (List.mem_cons_of_mem _ hp)
    exact ⟨s', foldlM_cons_ok.mpr ⟨s₁, h₁, h₂⟩⟩

/-- **An address is not found exactly when no block of the chain elected it.** -/
theorem getElectedCustodians_eq_none (hlinks : ElectedLinks m) {h : Uint256} {p : CBlockIndex} (hp : m.find h = some p)
    {s : Store CBitcoinAddress Uint256} (hs : m.getElectedCustodians fTestNet p = .ok s) :
    s.find? a = none ↔ ∀ q ∈ m.chain h, ¬ q.Elects fTestNet a := by
  rw [(collectElected_find? hs).1, Store.find?_empty]
  simp only [true_and]
  refine forall_congr' fun q => ⟨fun hno hq helects => ?_, fun hno hq helects => ?_⟩
  · exact hno ((elects_mem_electedChain hlinks hp helects).mpr hq) helects
  · exact hno ((elects_mem_electedChain hlinks hp helects).mp hq) helects

/-- **An address is found with the block that elected it**, when no two blocks of the chain elect the same. -/
theorem getElectedCustodians_eq_some (hlinks : ElectedLinks m) {h : Uint256} {p : CBlockIndex} (hp : m.find h = some p)
    (hone : (m.chain h).Pairwise fun q q' => ∀ b, ¬ (q.Elects fTestNet b ∧ q'.Elects fTestNet b))
    {s : Store CBitcoinAddress Uint256} (hs : m.getElectedCustodians fTestNet p = .ok s) {g : Uint256} :
    s.find? a = some g ↔ ∃ q ∈ m.chain h, q.phashBlock = g ∧ q.Elects fTestNet a := by
  have hfound : ∀ g, s.find? a = some g → ∃ q ∈ m.chain h, q.phashBlock = g ∧ q.Elects fTestNet a := by
    intro g hg
    rcases (collectElected_find? hs).2 g hg with hempty | ⟨q, hq, hhash, helects⟩
    · rw [Store.find?_empty] at hempty
      cases hempty
    · exact ⟨q, (elects_mem_electedChain hlinks hp helects).mp hq, hhash, helects⟩
  refine ⟨hfound g, ?_⟩
  rintro ⟨q, hq, rfl, helects⟩
  cases hfind : s.find? a with
  | none => exact absurd helects ((getElectedCustodians_eq_none hlinks hp hs).mp hfind q hq)
  | some g =>
    obtain ⟨q', hq', rfl, helects'⟩ := hfound g hfind
    -- two different entries of the chain do not elect the same address
    by_contra hne
    have hsym : Std.Symm fun q q' : CBlockIndex => ∀ b, ¬ (q.Elects fTestNet b ∧ q'.Elects fTestNet b) :=
      ⟨fun _ _ hno b hboth => hno b hboth.symm⟩
    exact hone.forall hq hq' (fun heq => hne (by rw [heq])) a ⟨helects, helects'⟩

end Collect

/-! ## What the check of the grants says -/

/-- The custodian that an output of a grant pays. -/
def CTxOut.custodian (cfg : Settings) (cr : Crypto) (cUnit : CUnit) (txo : CTxOut) : Option CBitcoinAddress :=
  (extractDestination cr txo.scriptPubKey).bind fun d => CBitcoinAddress.ofDestination cfg.fTestNet d cUnit

/-- A grant of the block pays the address. -/
def CBlock.Grants (cfg : Settings) (cr : Crypto) (block : CBlock) (a : CBitcoinAddress) : Prop :=
  ∃ o ∈ block.grantOutputs, o.2.custodian cfg cr o.1 = some a

section Check

variable {cfg : Settings} {cr : Crypto} {fTestNet : Bool} {a : CBitcoinAddress}

/-- The address of an elected custodian is the one that the output pays. -/
theorem electedByOutput_ok {cUnit : CUnit} {txo : CTxOut} {v : CCustodianVote}
    (h : electedByOutput cfg cr cUnit txo = .ok v) :
    ∃ a, txo.custodian cfg cr cUnit = some a ∧ v.getAddress cfg.fTestNet = some a := by
  unfold electedByOutput at h
  unfold CTxOut.custodian
  cases hd : extractDestination cr txo.scriptPubKey with
  | none =>
    rw [hd] at h
    cases h
  | some d =>
    have hne := extractDestination_ne_none hd
    rw [hd] at h
    cases ha : CBitcoinAddress.ofDestination cfg.fTestNet d cUnit with
    | none =>
      simp only [ha] at h
      cases h
    | some a =>
      simp only [ha] at h
      cases h
      obtain ⟨hunit, hget⟩ := CBitcoinAddress.get_ofDestination hne ha
      refine ⟨a, by rw [Option.bind_some, ha], ?_⟩
      rw [← ha]
      unfold CCustodianVote.ofAddress CCustodianVote.getAddress
      cases d with
      | none => exact absurd rfl hne
      | keyID id => rw [hget, hunit]; rfl
      | scriptID id => rw [hget, hunit]; rfl

/-- The custodians of a filled-in entry are those that the grants of the block pay. -/
theorem elects_of_outputs : ∀ {l : List (CUnit × CTxOut)} {votes : List CCustodianVote},
    List.Forall₂ (fun o v => electedByOutput cfg cr o.1 o.2 = .ok v) l votes →
      ((∃ v ∈ votes, v.getAddress cfg.fTestNet = some a) ↔ ∃ o ∈ l, o.2.custodian cfg cr o.1 = some a) ∧
      ∀ v ∈ votes, ∃ b, v.getAddress cfg.fTestNet = some b
  | [], [], .nil => ⟨by simp, List.forall_mem_nil _⟩
  | o :: l, v :: votes, .cons hv hrest => by
    obtain ⟨hiff, haddr⟩ := elects_of_outputs hrest
    obtain ⟨b, hcustodian, hb⟩ := electedByOutput_ok hv
    refine ⟨?_, List.forall_mem_cons.mpr ⟨⟨b, hb⟩, haddr⟩⟩
    rw [List.exists_mem_cons_iff, List.exists_mem_cons_iff, hiff, hcustodian, hb]

/-- Every granted amount is of an address of its unit. -/
theorem grantStep_addresses {halfWeight halfCount : Int} {es : List VoteEntry} {st : GrantState}
    (h : es.foldlM (grantStep fTestNet halfWeight halfCount) {} = .ok st) :
    ∀ g ∈ st.mapGrantedCustodians.entries, ∀ w ∈ g.2.entries, ∃ d : CTxDestination, d ≠ .none ∧
      CBitcoinAddress.ofDestination fTestNet d g.1 = some w.1 := by
  refine foldlM_inv (I := fun st : GrantState => ∀ g ∈ st.mapGrantedCustodians.entries, ∀ w ∈ g.2.entries,
    ∃ d : CTxDestination, d ≠ .none ∧ CBitcoinAddress.ofDestination fTestNet d g.1 = some w.1)
    (fun e _ st st' hst hstep => ?_) (fun g hg => absurd hg List.not_mem_nil) h
  unfold grantStep at hstep
  split at hstep
  · split at hstep
    · cases hstep
    · rename_i address haddr
      split at hstep
      · cases hstep
        intro g hg w hw
        rcases Store.mem_insertEntry hg with rfl | hg
        · rcases Store.mem_insertEntry hw with rfl | hw
          · exact ⟨e.1.destination, e.1.destination_ne_none, by rw [← e.1.getAddress_eq fTestNet, haddr]⟩
          · cases hfind : st.mapGrantedCustodians.find? e.1.cUnit with
            | none =>
              rw [hfind] at hw
              exact absurd hw List.not_mem_nil
            | some store =>
              rw [hfind] at hw
              exact hst _ (Store.find?_eq_some.mp hfind) w hw
        · exact hst g hg w hw
      · cases hstep
        exact hst
  · cases hstep
    exact hst

/-- Generated grants pay addresses that were not elected before. -/
theorem generated_outputs {nTime : Nat} {vVote : List CVote} {mapAlreadyElected : Store CBitcoinAddress Uint256}
    {l : List CTransaction} (h : generateCurrencyCoinBases fTestNet nTime vVote mapAlreadyElected = .ok l) :
    ∀ tx ∈ l, ∀ txo ∈ tx.vout, ∃ d : CTxDestination, d ≠ .none ∧ txo.scriptPubKey = setDestination d ∧
      ∃ a, CBitcoinAddress.ofDestination fTestNet d tx.cUnit = some a ∧ mapAlreadyElected.find? a = none := by
  by_cases hne : vVote = []
  · unfold generateCurrencyCoinBases at h
    rw [if_pos hne] at h
    cases h
    exact List.forall_mem_nil _
  · obtain ⟨tally, st, -, hst, rfl⟩ := generateCurrencyCoinBases_ok h hne
    intro tx htx txo htxo
    obtain ⟨g, hg, hgrant⟩ := List.mem_filterMap.mp htx
    simp only at hgrant
    split at hgrant
    · cases hgrant
    · cases hgrant
      obtain ⟨w, hw, rfl⟩ := List.mem_map.mp htxo
      obtain ⟨hw, hnew⟩ := List.mem_filter.mp hw
      obtain ⟨d, hd, haddr⟩ := grantStep_addresses hst g hg w hw
      refine ⟨d, hd, ?_, w.1, haddr, by simpa using hnew⟩
      rw [grantOutput, (CBitcoinAddress.get_ofDestination hd haddr).2]

/-- **A block that passes the check grants nothing to an address that was elected before.** -/
theorem checkCustodianGrants_outputs {c : CoinAgeContext} {m : BlockMap} {nTime : Nat} {block : CBlock}
    {pindexPrev : CBlockIndex} (h : c.checkCustodianGrants m nTime block pindexPrev = .ok ()) :
    ∃ mapElected, m.getElectedCustodians c.cfg.fTestNet pindexPrev = .ok mapElected ∧
      ∀ o ∈ block.grantOutputs, ∃ d : CTxDestination, d ≠ .none ∧ o.2.scriptPubKey = setDestination d ∧
        ∃ a, CBitcoinAddress.ofDestination c.cfg.fTestNet d o.1 = some a ∧ mapElected.find? a = none := by
  obtain ⟨vExpected, hexpected, h⟩ := bind_eq_ok.mp h
  obtain ⟨-, -, h⟩ := bind_eq_ok.mp h
  have hsame := not_not.mp (rejectIf_eq_ok.mp h)
  obtain ⟨mapElected, helected, hexpected⟩ := bind_eq_ok.mp hexpected
  have houtputs : ∀ tx ∈ vExpected, ∀ txo ∈ tx.vout, ∃ d : CTxDestination, d ≠ .none ∧
      txo.scriptPubKey = setDestination d ∧
        ∃ a, CBitcoinAddress.ofDestination c.cfg.fTestNet d tx.cUnit = some a ∧ mapElected.find? a = none := by
    split at hexpected
    · obtain ⟨vVote, -, hexpected⟩ := bind_eq_ok.mp hexpected
      exact generated_outputs (orError_eq_ok.mp hexpected)
    · cases hexpected
      exact List.forall_mem_nil _
  refine ⟨mapElected, helected, fun o ho => ?_⟩
  obtain ⟨tx, htx, ho⟩ := List.mem_flatMap.mp ho
  obtain ⟨txo, htxo, rfl⟩ := List.mem_map.mp ho
  rw [hsame, ← List.map_uncurry_zip_eq_zipWith] at htx
  obtain ⟨⟨actualTx, expectedTx⟩, hzip, rfl⟩ := List.mem_map.mp htx
  exact houtputs expectedTx (List.of_mem_zip hzip).2 txo htxo

/-- Grants that pass the check have no park outputs. -/
theorem checkCustodianGrants_noPark {c : CoinAgeContext} {m : BlockMap} {nTime : Nat} {block : CBlock}
    {pindexPrev : CBlockIndex} (h : c.checkCustodianGrants m nTime block pindexPrev = .ok ()) :
    ∀ tx ∈ block.vtx, tx.isCustodianGrant = true → ∀ txo ∈ tx.vout, txo.isPark = false := by
  intro tx htx hgrant txo htxo
  obtain ⟨_, -, houtputs⟩ := checkCustodianGrants_outputs h
  have hmem : (tx.cUnit, txo) ∈ block.grantOutputs :=
    List.mem_flatMap.mpr ⟨tx, List.mem_filter.mpr ⟨htx, hgrant⟩, List.mem_map_of_mem htxo⟩
  obtain ⟨d, hd, hscript, -⟩ := houtputs _ hmem
  rw [CTxOut.isPark, hscript, isPark]
  cases d with
  | none => exact absurd rfl hd
  | keyID id => rw [solver_keyID]; rfl
  | scriptID id => rw [solver_scriptID]; rfl

/-- **What the block grants was not elected before.** -/
theorem not_elected_of_check {c : CoinAgeContext} {m : BlockMap} {nTime : Nat} {block : CBlock}
    {pindexPrev : CBlockIndex} (hlinks : ElectedLinks m) {h : Uint256} (hp : m.find h = some pindexPrev)
    (hcheck : c.checkCustodianGrants m nTime block pindexPrev = .ok ()) (ha : block.Grants c.cfg cr a) :
    ∀ q ∈ m.chain h, ¬ q.Elects c.cfg.fTestNet a := by
  obtain ⟨mapElected, helected, houtputs⟩ := checkCustodianGrants_outputs hcheck
  obtain ⟨o, ho, hcustodian⟩ := ha
  obtain ⟨d, hd, hscript, b, hb, hnew⟩ := houtputs o ho
  rw [CTxOut.custodian, hscript, extractDestination_setDestination hd, Option.bind_some, hb,
    Option.some.injEq] at hcustodian
  subst hcustodian
  exact (getElectedCustodians_eq_none hlinks hp helected).mp hnew

end Check

/-! ## The same chains in two indexes -/

section Chains

variable {m m' : BlockMap}

/-- Entries that were in the index before stand on the same chain. -/
theorem chain_of_grown (hgrown : ∀ h p, m.find h = some p → m'.find h = some p) {h : Uint256} {p : CBlockIndex}
    (hp : m.find h = some p) : m'.prevChain p = m.prevChain p ∧ m'.chain h = m.chain h := by
  rw [BlockMap.chain_of_find hp, BlockMap.chain_of_find (hgrown h p hp)]
  refine BlockMap.chain_induction (P := fun p => m'.prevChain p = m.prevChain p ∧
    p :: m'.prevChain p = p :: m.prevChain p) ?_ ?_ h p hp
  · intro h p hp hroot
    rw [BlockMap.prevChain, BlockMap.prevChain, hroot]
    exact ⟨rfl, rfl⟩
  · intro h p q pprev hp hq hpprev ih
    rw [BlockMap.prevChain, BlockMap.prevChain, hq, Option.map_some, Option.map_some, BlockMap.chain_of_find hpprev,
      BlockMap.chain_of_find (hgrown q pprev hpprev), Option.getD_some, Option.getD_some, ih.2]
    exact ⟨rfl, rfl⟩

theorem SameEntries.symm (hs : SameEntries m m') : SameEntries m' m := fun h => (hs h).symm

theorem SameEntries.walk (hs : SameEntries m m') : ∀ (fuel : Nat) (o : Option Uint256),
    (BlockMap.walk m'.find fuel o).map (·.accepted) = (BlockMap.walk m.find fuel o).map (·.accepted)
  | 0, _ => rfl
  | _ + 1, none => rfl
  | fuel + 1, some h => by
    rw [BlockMap.walk, BlockMap.walk]
    cases hp : m.find h with
    | none =>
      have hp' := hs h
      rw [hp, Option.map_none, Option.map_eq_none_iff] at hp'
      rw [hp']
    | some p =>
      obtain ⟨p', hp', haccepted⟩ := hs.symm.find hp
      have hprev : p'.accepted.pprev = p.accepted.pprev := by rw [haccepted]
      simp only [hp', List.map_cons, haccepted]
      rw [hs.walk fuel, show p'.pprev = p.pprev from hprev]

/-- The chains differ only in what connecting blocks changes. -/
theorem SameEntries.chain (hs : SameEntries m m') (h : Uint256) :
    (m'.chain h).map (·.accepted) = (m.chain h).map (·.accepted) := by
  cases hp : m.find h with
  | none =>
    have hp' := hs h
    rw [hp, Option.map_none, Option.map_eq_none_iff] at hp'
    rw [BlockMap.chain_of_none hp, BlockMap.chain_of_none hp']
  | some p =>
    obtain ⟨p', hp', haccepted⟩ := hs.symm.find hp
    have hheight : p'.accepted.nHeight = p.accepted.nHeight := by rw [haccepted]
    simp only [BlockMap.chain, hp, hp']
    rw [show p'.nHeight = p.nHeight from hheight]
    exact hs.walk _ _

theorem SameEntries.mem_chain (hs : SameEntries m m') {h : Uint256} {q' : CBlockIndex} (hq : q' ∈ m'.chain h) :
    ∃ q ∈ m.chain h, q.accepted = q'.accepted := by
  have hmem : q'.accepted ∈ (m'.chain h).map (·.accepted) := List.mem_map_of_mem hq
  rw [hs.chain] at hmem
  exact List.mem_map.mp hmem

end Chains

/-! ## The invariant -/

/-- The custodians of an entry are those that the grants of its block pay. -/
def RecordsGrants (cfg : Settings) (cr : Crypto) (block : CBlock) (p : CBlockIndex) : Prop :=
  (∀ a, p.Elects cfg.fTestNet a ↔ block.Grants cfg cr a) ∧
    ∀ v ∈ p.vElectedCustodian, ∃ b, v.getAddress cfg.fTestNet = some b

/-- The links are right, the custodians of the blocks of `A` are recorded, and where all blocks below are in `A`, none
of them elected one of these. -/
structure GrantInv (cfg : Settings) (cr : Crypto) (s : ChainState) (A : Uint256 → Prop) : Prop where
  links : ElectedLinks s.mapBlockIndex
  present : ∀ h, A h → ∃ p, s.mapBlockIndex.find h = some p
  recorded : ∀ h p, s.mapBlockIndex.find h = some p → A h →
    ∃ block, s.blocks h = some block ∧ RecordsGrants cfg cr block p
  once : ∀ h p, s.mapBlockIndex.find h = some p → (∀ q ∈ s.mapBlockIndex.chain h, A q.phashBlock) →
    ∀ q ∈ s.mapBlockIndex.prevChain p, ∀ a, p.Elects cfg.fTestNet a → ¬ q.Elects cfg.fTestNet a

section Inv

variable {cfg : Settings} {cr : Crypto} {A : Uint256 → Prop} {m : BlockMap} {p p' q : CBlockIndex} {h : Uint256}

theorem mem_prevChain_iff : q ∈ m.prevChain p ↔ ∃ h, p.pprev = some h ∧ q ∈ m.chain h := by
  unfold BlockMap.prevChain
  cases p.pprev with
  | none => simp
  | some h => simp

/-- What the accepted part of an entry tells. -/
theorem accepted_fields (h : p.accepted = p'.accepted) : p.phashBlock = p'.phashBlock ∧ p.pprev = p'.pprev ∧
    p.pprevElected = p'.pprevElected ∧ p.vElectedCustodian = p'.vElectedCustodian :=
  ⟨show p.accepted.phashBlock = _ by rw [h]; rfl, show p.accepted.pprev = _ by rw [h]; rfl,
    show p.accepted.pprevElected = _ by rw [h]; rfl, show p.accepted.vElectedCustodian = _ by rw [h]; rfl⟩

theorem elects_congr {fTestNet : Bool} {a : CBitcoinAddress} (h : p.accepted = p'.accepted) :
    p.Elects fTestNet a ↔ p'.Elects fTestNet a := by
  unfold CBlockIndex.Elects
  rw [(accepted_fields h).2.2.2]

/-- The invariant does not look at what a reorganisation changes. -/
theorem GrantInv.congr {s s' : ChainState} (h : GrantInv cfg cr s A)
    (hs : SameEntries s.mapBlockIndex s'.mapBlockIndex) (hblocks : s'.blocks = s.blocks) : GrantInv cfg cr s' A := by
  refine ⟨fun x p' hp' => ?_, fun x hx => ?_, fun x p' hp' hx => ?_, fun x p' hp' hall q' hq' a hp'a hq'a => ?_⟩
  · obtain ⟨p, hp, haccepted⟩ := hs.find hp'
    obtain ⟨-, hprev, helected, -⟩ := accepted_fields haccepted
    rw [← helected, ← hprev, h.links x p hp]
    cases hq : p.pprev with
    | none => rfl
    | some y =>
      rw [Option.bind_some, Option.bind_some]
      cases hqp : s.mapBlockIndex.find y with
      | none =>
        have hy := hs y
        rw [hqp, Option.map_none, Option.map_eq_none_iff] at hy
        rw [hy]
      | some q =>
        obtain ⟨q', hq', haccepted'⟩ := hs.symm.find hqp
        obtain ⟨hhash, -, hlink, hvotes⟩ := accepted_fields haccepted'
        rw [hq', Option.bind_some, Option.bind_some, hvotes, hlink, hhash]
  · obtain ⟨p, hp⟩ := h.present x hx
    obtain ⟨p', hp', -⟩ := hs.symm.find hp
    exact ⟨p', hp'⟩
  · obtain ⟨p, hp, haccepted⟩ := hs.find hp'
    obtain ⟨block, hblock, hrecords, haddresses⟩ := h.recorded x p hp hx
    refine ⟨block, by rw [hblocks, hblock], fun a => (elects_congr haccepted).symm.trans (hrecords a), ?_⟩
    rwa [(accepted_fields haccepted).2.2.2] at haddresses
  · obtain ⟨p, hp, haccepted⟩ := hs.find hp'
    obtain ⟨y, hy, hq'⟩ := mem_prevChain_iff.mp hq'
    obtain ⟨q, hq, hqaccepted⟩ := hs.mem_chain hq'
    have hprev : p.pprev = some y := (accepted_fields haccepted).2.1.trans hy
    refine h.once x p hp (fun r hr => ?_) q (mem_prevChain_iff.mpr ⟨y, hprev, hq⟩) a ((elects_congr haccepted).mpr hp'a)
      ((elects_congr hqaccepted).mpr hq'a)
    obtain ⟨r', hr', hraccepted⟩ := hs.symm.mem_chain hr
    rw [← (accepted_fields hraccepted).1]
    exact hall r' hr'

/-- The link of a predecessor in the index does not change when the index grows. -/
theorem prev_of_grown {m' : BlockMap} (hgrown : ∀ h p, m.find h = some p → m'.find h = some p)
    (hp : m.find h = some p) : p.pprev.bind m'.find = p.pprev.bind m.find := by
  obtain ⟨hnone, -⟩ | ⟨q, pprev, hq, hpprev, -⟩ := m.prev_in h p hp
  · rw [hnone]
    rfl
  · rw [hq, Option.bind_some, Option.bind_some, hpprev, hgrown q pprev hpprev]

/-- **A new entry keeps the invariant**: one that is not in `A`, or one whose custodians are recorded and were not
elected below it. -/
theorem GrantInv.insert {s s' : ChainState} {A' : Uint256 → Prop} {x : Uint256} {pindex : CBlockIndex} {block : CBlock}
    (h : GrantInv cfg cr s A) (hnew : s.mapBlockIndex.find x = none)
    (hfind : ∀ y, s'.mapBlockIndex.find y = if y = x then some pindex else s.mapBlockIndex.find y)
    (hblocks : ∀ y, s'.blocks y = if y = x then some block else s.blocks y)
    (hlink : pindex.pprevElected = (pindex.pprev.bind s.mapBlockIndex.find).bind fun q =>
      if q.vElectedCustodian ≠ [] then some q.phashBlock else q.pprevElected)
    (hprev : ∀ y, pindex.pprev = some y → ∃ q, s.mapBlockIndex.find y = some q)
    (hA : ∀ y, A' y → A y ∨ y = x)
    (hrecorded : A' x → RecordsGrants cfg cr block pindex)
    (hnever : A' x → ∀ y, pindex.pprev = some y → ∀ q ∈ s.mapBlockIndex.chain y, ∀ a,
      pindex.Elects cfg.fTestNet a → ¬ q.Elects cfg.fTestNet a) : GrantInv cfg cr s' A' := by
  have hgrown : ∀ y p, s.mapBlockIndex.find y = some p → s'.mapBlockIndex.find y = some p := by
    intro y p hp
    rw [hfind, if_neg, hp]
    rintro rfl
    rw [hnew] at hp
    cases hp
  have hself : s'.mapBlockIndex.find x = some pindex := by rw [hfind, if_pos rfl]
  have hknown : ∀ y p, s.mapBlockIndex.find y = some p → y ≠ x := by
    rintro y p hp rfl
    rw [hnew] at hp
    cases hp
  have hold : ∀ y p, s.mapBlockIndex.find y = some p → A' y → A y :=
    fun y p hp hy => (hA y hy).resolve_right (hknown y p hp)
  refine ⟨fun y p hp => ?_, fun y hy => ?_, fun y p hp hy => ?_, fun y p hp hall q hq a hpa => ?_⟩
  · rw [hfind] at hp
    split at hp
    · obtain rfl := Option.some.inj hp
      rw [hlink]
      cases hq : pindex.pprev with
      | none => rfl
      | some z =>
        obtain ⟨q, hz⟩ := hprev z hq
        rw [Option.bind_some, Option.bind_some, hz, hgrown z q hz]
    · rw [h.links y p hp, prev_of_grown hgrown hp]
  · rcases hA y hy with hy | rfl
    · obtain ⟨p, hp⟩ := h.present y hy
      exact ⟨p, hgrown y p hp⟩
    · exact ⟨pindex, hself⟩
  · rw [hfind] at hp
    rw [hblocks]
    split at hp
    · rename_i heq
      cases hp
      subst heq
      exact ⟨block, if_pos rfl, hrecorded hy⟩
    · rename_i hne
      rw [if_neg hne]
      exact h.recorded y p hp (hold y p hp hy)
  · rw [hfind] at hp
    split at hp
    · rename_i heq
      obtain rfl := Option.some.inj hp
      subst heq
      obtain ⟨z, hz, hq⟩ := mem_prevChain_iff.mp hq
      obtain ⟨pprev, hpprev⟩ := hprev z hz
      rw [(chain_of_grown hgrown hpprev).2] at hq
      refine hnever ?_ z hz q hq a hpa
      have hmem := hall pindex (by rw [BlockMap.chain_of_find hself]; exact List.mem_cons_self)
      rwa [s'.mapBlockIndex.hash_eq y pindex hself] at hmem
    · rw [(chain_of_grown hgrown hp).1] at hq
      refine h.once y p hp (fun r hr => ?_) q hq a hpa
      have hr' := hall r (by rwa [(chain_of_grown hgrown hp).2])
      exact hold r.phashBlock r (BlockMap.find_of_mem_chain hr) hr'

end Inv

/-! ## A block that is handed over -/

section Fill

variable {env : NodeContext} {s : NodeState} {block : CBlock} {r : Except Failure Unit} {pindex : CBlockIndex}

/-- The link of a new entry. -/
theorem pprevElected_of_fill (hfill : run (s.fillIndex env block) (s.startIndex env block) = (r, pindex)) :
    pindex.pprevElected = (pindex.pprev.bind s.mapBlockIndex.find).bind fun q =>
      if q.vElectedCustodian ≠ [] then some q.phashBlock else q.pprevElected := by
  have hplace := NodeState.startIndex_place hfill
  have helected : pindex.place.pprevElected = (s.startIndex env block).place.pprevElected := by rw [hplace]
  have hprev : pindex.place.pprev = (s.startIndex env block).place.pprev := by rw [hplace]
  replace helected : pindex.pprevElected = (s.startIndex env block).pprevElected := helected
  replace hprev : pindex.pprev = (s.startIndex env block).pprev := hprev
  rw [helected, hprev]
  unfold NodeState.startIndex BlockMap.linked newIndex
  cases hfind : s.mapBlockIndex.find block.hashPrevBlock with
  | none => rfl
  | some q => simp only [Option.bind_some, hfind, s.mapBlockIndex.hash_eq _ q hfind]

/-- A new entry has the custodians that the grants of its block pay. -/
theorem recordsGrants_of_fill (hfill : run (s.fillIndex env block) (s.startIndex env block) = (.ok (), pindex)) :
    RecordsGrants env.cfg env.cr block pindex := by
  obtain ⟨-, votes, hvotes, hindex⟩ := fillIndex_ok hfill
  have hnil : (s.startIndex env block).vElectedCustodian = [] := by
    unfold NodeState.startIndex BlockMap.linked
    split <;> rfl
  rw [hnil, List.nil_append] at hindex
  unfold RecordsGrants CBlockIndex.Elects
  rw [hindex]
  exact ⟨fun a => (elects_of_outputs hvotes).1, (elects_of_outputs (a := {}) hvotes).2⟩

/-- `AcceptBlock` has checked the grants of a block that is not the genesis block. -/
theorem checkCustodianGrants_of_checkBefore (h : s.checkBefore env block = .ok ())
    (hne : block.getHash env.cr ≠ env.cfg.hashGenesisBlock) :
    ∃ pindexPrev, s.mapBlockIndex.find block.hashPrevBlock = some pindexPrev ∧
      (s.coinAgeContext env).checkCustodianGrants s.mapBlockIndex env.nAdjustedTime.toNat block pindexPrev =
        .ok () := by
  unfold NodeState.checkBefore at h
  rw [if_neg (by rw [NodeState.find_of_checkBefore h]; exact Bool.false_ne_true), if_neg hne] at h
  split at h
  · cases h
  · rename_i pindexPrev hprev
    refine ⟨pindexPrev, hprev, ?_⟩
    obtain ⟨-, -, h⟩ := bind_eq_ok.mp h
    obtain ⟨-, -, h⟩ := bind_eq_ok.mp h
    obtain ⟨-, -, h⟩ := bind_eq_ok.mp h
    obtain ⟨-, -, h⟩ := bind_eq_ok.mp h
    obtain ⟨-, -, h⟩ := bind_eq_ok.mp h
    obtain ⟨-, -, h⟩ := bind_eq_ok.mp h
    obtain ⟨-, -, h⟩ := bind_eq_ok.mp h
    obtain ⟨-, -, h⟩ := bind_eq_ok.mp h
    exact orError_eq_ok.mp h

end Fill

/-! ## Every run -/

/-- An address is granted something in a block on disk. -/
def ChainState.GrantedIn (cfg : Settings) (cr : Crypto) (s : ChainState) (hash : Uint256) (a : CBitcoinAddress) :
    Prop :=
  ∃ block, s.blocks hash = some block ∧ block.Grants cfg cr a

/-- A node that knows the genesis block only, which grants nothing. -/
structure NodeState.AtGenesis (cfg : Settings) (s : NodeState) : Prop where
  only : ∀ h p, s.mapBlockIndex.find h = some p → h = cfg.hashGenesisBlock
  genesis : ∃ p block, s.mapBlockIndex.find cfg.hashGenesisBlock = some p ∧ p.pprevElected = none ∧
    p.vElectedCustodian = [] ∧ s.blocks cfg.hashGenesisBlock = some block ∧ block.actualGrants = []

section Runs

variable {cfg : Settings} {cr : Crypto} {s₀ : NodeState} {es : List AcceptEvent}

theorem NodeState.AtGenesis.grantInv (h : s₀.AtGenesis cfg) :
    GrantInv cfg cr s₀.toChainState (KnownOrPassed cfg cr s₀ []) := by
  obtain ⟨p₀, block, hp₀, hlink, hnil, hblock, hgrants⟩ := h.genesis
  have honly : ∀ x p, s₀.mapBlockIndex.find x = some p → x = cfg.hashGenesisBlock ∧ p = p₀ := by
    intro x p hp
    obtain rfl := h.only x p hp
    exact ⟨rfl, Option.some.inj (hp.symm.trans hp₀)⟩
  have hroot : p₀.pprev = none := by
    obtain ⟨hnone, -⟩ | ⟨q, pprev, -, hpprev, hheight⟩ := s₀.mapBlockIndex.prev_in _ p₀ hp₀
    · exact hnone
    · rw [(honly q pprev hpprev).2] at hheight
      omega
  refine ⟨fun x p hp => ?_, fun x hx => hx.resolve_right not_occurs_nil, fun x p hp _ => ?_, fun x p hp _ q hq => ?_⟩
  · obtain ⟨-, rfl⟩ := honly x p hp
    rw [hlink, hroot]
    rfl
  · obtain ⟨rfl, rfl⟩ := honly x p hp
    refine ⟨block, hblock, fun a => ?_, by rw [hnil]; exact List.forall_mem_nil _⟩
    unfold CBlockIndex.Elects CBlock.Grants CBlock.grantOutputs
    rw [hnil, hgrants]
    simp
  · obtain ⟨-, rfl⟩ := honly x p hp
    rw [BlockMap.prevChain, hroot] at hq
    cases hq

/-- **One more block keeps the invariant.** -/
theorem grantInv_step {e : AcceptEvent} (hgenesis : KnownOrPassed cfg cr s₀ es cfg.hashGenesisBlock)
    (h : GrantInv cfg cr (exec (NodeState.accept cfg cr) s₀ es).toChainState (KnownOrPassed cfg cr s₀ es)) :
    GrantInv cfg cr (exec (NodeState.accept cfg cr) s₀ (es ++ [e])).toChainState
      (KnownOrPassed cfg cr s₀ (es ++ [e])) := by
  have hA : ∀ x, KnownOrPassed cfg cr s₀ (es ++ [e]) x ↔
      KnownOrPassed cfg cr s₀ es x ∨ (exec (NodeState.accept cfg cr) s₀ es).Passes cfg cr x e :=
    fun x => knownOrPassed_concat
  rw [exec_append]
  show GrantInv cfg cr ((exec (NodeState.accept cfg cr) s₀ es).accept cfg cr e).toChainState _
  set s := exec (NodeState.accept cfg cr) s₀ es with hs
  replace h : GrantInv cfg cr (s.before e).toChainState (KnownOrPassed cfg cr s₀ es) :=
    ⟨h.links, h.present, h.recorded, h.once⟩
  generalize KnownOrPassed cfg cr s₀ (es ++ [e]) = A' at hA ⊢
  generalize KnownOrPassed cfg cr s₀ es = A at hA h hgenesis
  have hblocks : ∀ y, ((s.before e).writeToDisk (e.context cfg cr) e.block).blocks y =
      if y = e.block.getHash cr then some e.block else (s.before e).blocks y := fun y => rfl
  have heffect := s.accept_cases cfg cr e
  generalize s.accept cfg cr e = s' at heffect ⊢
  cases heffect with
  | refused hpasses =>
    obtain rfl : A' = A := funext fun x => propext ((hA x).trans (or_iff_left (hpasses x)))
    exact h
  | rejected failure pindex hfills hpasses hrejects =>
    have hnew := NodeState.find_of_checkBefore hfills.1
    obtain rfl : A' = A := funext fun x => propext ((hA x).trans (or_iff_left (hpasses x)))
    have hnot : ¬ A' (e.block.getHash cr) := by
      intro hx
      obtain ⟨p, hp⟩ := h.present _ hx
      exact Option.some_ne_none p (hp.symm.trans hnew)
    exact h.insert hnew (NodeState.find_insertIndex hfills.1 hfills.2) hblocks
      (pprevElected_of_fill hfills.2) (fun y hy => by
        obtain ⟨rfl, hknown⟩ := pprev_of_fill hfills.2 hy
        exact hknown)
      (fun y hy => .inl hy) (fun hx => absurd hx hnot) (fun hx => absurd hx hnot)
  | added pindex c hfills hsteps hpasses =>
    have hnew := NodeState.find_of_checkBefore hfills.1
    have hne : e.block.getHash cr ≠ cfg.hashGenesisBlock := by
      intro heq
      obtain ⟨p, hp⟩ := h.present _ hgenesis
      rw [← heq] at hp
      exact Option.some_ne_none p (hp.symm.trans hnew)
    obtain ⟨pindexPrev, hprev, hcheck⟩ := checkCustodianGrants_of_checkBefore hfills.1 hne
    have hrecords := recordsGrants_of_fill hfills.2
    have hinsert : GrantInv cfg cr
        ((s.before e).withCandidate (e.context cfg cr) e.block pindex).toChainState A' := by
      refine h.insert hnew (NodeState.find_insertIndex hfills.1 hfills.2) hblocks
        (pprevElected_of_fill hfills.2) (fun y hy => ?_) (fun y hy => ?_)
        (fun _ => hrecords) fun _ y hy q hq a hpa => ?_
      · obtain ⟨rfl, hknown⟩ := pprev_of_fill hfills.2 hy
        exact hknown
      · exact ((hA y).mp hy).imp_right fun hy => ((hpasses y).mp hy).symm
      · obtain ⟨rfl, -⟩ := pprev_of_fill hfills.2 hy
        exact not_elected_of_check h.links hprev hcheck ((hrecords.1 a).mp hpa) q hq
    exact hinsert.congr (ReorgSteps.sameEntries hsteps) (ReorgSteps.blocks hsteps)

theorem grantInv_run (hs : s₀.AtGenesis cfg) :
    GrantInv cfg cr (exec (NodeState.accept cfg cr) s₀ es).toChainState (KnownOrPassed cfg cr s₀ es) := by
  obtain ⟨p₀, -, hp₀, -⟩ := hs.genesis
  induction es using List.reverseRecOn with
  | nil => exact hs.grantInv
  | append_singleton es e ih => exact grantInv_step (.inl ⟨p₀, hp₀⟩) ih

/-- Where all blocks of a chain are in `A`, no two of them elected one custodian. -/
theorem GrantInv.pairwise {s : ChainState} {A : Uint256 → Prop} (h : GrantInv cfg cr s A) {x : Uint256}
    (hA : ∀ q ∈ s.mapBlockIndex.chain x, A q.phashBlock) :
    (s.mapBlockIndex.chain x).Pairwise fun q q' => ∀ a, ¬ (q.Elects cfg.fTestNet a ∧ q'.Elects cfg.fTestNet a) := by
  refine BlockMap.pairwise_chain fun p hp q hq a hboth => ?_
  have hfind := BlockMap.find_of_mem_chain hp
  refine h.once p.phashBlock p hfind (fun r hr => ?_) q hq a hboth.1 hboth.2
  -- below a block of the chain stand blocks of the chain only
  obtain ⟨above, hsplit, -⟩ := BlockMap.chain_split hp
  exact hA r (hsplit ▸ List.mem_append_right _ hr)

/-- The custodians of an entry are those that are granted something in its block. -/
theorem GrantInv.elects_iff {s : ChainState} {A : Uint256 → Prop} (h : GrantInv cfg cr s A) {p : CBlockIndex}
    (hp : s.mapBlockIndex.find p.phashBlock = some p) (hA : A p.phashBlock) (a : CBitcoinAddress) :
    p.Elects cfg.fTestNet a ↔ s.GrantedIn cfg cr p.phashBlock a := by
  obtain ⟨block, hblock, hrecords, -⟩ := h.recorded _ p hp hA
  rw [hrecords]
  refine ⟨fun ha => ⟨block, hblock, ha⟩, ?_⟩
  rintro ⟨block', hblock', ha⟩
  rw [hblock, Option.some.injEq] at hblock'
  rwa [hblock']

/-- **One grant for each address.** In every run from the genesis block on, along every chain of blocks that were
accepted no address is granted something in two blocks, and `GetElectedCustodians` finds exactly the addresses that are
granted something, each with its block. -/
theorem oneGrantPerAddress (hs : s₀.AtGenesis cfg) {x : Uint256} {p : CBlockIndex}
    (hp : (exec (NodeState.accept cfg cr) s₀ es).mapBlockIndex.find x = some p)
    (hA : ∀ q ∈ (exec (NodeState.accept cfg cr) s₀ es).mapBlockIndex.chain x, KnownOrPassed cfg cr s₀ es q.phashBlock) :
    ((exec (NodeState.accept cfg cr) s₀ es).mapBlockIndex.chain x).Pairwise (fun q q' => ∀ a,
      ¬ ((exec (NodeState.accept cfg cr) s₀ es).GrantedIn cfg cr q.phashBlock a ∧
        (exec (NodeState.accept cfg cr) s₀ es).GrantedIn cfg cr q'.phashBlock a)) ∧
    ∃ mapElected, (exec (NodeState.accept cfg cr) s₀ es).mapBlockIndex.getElectedCustodians cfg.fTestNet p =
        .ok mapElected ∧
      ∀ a g, mapElected.find? a = some g ↔ ∃ q ∈ (exec (NodeState.accept cfg cr) s₀ es).mapBlockIndex.chain x,
        q.phashBlock = g ∧ (exec (NodeState.accept cfg cr) s₀ es).GrantedIn cfg cr q.phashBlock a := by
  have hinv : GrantInv cfg cr (exec (NodeState.accept cfg cr) s₀ es).toChainState (KnownOrPassed cfg cr s₀ es) :=
    grantInv_run hs
  generalize exec (NodeState.accept cfg cr) s₀ es = s at hinv hp hA ⊢
  have helects : ∀ q ∈ s.mapBlockIndex.chain x, ∀ a, q.Elects cfg.fTestNet a ↔ s.GrantedIn cfg cr q.phashBlock a :=
    fun q hq => hinv.elects_iff (BlockMap.find_of_mem_chain hq) (hA q hq)
  have hone := hinv.pairwise hA
  refine ⟨hone.imp_of_mem fun {q q'} hq hq' hno a hboth =>
    hno a ⟨(helects q hq a).mpr hboth.1, (helects q' hq' a).mpr hboth.2⟩, ?_⟩
  obtain ⟨mapElected, hok⟩ := collectElected_isOk (s.mapBlockIndex.electedChain p) Store.empty fun q hq => by
    rw [electedChain_eq hinv.links hp] at hq
    have hmem : q ∈ s.mapBlockIndex.chain x := by
      rw [BlockMap.chain_of_find hp]
      exact (List.cons_sublist_cons.mpr List.filter_sublist).subset hq
    obtain ⟨_, -, -, haddresses⟩ := hinv.recorded _ q (BlockMap.find_of_mem_chain hmem) (hA q hmem)
    exact haddresses
  refine ⟨mapElected, hok, fun a g => ?_⟩
  rw [getElectedCustodians_eq_some hinv.links hp hone hok]
  exact exists_congr fun q => and_congr_right fun hq => and_congr_right fun _ => helects q hq a

end Runs

/-! ## A block above the genesis block -/

/-- A node that knows the genesis block only. -/
def genesisNode : NodeState where
  mapBlockIndex := BlockMap.empty.insert hashGenesisBlockOfficial 0
    { nChainTrust := 1, fStakeModifier := true, nTime := 1400000000, nBits := 0x1e0fffff }
  pindexBest := some hashGenesisBlockOfficial
  pblocktree := Store.empty
  setBlockIndexValid := [⟨1, hashGenesisBlockOfficial⟩]
  pcoinsTip := { getCoins := fun _ => none, bestBlock := some hashGenesisBlockOfficial }
  blocks h := if h = hashGenesisBlockOfficial then
    some (sampleBlock 0 0 1400000000 [sampleCoinbase 1001 1400000000 CTxOut.empty]) else none

/-- A proof-of-work block above it. -/
def minedAbove : AcceptEvent where
  block := { sampleBlock 2 hashGenesisBlockOfficial 1400000060
    [sampleCoinbase 1002 1400000060 { nValue := 10000, scriptPubKey := sampleScript }] with nBits := 0x1e00ffff }
  nAdjustedTime := 1400000060
  fuel := 2

theorem genesisNode_atGenesis : genesisNode.AtGenesis noCheckpoints where
  only h p hp := by
    show h = hashGenesisBlockOfficial
    by_contra hne
    have hnone : genesisNode.mapBlockIndex.find h = none := by
      show (BlockMap.empty.insert _ _ _).find h = none
      rw [BlockMap.find_insert, if_neg hne]
      rfl
    rw [hnone] at hp
    cases hp
  genesis := ⟨_, _, rfl, rfl, rfl, rfl, rfl⟩

theorem genesisNode_passes : genesisNode.Passes noCheckpoints Crypto.sample 2 minedAbove := by
  have hok : (run ((genesisNode.before minedAbove).fillIndex (minedAbove.context noCheckpoints Crypto.sample)
      minedAbove.block) ((genesisNode.before minedAbove).startIndex (minedAbove.context noCheckpoints Crypto.sample)
        minedAbove.block)).1.toOption = some () := by
    decide +kernel
  exact ⟨by decide +kernel, _, toOption_eq_some.mp (by decide +kernel), Prod.ext (toOption_eq_some.mp hok) rfl⟩

theorem oneGrantPerAddress_sample :
    ∃ p, (exec (NodeState.accept noCheckpoints Crypto.sample) genesisNode [minedAbove]).mapBlockIndex.find 2 = some p ∧
    ((exec (NodeState.accept noCheckpoints Crypto.sample) genesisNode [minedAbove]).mapBlockIndex.chain 2).Pairwise
      (fun q q' => ∀ a, ¬ ((exec (NodeState.accept noCheckpoints Crypto.sample) genesisNode [minedAbove]).GrantedIn
          noCheckpoints Crypto.sample q.phashBlock a ∧
        (exec (NodeState.accept noCheckpoints Crypto.sample) genesisNode [minedAbove]).GrantedIn noCheckpoints
          Crypto.sample q'.phashBlock a)) ∧
    ∃ mapElected, (exec (NodeState.accept noCheckpoints Crypto.sample) genesisNode
        [minedAbove]).mapBlockIndex.getElectedCustodians noCheckpoints.fTestNet p = .ok mapElected ∧
      ∀ a g, mapElected.find? a = some g ↔
        ∃ q ∈ (exec (NodeState.accept noCheckpoints Crypto.sample) genesisNode [minedAbove]).mapBlockIndex.chain 2,
          q.phashBlock = g ∧ (exec (NodeState.accept noCheckpoints Crypto.sample) genesisNode [minedAbove]).GrantedIn
            noCheckpoints Crypto.sample q.phashBlock a := by
  obtain ⟨p, hp⟩ : ∃ p, (exec (NodeState.accept noCheckpoints Crypto.sample) genesisNode
      [minedAbove]).mapBlockIndex.find 2 = some p := Option.isSome_iff_exists.mp (by decide +kernel)
  refine ⟨p, hp, oneGrantPerAddress genesisNode_atGenesis hp fun q hq => ?_⟩
  have hhashes : ((exec (NodeState.accept noCheckpoints Crypto.sample) genesisNode
      [minedAbove]).mapBlockIndex.chain 2).map (·.phashBlock) = [2, hashGenesisBlockOfficial] := by decide +kernel
  have hmem : q.phashBlock ∈ [2, hashGenesisBlockOfficial] := hhashes ▸ List.mem_map_of_mem hq
  rcases List.mem_cons.mp hmem with h | h
  · rw [h]
    exact .inr ⟨[], minedAbove, [], rfl, genesisNode_passes⟩
  · rw [List.mem_singleton.mp h]
    exact .inl (Option.isSome_iff_exists.mp (by decide +kernel))

end Morcochain
