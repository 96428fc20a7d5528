import Morcochain.AddrRuns

/-!
# The address file

How `CAddrMan` is serialized (`addrman.h`) and kept in `peers.dat` (`CAddrDB`, `db.cpp`). The entries get new numbers on
disk, in the order of their ids, the new ones before the tried ones; the tried buckets and the indexes are not written,
but made again when the file is loaded.

* `write_eq` : what is written when the tables are consistent.
* `Loads` : how far the tables are made when some of the entries were loaded.
* `load_ok` : **the manager that is loaded has consistent tables, and the same entries in the same buckets**.
* `addrDB_roundTrip` : **`CAddrDB::Read` takes what `CAddrDB::Write` left**.
-/

set_option autoImplicit false

namespace Morcochain

open OrderedStore Guard Positions Codec

/-! ## Entries on disk -/

/-- Write an entry. -/
def CAddrInfo.write (nVersion : Int) (info : CAddrInfo) : Bytes :=
  info.toCAddress.write nVersion ++ (info.source.ip ++ (writeInt 8 info.nLastSuccess ++ writeInt 4 info.nAttempts))

/-- Read an entry, whose fields in memory are those of `Init`. -/
def readAddrInfo : Reader CAddrInfo := do
  let addr ← readAddress
  let source ← readNetAddr
  let nLastSuccess ← readInt 8
  let nAttempts ← readInt 4
  return { toCAddress := addr, source := source, nLastSuccess := nLastSuccess, nAttempts := nAttempts }

/-- What is kept of an entry on disk. -/
def CAddrInfo.stored (info : CAddrInfo) : CAddrInfo :=
  { info with nLastTry := 0, nRefCount := 0, fInTried := false, nRandomPos := none }

/-- `CAddrInfo()`. -/
def CAddrInfo.unset : CAddrInfo where
  toCNetAddr := default
  port := 0

namespace CAddrMan

/-! ## Writing -/

/-- The loop that writes the new entries, from a number on: the numbers that the ids get, and the bytes. -/
def writeNews (nVersion nNew : Int) : Int → Store Int Int → List (Int × CAddrInfo) → Store Int Int × Bytes
  | _, mapUnkIds, [] => (mapUnkIds, [])
  | nIds, mapUnkIds, (nId, info) :: mapInfo =>
    if nIds = nNew then (mapUnkIds, [])
    else
      let mapUnkIds := mapUnkIds.insert nId nIds
      if info.nRefCount ≠ 0 then
        let (mapUnkIds, bytes) := writeNews nVersion nNew (nIds + 1) mapUnkIds mapInfo
        (mapUnkIds, info.write nVersion ++ bytes)
      else writeNews nVersion nNew nIds mapUnkIds mapInfo

/-- The loop that writes the tried entries. -/
def writeTrieds (nVersion nTried : Int) : Int → List (Int × CAddrInfo) → Bytes
  | _, [] => []
  | nIds, (_, info) :: mapInfo =>
    if nIds = nTried then []
    else if info.fInTried then info.write nVersion ++ writeTrieds nVersion nTried (nIds + 1) mapInfo
    else writeTrieds nVersion nTried nIds mapInfo

/-- Write the indexes of a new bucket. -/
def writeBucket (mapUnkIds : Store Int Int) (vNew : OrderedSet Int) : Bytes :=
  writeInt 4 vNew.size ++ vNew.elems.flatMap fun nId => writeInt 4 ((mapUnkIds.find? nId).getD 0)

/-- Write the manager. -/
def write (nVersion : Int) (m : CAddrMan) : Bytes :=
  let (mapUnkIds, news) := writeNews nVersion m.nNew 0 .empty m.mapInfo.entries
  writeLE 1 0 ++ (writeBytes m.nKey ++ (writeInt 4 m.nNew ++ (writeInt 4 m.nTried ++ (writeInt 4 newBucketCount ++
    (news ++ (writeTrieds nVersion m.nTried 0 m.mapInfo.entries ++
      (List.finRange newBucketCount).flatMap fun nUBucket => writeBucket mapUnkIds (m.vvNew nUBucket)))))))

/-! ## Reading -/

/-- What the file says. -/
structure Stored where
  nKey : Bytes
  nNew : Int
  nTried : Int
  nUBuckets : Int
  news : List CAddrInfo
  trieds : List CAddrInfo
  /-- The indexes of each new bucket. -/
  buckets : List (List Int)

/-- Read the indexes of a new bucket. -/
def readBucket : Reader (List Int) := do
  let nSize ← readInt 4
  readMany (readInt 4) nSize.toNat

/-- Read what the file says, in its order. -/
def readStored : Reader Stored := do
  let _nVersion ← readUInt 1
  let nKey ← readByteString
  let nNew ← readInt 4
  let nTried ← readInt 4
  let nUBuckets ← readInt 4
  let news ← readMany readAddrInfo nNew.toNat
  let trieds ← readMany readAddrInfo nTried.toNat
  let buckets ← readMany readBucket nUBuckets.toNat
  return { nKey, nNew, nTried, nUBuckets, news, trieds, buckets }

variable (cr : Crypto) (m : CAddrMan)

/-- Put a new entry that was read into the tables. -/
def loadNew (nUBuckets : Int) (n : Int) (info : CAddrInfo) : CAddrMan :=
  let m := { m with
    mapInfo := m.mapInfo.insert n { info with nRandomPos := some m.vRandom.length }
    mapAddr := m.mapAddr.insert info.toCNetAddr n
    vRandom := m.vRandom ++ [n] }
  if nUBuckets ≠ newBucketCount then
    (m.modify n fun info => { info with nRefCount := info.nRefCount + 1 }).insertNew
      (info.getNewBucket cr m.nKey info.source) n
  else m

/-- Put a tried entry that was read into the tables. The second component is `nLost`. -/
def loadTried (s : CAddrMan × Int) (info : CAddrInfo) : CAddrMan × Int :=
  let (m, nLost) := s
  let nKBucket := info.getTriedBucket cr m.nKey
  if (m.vvTried nKBucket).length < triedBucketSize then
    ({ m with
        vRandom := m.vRandom ++ [m.nIdCount]
        mapInfo := m.mapInfo.insert m.nIdCount { info with nRandomPos := some m.vRandom.length, fInTried := true }
        mapAddr := m.mapAddr.insert info.toCNetAddr m.nIdCount
        vvTried := Function.update m.vvTried nKBucket (m.vvTried nKBucket ++ [m.nIdCount])
        nIdCount := m.nIdCount + 1 }, nLost)
  else (m, nLost + 1)

/-- Put an index of a new bucket into it. An index without an entry makes one. -/
def loadIndex (nUBuckets : Int) (nUBucket : Fin newBucketCount) (nIndex : Int) : CAddrMan :=
  let info := (m.mapInfo.find? nIndex).getD .unset
  if nUBuckets = newBucketCount ∧ info.nRefCount < newBucketsPerAddress then
    let m := { m with mapInfo := m.mapInfo.insert nIndex { info with nRefCount := info.nRefCount + 1 } }
    m.insertNew nUBucket nIndex
  else { m with mapInfo := m.mapInfo.insert nIndex info }

/-- Put the entries that were read into the tables, the tried ones where there is room. -/
def loadEntries (s : Stored) : CAddrMan :=
  let m : CAddrMan := { nKey := s.nKey, nNew := s.nNew, nTried := s.nTried }
  let m := s.news.zipIdx.foldl (fun m (info, n) => m.loadNew cr s.nUBuckets n info) m
  let (m, nLost) := s.trieds.foldl (loadTried cr) ({ m with nIdCount := s.nNew }, 0)
  { m with nTried := m.nTried - nLost }

/-- Put the indexes that were read into the new buckets. -/
def loadBuckets (s : Stored) : CAddrMan :=
  (List.finRange newBucketCount).foldl (fun (m : CAddrMan) (nUBucket : Fin newBucketCount) =>
    (s.buckets.getD nUBucket []).foldl (fun m nIndex => m.loadIndex s.nUBuckets nUBucket nIndex) m) m

/-- Make the tables from what the file says. There are no buckets beyond the last one. -/
def load (s : Stored) : Option CAddrMan :=
  if s.buckets.length > newBucketCount then none else some (loadBuckets (loadEntries cr s) s)

/-- Read the manager. -/
def read : Reader CAddrMan := do
  match load cr (← readStored) with
  | none => fun _ => none
  | some m => return m

/-! ## The file -/

/-- `CAddrDB::Write`: the bytes of the file. -/
def writeFile (pchMessageStart : Bytes) (nVersion : Int) : Bytes :=
  let ssPeers := pchMessageStart ++ m.write nVersion
  ssPeers ++ writeLE 32 (cr.hash ssPeers)

/-- `CAddrDB::Read`, from the bytes of the file. -/
def readFile (pchMessageStart : Bytes) (file : Bytes) : Check CAddrMan :=
  let dataSize := file.length - 32
  match readUInt 32 (file.drop dataSize) with
  | none => .error (.error "CAddrman::Read() 2 : I/O error or stream data corrupted")
  | some (hashIn, _) => do
    let vchData := file.take dataSize
    rejectIf (hashIn ≠ cr.hash vchData) (.error "CAddrman::Read() : checksum mismatch; data corrupted")
    match readBytes 4 vchData with
    | none => .error (.error "CAddrman::Read() : I/O error or stream data corrupted")
    | some (pchMsgTmp, ssPeers) => do
      rejectIf (pchMsgTmp ≠ pchMessageStart) (.error "CAddrman::Read() : invalid network magic number")
      match read cr ssPeers with
      | none => .error (.error "CAddrman::Read() : I/O error or stream data corrupted")
      | some (m, _) => return m

/-! ## What is written -/

section Writing

variable {cr m} {nVersion : Int}

/-- The new entries, in the order of their ids. -/
def news (m : CAddrMan) : List (Int × CAddrInfo) := m.mapInfo.entries.filter (!·.2.fInTried)

/-- The tried entries, in the order of their ids. -/
def trieds (m : CAddrMan) : List (Int × CAddrInfo) := m.mapInfo.entries.filter (·.2.fInTried)

/-- **The new entries are written**, and each gets its place among them as its number. -/
theorem writeNews_eq {nNew : Int} : ∀ {l : List (Int × CAddrInfo)} {nIds : Int} {mapUnkIds : Store Int Int},
    (∀ e ∈ l, e.2.nRefCount ≠ 0 ↔ e.2.fInTried = false) → (l.map (·.1)).Nodup →
    nNew = nIds + (l.filter (!·.2.fInTried)).length →
    (writeNews nVersion nNew nIds mapUnkIds l).2 = (l.filter (!·.2.fInTried)).flatMap (·.2.write nVersion) ∧
    (∀ (k : Nat) e, (l.filter (!·.2.fInTried))[k]? = some e →
      (writeNews nVersion nNew nIds mapUnkIds l).1.find? e.1 = some (nIds + k)) ∧
    ∀ nId, nId ∉ l.map (·.1) → (writeNews nVersion nNew nIds mapUnkIds l).1.find? nId = mapUnkIds.find? nId := by
  intro l
  induction l with
  | nil =>
    intro nIds mapUnkIds _ _ _
    refine ⟨rfl, fun k e he => ?_, fun _ _ => rfl⟩
    rw [List.filter_nil, List.getElem?_nil] at he
    cases he
  | cons e l ih =>
    intro nIds mapUnkIds href hnodup hnNew
    obtain ⟨nId, info⟩ := e
    obtain ⟨hnot, hnodup⟩ := List.nodup_cons.mp hnodup
    obtain ⟨hinfo, href⟩ := List.forall_mem_cons.mp href
    dsimp only at hnot hinfo
    unfold writeNews
    by_cases hlast : nIds = nNew
    · -- all new entries were written
      have hnone : List.filter (fun e : Int × CAddrInfo => !e.2.fInTried) ((nId, info) :: l) = [] :=
        List.length_eq_zero_iff.mp (by omega)
      rw [if_pos hlast, hnone]
      refine ⟨rfl, fun k e he => ?_, fun _ _ => rfl⟩
      rw [List.getElem?_nil] at he
      cases he
    · rw [if_neg hlast]
      dsimp only
      by_cases hnew : info.fInTried = false
      · have hfilter : List.filter (fun e : Int × CAddrInfo => !e.2.fInTried) ((nId, info) :: l) =
            (nId, info) :: l.filter (!·.2.fInTried) := List.filter_cons_of_pos (by rw [hnew]; rfl)
        rw [hfilter] at hnNew ⊢
        rw [List.length_cons] at hnNew
        obtain ⟨hbytes, hids, hframe⟩ :=
          @ih (nIds + 1) (mapUnkIds.insert nId nIds) href hnodup (by push_cast at hnNew; omega)
        rw [if_pos (hinfo.mpr hnew)]
        dsimp only
        refine ⟨by rw [hbytes, List.flatMap_cons], fun k e he => ?_, fun k hk => ?_⟩
        · cases k with
          | zero =>
            cases he
            rw [hframe nId hnot, Store.find?_insert, if_pos rfl, Int.natCast_zero, Int.add_zero]
          | succ k =>
            rw [hids k e he]
            push_cast
            exact congrArg some (by omega)
        · rw [List.map_cons, List.mem_cons, not_or] at hk
          rw [hframe k hk.2, Store.find?_insert, if_neg hk.1]
      · have hfilter : List.filter (fun e : Int × CAddrInfo => !e.2.fInTried) ((nId, info) :: l) =
            l.filter (!·.2.fInTried) :=
          List.filter_cons_of_neg (by rw [(Bool.not_eq_false _).mp hnew]; exact Bool.false_ne_true)
        rw [hfilter] at hnNew ⊢
        obtain ⟨hbytes, hids, hframe⟩ := @ih nIds (mapUnkIds.insert nId nIds) href hnodup hnNew
        rw [if_neg fun href => hnew (hinfo.mp href)]
        refine ⟨hbytes, hids, fun k hk => ?_⟩
        rw [List.map_cons, List.mem_cons, not_or] at hk
        rw [hframe k hk.2, Store.find?_insert, if_neg hk.1]

/-- **The tried entries are written.** -/
theorem writeTrieds_eq {nTried : Int} : ∀ {l : List (Int × CAddrInfo)} {nIds : Int},
    nTried = nIds + (l.filter (·.2.fInTried)).length →
    writeTrieds nVersion nTried nIds l = (l.filter (·.2.fInTried)).flatMap (·.2.write nVersion) := by
  intro l
  induction l with
  | nil =>
    intro nIds _
    rfl
  | cons e l ih =>
    intro nIds hnTried
    obtain ⟨nId, info⟩ := e
    unfold writeTrieds
    by_cases hlast : nIds = nTried
    · have hnone : List.filter (fun e : Int × CAddrInfo => e.2.fInTried) ((nId, info) :: l) = [] :=
        List.length_eq_zero_iff.mp (by omega)
      rw [if_pos hlast, hnone]
      rfl
    · rw [if_neg hlast]
      by_cases htried : info.fInTried = true
      · have hfilter : List.filter (fun e : Int × CAddrInfo => e.2.fInTried) ((nId, info) :: l) =
            (nId, info) :: l.filter (·.2.fInTried) := List.filter_cons_of_pos htried
        rw [hfilter] at hnTried ⊢
        rw [List.length_cons] at hnTried
        rw [if_pos htried, ih (by push_cast at hnTried; omega), List.flatMap_cons]
      · have hfilter : List.filter (fun e : Int × CAddrInfo => e.2.fInTried) ((nId, info) :: l) =
            l.filter (·.2.fInTried) := List.filter_cons_of_neg htried
        rw [hfilter] at hnTried ⊢
        rw [if_neg htried, ih hnTried]

/-! ## The order on disk -/

/-- The entries, in the order they have on disk. -/
def filed (m : CAddrMan) : List (Int × CAddrInfo) := m.news ++ m.trieds

theorem filed_perm (m : CAddrMan) : m.filed.Perm m.mapInfo.entries := by
  unfold filed news trieds
  refine List.perm_append_comm.trans (List.Perm.trans ?_ (List.filter_append_perm (·.2.fInTried) m.mapInfo.entries))
  exact List.Perm.append_left _ (List.Perm.of_eq (List.filter_congr fun e _ => by simp))

theorem mem_filed {e : Int × CAddrInfo} : e ∈ m.filed ↔ m.mapInfo.find? e.1 = some e.2 :=
  (filed_perm m).mem_iff.trans Store.find?_eq_some.symm

theorem nodup_filed (m : CAddrMan) : (m.filed.map (·.1)).Nodup := ((filed_perm m).map _).nodup_iff.mpr (nodup_ids _)

theorem length_news (h : Consistent cr m settled) : (m.news.length : Int) = m.nNew := by
  rw [h.nNew]
  exact congrArg Nat.cast List.countP_eq_length_filter.symm

theorem length_trieds (h : Consistent cr m settled) : (m.trieds.length : Int) = m.nTried := by
  rw [h.nTried]
  exact congrArg Nat.cast List.countP_eq_length_filter.symm

theorem of_mem_news {e : Int × CAddrInfo} (h : e ∈ m.news) : m.mapInfo.find? e.1 = some e.2 ∧ e.2.fInTried = false := by
  obtain ⟨hmem, hnew⟩ := List.mem_filter.mp h
  exact ⟨Store.find?_eq_some.mpr hmem, by simpa using hnew⟩

theorem of_mem_trieds {e : Int × CAddrInfo} (h : e ∈ m.trieds) :
    m.mapInfo.find? e.1 = some e.2 ∧ e.2.fInTried = true := by
  obtain ⟨hmem, htried⟩ := List.mem_filter.mp h
  exact ⟨Store.find?_eq_some.mpr hmem, htried⟩

/-- **A tried bucket has the tried entries that belong to it.** -/
theorem countP_filed (h : Consistent cr m settled) (b : Fin triedBucketCount) :
    m.filed.countP (fun e => e.2.fInTried && decide (e.2.getTriedBucket cr m.nKey = b)) = (m.vvTried b).length := by
  have hperm : ((m.filed.filter fun e => e.2.fInTried && decide (e.2.getTriedBucket cr m.nKey = b)).map (·.1)).Perm
      (m.vvTried b) := by
    have hnodup := ((List.filter_sublist
      (p := fun e : Int × CAddrInfo => e.2.fInTried && decide (e.2.getTriedBucket cr m.nKey = b)) (l := m.filed)).map
        (·.1)).nodup (nodup_filed m)
    refine (List.perm_ext_iff_of_nodup hnodup (h.once b)).mpr fun nId => ?_
    rw [List.mem_map, h.tried]
    constructor
    · rintro ⟨⟨nId', info⟩, hmem, rfl⟩
      obtain ⟨hmem, hb⟩ := List.mem_filter.mp hmem
      rw [Bool.and_eq_true, decide_eq_true_eq] at hb
      exact ⟨info, mem_filed.mp hmem, hb.1, hb.2⟩
    · rintro ⟨info, hinfo, htried, hb⟩
      refine ⟨(nId, info), List.mem_filter.mpr ⟨mem_filed.mpr hinfo, ?_⟩, rfl⟩
      rw [Bool.and_eq_true, decide_eq_true_eq]
      exact ⟨htried, hb⟩
  rw [List.countP_eq_length_filter, ← hperm.length_eq, List.length_map]

end Writing

/-! ## Entries that are loaded -/

section Loading

variable {cr m} {s : CAddrMan} {done : List (Int × CAddrInfo)}

/-- While the file is loaded, the new entries are in no bucket yet. -/
def loading (nNew : Nat) (n : Int) : Option Nat := if n < nNew then some 0 else none

/-- How an entry is loaded. -/
def loadedInfo (n : Nat) (info : CAddrInfo) : CAddrInfo :=
  { info.stored with fInTried := info.fInTried, nRandomPos := some n }

/-- Some of the entries of `m` were loaded into `s`, with their places as their ids. The numbers of the entries are
those of the file from the start. -/
structure Loads (cr : Crypto) (m : CAddrMan) (done : List (Int × CAddrInfo)) (s : CAddrMan) : Prop where
  consistent : Consistent cr { s with
    nIdCount := done.length
    nNew := (done.countP (!·.2.fInTried) : Nat)
    nTried := (done.countP (·.2.fInTried) : Nat) } (loading m.news.length)
  entries : ∀ (n : Int) (info : CAddrInfo), s.mapInfo.find? n = some info ↔
    ∃ (k : Nat) (e : Int × CAddrInfo), done[k]? = some e ∧ n = k ∧ info = loadedInfo k e.2
  buckets : ∀ b, (s.vvTried b).length =
    done.countP fun e => e.2.fInTried && decide (e.2.getTriedBucket cr m.nKey = b)
  vvNew : s.vvNew = fun _ => .empty
  vRandom : s.vRandom.length = done.length
  nKey : s.nKey = m.nKey
  nNew : s.nNew = m.nNew
  nTried : s.nTried = m.nTried

/-- **One more entry is loaded.** -/
theorem Loads.add (h : Loads cr m done s) (hm : Consistent cr m settled) {e : Int × CAddrInfo}
    {rest : List (Int × CAddrInfo)} (hfiled : m.filed = done ++ e :: rest)
    (hheld : loading m.news.length done.length = if e.2.fInTried then none else some 0) (nIdCount : Int)
    (vvTried : Fin triedBucketCount → List Int)
    (hvv : ∀ b, vvTried b = s.vvTried b ++
      if e.2.fInTried && decide (e.2.getTriedBucket cr m.nKey = b) then [(done.length : Int)] else []) :
    Loads cr m (done ++ [e]) { s with
      nIdCount := nIdCount
      mapInfo := s.mapInfo.insert done.length (loadedInfo done.length e.2)
      mapAddr := s.mapAddr.insert e.2.toCNetAddr done.length
      vRandom := s.vRandom ++ [(done.length : Int)]
      vvTried := vvTried } := by
  have hmem : e ∈ m.filed := hfiled ▸ List.mem_append_right _ List.mem_cons_self
  have hfind := mem_filed.mp hmem
  have hok := hm.entryOk e.1 e.2 hfind
  have hkind := hok.kind rfl
  have hlen : ((done ++ [e]).length : Int) = (done.length : Int) + 1 := by
    rw [List.length_append, List.length_singleton]
    rfl
  have hids := nodup_filed m
  rw [hfiled, List.map_append, List.map_cons] at hids
  have hfresh : s.mapAddr.find? e.2.toCNetAddr = none := by
    by_contra hsome
    obtain ⟨n, hn⟩ := Option.ne_none_iff_exists'.mp hsome
    obtain ⟨info, hinfo, haddr⟩ := (h.consistent.inverse _ n).mp hn
    obtain ⟨k, e', he', -, rfl⟩ := (h.entries n info).mp hinfo
    have hmem' : e' ∈ m.filed := hfiled ▸ List.mem_append_left _ (List.mem_of_getElem? he')
    have hsame := (hm.inverse _ e'.1).mpr ⟨e'.2, mem_filed.mp hmem', haddr⟩
    rw [(hm.inverse _ e.1).mpr ⟨e.2, hfind, rfl⟩] at hsame
    refine (List.nodup_append.mp hids).2.2 _ (List.mem_map_of_mem (List.mem_of_getElem? he')) _ List.mem_cons_self ?_
    exact (Option.some.inj hsame).symm
  have hfits : EntryOk (loading m.news.length done.length) (loadedInfo done.length e.2) := by
    refine ⟨rfl, fun hnone => ?_, le_rfl, hok.lastSuccess, ⟨⟨hok.fits.1.port, hok.fits.1.nServices, hok.fits.1.nTime⟩,
      hok.fits.2⟩⟩
    rw [hheld] at hnone
    unfold EntryKind at hkind ⊢
    by_cases htried : e.2.fInTried = true
    · rw [if_pos htried] at hkind
      exact if_pos htried ▸ ⟨rfl, hkind.2⟩
    · rw [if_neg htried] at hnone
      cases hnone
  have hmemTried : ∀ b k, k ∈ vvTried b ↔ k ∈ s.vvTried b ∨ k = (done.length : Int) ∧
      (loadedInfo done.length e.2).fInTried = true ∧ (loadedInfo done.length e.2).getTriedBucket cr s.nKey = b := by
    intro b k
    have hbucket : (loadedInfo done.length e.2).getTriedBucket cr s.nKey = e.2.getTriedBucket cr m.nKey := by
      rw [h.nKey]
      exact getTriedBucket_congr rfl _
    rw [hvv, List.mem_append, hbucket]
    refine or_congr_right ?_
    by_cases hb : (e.2.fInTried && decide (e.2.getTriedBucket cr m.nKey = b)) = true
    · rw [if_pos hb, List.mem_singleton]
      rw [Bool.and_eq_true, decide_eq_true_eq] at hb
      exact (and_iff_left hb).symm
    · rw [if_neg hb]
      rw [Bool.and_eq_true, decide_eq_true_eq] at hb
      exact iff_of_false List.not_mem_nil fun hk => hb hk.2
  have hunused : ∀ b, (done.length : Int) ∉ s.vvTried b := fun b hin => by
    obtain ⟨info, hinfo, -⟩ := (h.consistent.tried b _).mp hin
    exact absurd (h.consistent.fresh _ info hinfo) (Int.lt_irrefl _)
  have hadd := h.consistent.add (loadedInfo done.length e.2) (loading m.news.length) vvTried
    ((done ++ [e]).countP (·.2.fInTried) : Nat) ((done ++ [e]).countP (!·.2.fInTried) : Nat) hfresh
    (congrArg some h.vRandom.symm) hfits (by
      show (0 : Int) = ((loading m.news.length done.length).getD 0 : Nat)
      rw [hheld]
      split <;> rfl) (fun _ _ => rfl) hmemTried (fun b => ?_) ?_ ?_
  · refine ⟨?_, fun n info => ?_, fun b => ?_, h.vvNew, ?_, h.nKey, h.nNew, h.nTried⟩
    · rw [hlen]
      exact hadd
    · show (s.mapInfo.insert _ _).find? n = _ ↔ _
      rw [Store.find?_insert]
      constructor
      · intro hn
        split at hn
        · rename_i heq
          cases hn
          exact ⟨done.length, e, List.getElem?_concat_length, heq, rfl⟩
        · obtain ⟨k, e', he', hrest⟩ := (h.entries n info).mp hn
          refine ⟨k, e', ?_, hrest⟩
          rw [List.getElem?_append_left (List.getElem?_eq_some_iff.mp he').1]
          exact he'
      · rintro ⟨k, e', he', rfl, rfl⟩
        by_cases hk : k = done.length
        · subst hk
          rw [List.getElem?_concat_length] at he'
          cases he'
          exact if_pos rfl
        · have hlt := (List.getElem?_eq_some_iff.mp he').1
          rw [List.length_append, List.length_singleton] at hlt
          rw [List.getElem?_append_left (by omega)] at he'
          rw [if_neg (by omega)]
          exact (h.entries _ _).mpr ⟨k, e', he', rfl, rfl⟩
    · show (vvTried b).length = _
      rw [hvv, List.length_append, h.buckets, List.countP_append, List.countP_singleton]
      split <;> rfl
    · show (s.vRandom ++ [_]).length = _
      rw [List.length_append, List.length_append, h.vRandom, List.length_singleton, List.length_singleton]
  · rw [hvv]
    split
    · exact List.nodup_append.mpr ⟨h.consistent.once b, List.nodup_singleton _, fun a ha c hc heq =>
        hunused b (List.mem_singleton.mp hc ▸ heq ▸ ha)⟩
    · rw [List.append_nil]
      exact h.consistent.once b
  · show _ = ((done.countP (·.2.fInTried) : Nat) : Int) + if e.2.fInTried then 1 else 0
    rw [List.countP_append, List.countP_singleton]
    split <;> rfl
  · show _ = ((done.countP (!·.2.fInTried) : Nat) : Int) + if e.2.fInTried then 0 else 1
    rw [List.countP_append, List.countP_singleton]
    cases e.2.fInTried <;> rfl

/-- Nothing is loaded at first. -/
theorem loads_nil (cr : Crypto) (m : CAddrMan) :
    Loads cr m [] { nKey := m.nKey, nNew := m.nNew, nTried := m.nTried } where
  consistent := {
    fresh := fun _ _ h => (by cases h)
    entryOk := fun _ _ h => (by cases h)
    inverse := fun _ _ => ⟨(by cases ·), fun ⟨_, h, _⟩ => (by cases h)⟩
    random := indexes_nil fun _ => rfl
    counts := fun _ _ h => (by cases h)
    known := fun _ _ h => (by cases h)
    tried := fun _ _ => ⟨(by cases ·), fun ⟨_, h, _⟩ => (by cases h)⟩
    once := fun _ => List.nodup_nil
    nTried := rfl
    nNew := rfl }
  entries _ _ := ⟨(by cases ·), fun ⟨k, _, h, _⟩ => (by rw [List.getElem?_nil] at h; cases h)⟩
  buckets _ := rfl
  vvNew := rfl
  vRandom := rfl
  nKey := rfl
  nNew := rfl
  nTried := rfl

theorem Loads.setIdCount (h : Loads cr m done s) (nIdCount : Int) : Loads cr m done { s with nIdCount := nIdCount } :=
  ⟨h.consistent, h.entries, h.buckets, h.vvNew, h.vRandom, h.nKey, h.nNew, h.nTried⟩

/-- **The new entries are loaded.** -/
theorem loads_news (hm : Consistent cr m settled) : ∀ {rest : List (Int × CAddrInfo)} {done : List (Int × CAddrInfo)}
    {s : CAddrMan}, m.news = done ++ rest → Loads cr m done s →
    Loads cr m m.news (((rest.map (·.2.stored)).zipIdx done.length).foldl
      (fun s (info, n) => s.loadNew cr newBucketCount n info) s) := by
  intro rest
  induction rest with
  | nil =>
    intro done s hnews h
    rw [hnews, List.append_nil]
    exact h
  | cons e rest ih =>
    intro done s hnews h
    have hmem : e ∈ m.news := hnews ▸ List.mem_append_right _ List.mem_cons_self
    have hnew := (of_mem_news hmem).2
    have hlt : done.length < m.news.length := by
      rw [hnews, List.length_append, List.length_cons]
      omega
    have hfiled : m.filed = done ++ e :: (rest ++ m.trieds) := by
      unfold filed
      rw [hnews, List.append_assoc, List.cons_append]
    have hadd := h.add hm hfiled (by
        unfold loading
        rw [if_pos (by omega), hnew]
        rfl) s.nIdCount s.vvTried (fun b => by
        rw [hnew, Bool.false_and, if_neg Bool.false_ne_true, List.append_nil])
    rw [List.map_cons, List.zipIdx_cons, List.foldl_cons]
    have hnext := ih (show m.news = (done ++ [e]) ++ rest by rw [hnews, List.append_assoc]; rfl) hadd
    rw [List.length_append, List.length_singleton] at hnext
    have hstep : s.loadNew cr newBucketCount done.length e.2.stored = { s with
        mapInfo := s.mapInfo.insert done.length (loadedInfo done.length e.2)
        mapAddr := s.mapAddr.insert e.2.toCNetAddr done.length
        vRandom := s.vRandom ++ [(done.length : Int)] } := by
      unfold loadNew
      dsimp only
      rw [if_neg (fun hne => hne rfl), h.vRandom]
      unfold loadedInfo
      rw [hnew]
      rfl
    show Loads cr m m.news (List.foldl _ (loadNew cr s newBucketCount done.length e.2.stored) _)
    rw [hstep]
    exact hnext

/-- **The tried entries are loaded**: each has room in its bucket. -/
theorem loads_trieds (hm : Consistent cr m settled) (hb : Bounded m) : ∀ {rest : List (Int × CAddrInfo)}
    {done : List (Int × CAddrInfo)} {s : CAddrMan}, m.filed = done ++ rest → (∀ e ∈ rest, e ∈ m.trieds) →
    m.news.length ≤ done.length → Loads cr m done s → s.nIdCount = done.length →
    ∃ s', (rest.map (·.2.stored)).foldl (loadTried cr) (s, 0) = (s', 0) ∧ Loads cr m m.filed s' ∧
      s'.nIdCount = m.filed.length := by
  intro rest
  induction rest with
  | nil =>
    intro done s hfiled _ _ h hcount
    rw [List.append_nil] at hfiled
    rw [hfiled]
    exact ⟨s, rfl, h, hcount⟩
  | cons e rest ih =>
    intro done s hfiled hrest hnews h hcount
    obtain ⟨hmem, hrest⟩ := List.forall_mem_cons.mp hrest
    have htried := (of_mem_trieds hmem).2
    have hbucket : e.2.stored.getTriedBucket cr s.nKey = e.2.getTriedBucket cr m.nKey := by
      rw [h.nKey]
      exact getTriedBucket_congr rfl _
    have hadd := h.add hm hfiled (by
        unfold loading
        rw [if_neg (by omega), htried]
        rfl) (s.nIdCount + 1)
      (Function.update s.vvTried (e.2.getTriedBucket cr m.nKey)
        (s.vvTried (e.2.getTriedBucket cr m.nKey) ++ [(done.length : Int)])) (fun b => by
        rw [Function.update_apply, htried, Bool.true_and]
        by_cases heq : b = e.2.getTriedBucket cr m.nKey
        · rw [if_pos heq, heq, if_pos (decide_eq_true rfl)]
        · rw [if_neg heq, if_neg (by rw [decide_eq_true_eq]; exact Ne.symm heq), List.append_nil])
    have hroom : (s.vvTried (e.2.getTriedBucket cr m.nKey)).length < triedBucketSize := by
      have hall := countP_filed hm (e.2.getTriedBucket cr m.nKey)
      rw [hfiled, List.countP_append, List.countP_cons, htried, Bool.true_and, if_pos (decide_eq_true rfl)] at hall
      have hle := hb.tried (e.2.getTriedBucket cr m.nKey)
      rw [h.buckets]
      omega
    have hstep : loadTried cr (s, 0) e.2.stored = ({ s with
        nIdCount := s.nIdCount + 1
        mapInfo := s.mapInfo.insert done.length (loadedInfo done.length e.2)
        mapAddr := s.mapAddr.insert e.2.toCNetAddr done.length
        vRandom := s.vRandom ++ [(done.length : Int)]
        vvTried := Function.update s.vvTried (e.2.getTriedBucket cr m.nKey)
          (s.vvTried (e.2.getTriedBucket cr m.nKey) ++ [(done.length : Int)]) }, 0) := by
      unfold loadTried
      dsimp only
      rw [hbucket, if_pos hroom, hcount, h.vRandom]
      unfold loadedInfo
      rw [htried]
      rfl
    rw [List.map_cons, List.foldl_cons, hstep]
    refine ih (by rw [hfiled, List.append_assoc]; rfl) hrest (by rw [List.length_append]; omega) hadd ?_
    show s.nIdCount + 1 = _
    rw [hcount, List.length_append, List.length_singleton]
    rfl

end Loading

/-! ## Buckets that are loaded -/

section Filling

variable {cr m} {s₀ s : CAddrMan} {nNew : Nat} {done : List (Fin newBucketCount × Int)}

/-- Some indexes were put into their buckets: only the reference counts changed beside. -/
structure Fills (cr : Crypto) (nNew : Nat) (s₀ : CAddrMan) (done : List (Fin newBucketCount × Int)) (s : CAddrMan) :
    Prop where
  consistent : Consistent cr s (loading nNew)
  entries : ∀ n, (s.mapInfo.find? n).map (fun info => { info with nRefCount := 0 }) =
    (s₀.mapInfo.find? n).map fun info => { info with nRefCount := 0 }
  contains : ∀ b n, (s.vvNew b).contains n = true ↔ (b, n) ∈ done
  size : ∀ b, (s.vvNew b).size ≤ done.countP fun p => decide (p.1 = b)
  nKey : s.nKey = s₀.nKey
  nNew : s.nNew = s₀.nNew
  nTried : s.nTried = s₀.nTried
  vvTried : s.vvTried = s₀.vvTried

/-- The buckets that an index was put into. -/
theorem Fills.newCount_eq (h : Fills cr nNew s₀ done s) (n : Int) :
    s.newCount n = (Finset.univ.filter fun b => (b, n) ∈ done).card := by
  unfold newCount
  exact congrArg Finset.card (Finset.filter_congr fun b _ => h.contains b n)

/-- **An index is put into a bucket.** -/
theorem Fills.put (h : Fills cr nNew s₀ done s) {b : Fin newBucketCount} {n : Int}
    (hknown : (s₀.mapInfo.find? n).isSome = true) (hnew : loading nNew n = some 0) (hfresh : (b, n) ∉ done)
    (hfew : (s.newCount n : Int) < newBucketsPerAddress) :
    Fills cr nNew s₀ (done ++ [(b, n)]) (s.loadIndex newBucketCount b n) := by
  obtain ⟨info, hinfo⟩ : ∃ info, s.mapInfo.find? n = some info := by
    rw [← Option.isSome_iff_exists, ← Option.isSome_map, h.entries, Option.isSome_map]
    exact hknown
  have hcount := h.consistent.counts n info hinfo
  rw [hnew, Option.getD_some, Int.natCast_zero, Int.add_zero] at hcount
  have hstep : s.loadIndex newBucketCount b n =
      (s.modify n fun info => { info with nRefCount := info.nRefCount + 1 }).insertNew b n := by
    unfold loadIndex
    rw [hinfo, Option.getD_some]
    dsimp only
    rw [if_pos ⟨rfl, hcount ▸ hfew⟩]
    unfold modify Store.modify
    rw [hinfo]
  have hcounted := h.consistent.modify n (fun info => { info with nRefCount := info.nRefCount + 1 })
    (Function.update (loading nNew) n (some 1)) (fun _ _ => ⟨rfl, rfl⟩) (fun _ => rfl)
    (fun info _ hok => ⟨hok.placed, fun hheld => by simp at hheld, hok.lastTry, hok.lastSuccess, hok.fits⟩)
    (fun info _ hcount => by
      simp only [hnew, Function.update_self, Option.getD_some] at hcount ⊢
      omega)
    fun k hk => Function.update_of_ne hk ..
  have hself : ((s.modify n fun info => { info with nRefCount := info.nRefCount + 1 }).mapInfo.find? n).isSome =
    true := by
    rw [find?_modify, if_pos rfl, hinfo]
    rfl
  have hnot : (s.vvNew b).contains n = false := Bool.eq_false_iff.mpr fun hin => hfresh ((h.contains b n).mp hin)
  rw [hstep]
  refine ⟨hcounted.insertNew (n := 0) b _ hself hnot (Function.update_self ..) hnew
    fun k hk => (Function.update_of_ne hk ..).symm, fun k => ?_, fun b' k => ?_, fun b' => ?_, h.nKey, h.nNew, h.nTried,
    h.vvTried⟩
  · rw [← h.entries]
    show ((s.modify n _).mapInfo.find? k).map _ = _
    rw [find?_modify]
    split
    · rw [Option.map_map]
      rfl
    · rfl
  · show ((Function.update s.vvNew b ((s.vvNew b).insert n ())) b').contains k = true ↔ _
    rw [Function.update_apply, List.mem_append, List.mem_singleton]
    split
    · rename_i hb
      subst hb
      rw [OrderedSet.contains_insert, Bool.or_eq_true, decide_eq_true_eq, h.contains, or_comm]
      exact or_congr_right ⟨fun hk => by rw [hk], fun hp => (Prod.mk.inj hp).2⟩
    · rename_i hb
      rw [h.contains]
      exact (or_iff_left fun hp => hb (Prod.mk.inj hp).1).symm
  · show ((Function.update s.vvNew b ((s.vvNew b).insert n ())) b').size ≤ _
    rw [Function.update_apply, List.countP_append, List.countP_singleton]
    split
    · rename_i hb
      subst hb
      rw [if_pos (decide_eq_true rfl)]
      exact (OrderedSet.size_insert_le ..).trans (Nat.succ_le_succ (h.size _))
    · exact (h.size b').trans (Nat.le_add_right ..)

/-- **All indexes are put into their buckets.** -/
theorem fills_all {l : List (Fin newBucketCount × Int)} (hnodup : l.Nodup)
    (hknown : ∀ p ∈ l, (s₀.mapInfo.find? p.2).isSome = true ∧ loading nNew p.2 = some 0)
    (hfew : ∀ n, ((Finset.univ.filter fun b => (b, n) ∈ l).card : Int) ≤ newBucketsPerAddress) :
    ∀ {rest done : List (Fin newBucketCount × Int)} {s : CAddrMan}, l = done ++ rest → Fills cr nNew s₀ done s →
      Fills cr nNew s₀ l (rest.foldl (fun s p => s.loadIndex newBucketCount p.1 p.2) s) := by
  intro rest
  induction rest with
  | nil =>
    intro done s hl h
    rw [List.append_nil] at hl
    exact hl ▸ h
  | cons p rest ih =>
    intro done s hl h
    obtain ⟨b, n⟩ := p
    have hmem : (b, n) ∈ l := hl ▸ List.mem_append_right _ List.mem_cons_self
    have hfresh : (b, n) ∉ done := fun hin => by
      rw [hl] at hnodup
      exact (List.nodup_append.mp hnodup).2.2 _ hin _ List.mem_cons_self rfl
    have hmore : s.newCount n < (Finset.univ.filter fun b => (b, n) ∈ l).card := by
      rw [h.newCount_eq]
      refine Finset.card_lt_card ((Finset.ssubset_iff_of_subset fun b' hb' => ?_).mpr ⟨b, ?_, ?_⟩)
      · rw [Finset.mem_filter] at hb' ⊢
        exact ⟨hb'.1, hl ▸ List.mem_append_left _ hb'.2⟩
      · rw [Finset.mem_filter]
        exact ⟨Finset.mem_univ _, hmem⟩
      · rw [Finset.mem_filter]
        exact fun hb' => hfresh hb'.2
    have hless : (s.newCount n : Int) < newBucketsPerAddress := by
      have hle := hfew n
      omega
    exact ih (by rw [hl, List.append_assoc]; rfl) (h.put (hknown _ hmem).1 (hknown _ hmem).2 hfresh hless)

/-- No entry is held when each is counted for its buckets. -/
theorem Consistent.settleAll {held : Int → Option Nat} (h : Consistent cr m held)
    (hall : ∀ nId info, m.mapInfo.find? nId = some info → (held nId).getD 0 = 0 ∧ EntryKind info) :
    Consistent cr m settled := by
  refine ⟨h.fresh, fun nId info hinfo => ?_, h.inverse, h.random, fun nId info hinfo => ?_, h.known, h.tried, h.once,
    h.nTried, h.nNew⟩
  · have hok := h.entryOk nId info hinfo
    exact ⟨hok.placed, fun _ => (hall nId info hinfo).2, hok.lastTry, hok.lastSuccess, hok.fits⟩
  · rw [h.counts nId info hinfo, (hall nId info hinfo).1]
    rfl

/-! ## The manager that is loaded -/

theorem find_eq_some_iff {held : Int → Option Nat} (h : Consistent cr m held) {addr : CNetAddr} {nId : Int}
    {info : CAddrInfo} : m.find addr = some (nId, info) ↔ m.mapInfo.find? nId = some info ∧ info.toCNetAddr = addr := by
  unfold find
  constructor
  · intro hfind
    obtain ⟨nId', hid, hmap⟩ := Option.bind_eq_some_iff.mp hfind
    obtain ⟨info', hinfo', heq⟩ := Option.map_eq_some_iff.mp hmap
    cases heq
    obtain ⟨info'', hinfo'', haddr⟩ := (h.inverse addr nId).mp hid
    cases hinfo'.symm.trans hinfo''
    exact ⟨hinfo', haddr⟩
  · rintro ⟨hinfo, rfl⟩
    rw [(h.inverse _ nId).mpr ⟨info, hinfo, rfl⟩, Option.bind_some, hinfo]
    rfl

/-- What the manager knows of an address, but for what is kept in memory only: its entry, whether it is a tried one, and
the new buckets it is in. -/
def known (m : CAddrMan) (addr : CNetAddr) : Option (CAddrInfo × Bool × (Fin newBucketCount → Bool)) :=
  (m.find addr).map fun (nId, info) => (info.stored, info.fInTried, fun nUBucket => (m.vvNew nUBucket).contains nId)

/-- What the file says of a manager, the ids numbered by `idx`. -/
def toStored (m : CAddrMan) (idx : Int → Int) : Stored where
  nKey := m.nKey
  nNew := m.nNew
  nTried := m.nTried
  nUBuckets := newBucketCount
  news := m.news.map (·.2.stored)
  trieds := m.trieds.map (·.2.stored)
  buckets := (List.finRange newBucketCount).map fun nUBucket => (m.vvNew nUBucket).elems.map idx

/-- The indexes with their buckets. -/
def indexes (m : CAddrMan) (idx : Int → Int) : List (Fin newBucketCount × Int) :=
  (List.finRange newBucketCount).flatMap fun nUBucket => (m.vvNew nUBucket).elems.map fun nId => (nUBucket, idx nId)

/-- A new entry is in at least one new bucket, and in no more than it may be. -/
theorem Consistent.newCount_bounds (h : Consistent cr m settled) {nId : Int} {info : CAddrInfo}
    (hinfo : m.mapInfo.find? nId = some info) (hnew : info.fInTried = false) :
    1 ≤ (m.newCount nId : Int) ∧ (m.newCount nId : Int) ≤ newBucketsPerAddress := by
  have hkind := (h.entryOk nId info hinfo).kind rfl
  have hcount : info.nRefCount = m.newCount nId := (h.counts nId info hinfo).trans (Int.add_zero _)
  unfold EntryKind at hkind
  rwa [if_neg (by rw [hnew]; exact Bool.false_ne_true), hcount] at hkind

/-- An id in a new bucket is that of a new entry. -/
theorem Consistent.news_of_contains (h : Consistent cr m settled) {nUBucket : Fin newBucketCount} {nId : Int}
    (hmem : (m.vvNew nUBucket).contains nId = true) : ∃ (k : Nat) (info : CAddrInfo),
      m.news[k]? = some (nId, info) := by
  obtain ⟨info, hinfo, hnew, -⟩ := h.of_contains hmem rfl
  have hin : (nId, info) ∈ m.news := List.mem_filter.mpr ⟨Store.find?_eq_some.mp hinfo, by rw [hnew]; rfl⟩
  obtain ⟨k, hk⟩ := List.mem_iff_getElem?.mp hin
  exact ⟨k, info, hk⟩

/-- A bucket has its indexes once each. -/
theorem countP_indexes (m : CAddrMan) (idx : Int → Int) (b : Fin newBucketCount) :
    (m.indexes idx).countP (fun p => decide (p.1 = b)) = (m.vvNew b).size := by
  have hone : ∀ b' : Fin newBucketCount, ((m.vvNew b').elems.map fun nId => (b', idx nId)).countP
      (fun p => decide (p.1 = b)) = if b' = b then (m.vvNew b').size else 0 := by
    intro b'
    rw [List.countP_map]
    split
    · rename_i heq
      rw [← OrderedSet.length_elems]
      exact List.countP_eq_length.mpr fun _ _ => decide_eq_true heq
    · rename_i hne
      exact List.countP_eq_zero.mpr fun _ _ heq => hne (of_decide_eq_true heq)
  unfold indexes
  rw [List.countP_flatMap]
  refine (Fin.sum_univ_def _).symm.trans ((Finset.sum_congr rfl fun b' _ => hone b').trans ?_)
  rw [Finset.sum_ite_eq', if_pos (Finset.mem_univ _)]

variable {idx : Int → Int} (hidx : ∀ (k : Nat) e, m.news[k]? = some e → idx e.1 = k)

include hidx

theorem mem_indexes (h : Consistent cr m settled) {k : Nat} {e : Int × CAddrInfo} (hk : m.news[k]? = some e)
    (b : Fin newBucketCount) : (b, (k : Int)) ∈ m.indexes idx ↔ (m.vvNew b).contains e.1 = true := by
  unfold indexes
  rw [List.mem_flatMap]
  constructor
  · rintro ⟨b', -, hmem⟩
    obtain ⟨nId, hin, heq⟩ := List.mem_map.mp hmem
    obtain ⟨rfl, hplace⟩ := Prod.mk.inj heq
    have hin := OrderedSet.mem_elems.mp hin
    obtain ⟨k', info, hk'⟩ := h.news_of_contains hin
    rw [hidx k' _ hk'] at hplace
    obtain rfl : k' = k := Int.ofNat_inj.mp hplace
    rw [hk] at hk'
    cases hk'
    exact hin
  · intro hin
    exact ⟨b, List.mem_finRange b, List.mem_map.mpr ⟨e.1, OrderedSet.mem_elems.mpr hin, by rw [hidx k e hk]⟩⟩

/-- An index is the place of a new entry. -/
theorem place_of_mem_indexes (h : Consistent cr m settled) {b : Fin newBucketCount} {n : Int}
    (hmem : (b, n) ∈ m.indexes idx) : ∃ (k : Nat) (e : Int × CAddrInfo), m.news[k]? = some e ∧ n = k := by
  obtain ⟨b', -, hmem⟩ := List.mem_flatMap.mp hmem
  obtain ⟨nId, hin, heq⟩ := List.mem_map.mp hmem
  obtain ⟨rfl, rfl⟩ := Prod.mk.inj heq
  obtain ⟨k, info, hk⟩ := h.news_of_contains (OrderedSet.mem_elems.mp hin)
  exact ⟨k, _, hk, hidx k _ hk⟩

theorem nodup_indexes (h : Consistent cr m settled) : (m.indexes idx).Nodup := by
  refine List.nodup_flatMap.mpr ⟨fun b _ => ?_, (List.nodup_finRange _).imp fun {a b} hne p ha hb => hne ?_⟩
  · refine List.Nodup.map_on (fun i hi j hj heq => ?_) (OrderedSet.nodup_elems _)
    obtain ⟨k, info, hk⟩ := h.news_of_contains (OrderedSet.mem_elems.mp hi)
    obtain ⟨k', info', hk'⟩ := h.news_of_contains (OrderedSet.mem_elems.mp hj)
    have hplace := (Prod.mk.inj heq).2
    rw [hidx k _ hk, hidx k' _ hk'] at hplace
    obtain rfl : k = k' := Int.ofNat_inj.mp hplace
    rw [hk] at hk'
    cases hk'
    rfl
  · obtain ⟨i, -, rfl⟩ := List.mem_map.mp ha
    obtain ⟨j, -, heq⟩ := List.mem_map.mp hb
    exact (Prod.mk.inj heq).1.symm

/-- The buckets of an index are those of its entry. -/
theorem card_indexes (h : Consistent cr m settled) {k : Nat} {e : Int × CAddrInfo} (hk : m.news[k]? = some e) :
    (Finset.univ.filter fun b => (b, (k : Int)) ∈ m.indexes idx).card = m.newCount e.1 :=
  congrArg Finset.card (Finset.filter_congr fun b _ => mem_indexes hidx h hk b)

theorem card_indexes_le (h : Consistent cr m settled) (n : Int) :
    ((Finset.univ.filter fun b => (b, n) ∈ m.indexes idx).card : Int) ≤ newBucketsPerAddress := by
  by_cases hn : ∃ (k : Nat) (e : Int × CAddrInfo), m.news[k]? = some e ∧ n = k
  · obtain ⟨k, e, hk, rfl⟩ := hn
    rw [card_indexes hidx h hk]
    obtain ⟨hinfo, hnew⟩ := of_mem_news (List.mem_of_getElem? hk)
    exact (h.newCount_bounds hinfo hnew).2
  · have hnone : (Finset.univ.filter fun b => (b, n) ∈ m.indexes idx) = ∅ :=
      Finset.filter_eq_empty_iff.mpr fun b _ hmem => hn (place_of_mem_indexes hidx h hmem)
    rw [hnone]
    decide

omit hidx in
theorem loadBuckets_eq (m : CAddrMan) (idx : Int → Int) (s : CAddrMan) : s.loadBuckets (m.toStored idx) =
    (m.indexes idx).foldl (fun s p => s.loadIndex newBucketCount p.1 p.2) s := by
  unfold loadBuckets indexes toStored
  rw [List.foldl_flatMap]
  refine List.foldl_ext _ _ _ fun s b _ => ?_
  have hget : ((List.finRange newBucketCount).map fun nUBucket => (m.vvNew nUBucket).elems.map idx).getD b [] =
      (m.vvNew b).elems.map idx := by
    rw [List.getD_eq_getElem?_getD, List.getElem?_map,
      List.getElem?_eq_getElem (by rw [List.length_finRange]; exact b.isLt),
      List.getElem_finRange]
    rfl
  dsimp only
  rw [hget, List.foldl_map, List.foldl_map]

omit hidx in
/-- A place on disk is that of a new entry, or it comes after them. -/
theorem filed_place {k : Nat} {e : Int × CAddrInfo} (hk : m.filed[k]? = some e) :
    e.2.fInTried = false ∧ m.news[k]? = some e ∨ e.2.fInTried = true ∧ m.news.length ≤ k := by
  unfold filed at hk
  rw [List.getElem?_append] at hk
  split at hk
  · exact .inl ⟨(of_mem_news (List.mem_of_getElem? hk)).2, hk⟩
  · exact .inr ⟨(of_mem_trieds (List.mem_of_getElem? hk)).2, by omega⟩

/-- **The manager that is loaded** has consistent tables, and knows of each address what the one on disk did. -/
theorem load_ok (h : Consistent cr m settled) (hb : Bounded m) : ∃ m', load cr (m.toStored idx) = some m' ∧
    Consistent cr m' settled ∧ Bounded m' ∧ m'.nKey = m.nKey ∧ m'.nNew = m.nNew ∧ m'.nTried = m.nTried ∧
    ∀ addr, m'.known addr = m.known addr := by
  have hnews := loads_news h (List.nil_append m.news).symm (loads_nil cr m)
  obtain ⟨s₂, hs₂, hloads, hcount⟩ :=
    loads_trieds h hb (show m.filed = m.news ++ m.trieds from rfl) (fun _ he => he) le_rfl
    (hnews.setIdCount m.nNew) (length_news h).symm
  have hentries : loadEntries cr (m.toStored idx) = { s₂ with nTried := s₂.nTried - 0 } :=
    congrArg (fun p : CAddrMan × Int => { p.1 with nTried := p.1.nTried - p.2 }) hs₂
  have hempty : Fills cr m.news.length { s₂ with nTried := s₂.nTried - 0 } [] { s₂ with nTried := s₂.nTried - 0 } := by
    refine ⟨?_, fun _ => rfl, fun b n => ?_, fun b => ?_, rfl, rfl, rfl, rfl⟩
    · have hcons := hloads.consistent
      rw [← hcount, (filed_perm m).countP_eq, (filed_perm m).countP_eq, ← h.nNew, ← h.nTried, ← hloads.nNew,
        ← hloads.nTried] at hcons
      rw [Int.sub_zero]
      exact hcons
    · show (s₂.vvNew b).contains n = true ↔ _
      rw [hloads.vvNew]
      exact iff_of_false Bool.false_ne_true List.not_mem_nil
    · show (s₂.vvNew b).size ≤ _
      rw [hloads.vvNew]
      exact Nat.zero_le _
  have hplace : ∀ {k : Nat} {e : Int × CAddrInfo}, m.filed[k]? = some e →
      s₂.mapInfo.find? k = some (loadedInfo k e.2) := fun hk => (hloads.entries _ _).mpr ⟨_, _, hk, rfl, rfl⟩
  have hfills := fills_all (nodup_indexes hidx h) (fun p hp => by
    obtain ⟨b, n⟩ := p
    obtain ⟨k, e, hk, rfl⟩ := place_of_mem_indexes hidx h hp
    have hlt := (List.getElem?_eq_some_iff.mp hk).1
    have hfiled : m.filed[k]? = some e := by
      unfold filed
      rw [List.getElem?_append_left hlt, hk]
    exact ⟨Option.isSome_of_eq_some (hplace hfiled),
      if_pos (by omega)⟩) (card_indexes_le hidx h) (List.nil_append _).symm hempty
  rw [← loadBuckets_eq, ← hentries] at hfills
  generalize hm' : loadBuckets (loadEntries cr (m.toStored idx)) (m.toStored idx) = m' at hfills
  -- the entries are those of the file, with their counts
  have hof : ∀ {n info}, m'.mapInfo.find? n = some info → ∃ (k : Nat) (e : Int × CAddrInfo), m.filed[k]? = some e ∧
      n = k ∧ { info with nRefCount := 0 } = loadedInfo k e.2 := by
    intro n info hinfo
    have hsame := hfills.entries n
    rw [hinfo, hentries] at hsame
    obtain ⟨info₀, hinfo₀, heq⟩ := Option.map_eq_some_iff.mp hsame.symm
    obtain ⟨k, e, hk, rfl, rfl⟩ := (hloads.entries n info₀).mp hinfo₀
    exact ⟨k, e, hk, rfl, heq.symm⟩
  have hto : ∀ {k : Nat} {e : Int × CAddrInfo}, m.filed[k]? = some e → ∃ info, m'.mapInfo.find? k = some info ∧
      { info with nRefCount := 0 } = loadedInfo k e.2 := by
    intro k e hk
    have hsame := hfills.entries k
    rw [hentries] at hsame
    rw [show Store.find? _ (k : Int) = some (loadedInfo k e.2) from hplace hk] at hsame
    exact Option.map_eq_some_iff.mp hsame
  have hsettled : Consistent cr m' settled := by
    refine hfills.consistent.settleAll fun n info hinfo => ⟨?_, ?_⟩
    · unfold loading
      split <;> rfl
    · obtain ⟨k, e, hk, rfl, heq⟩ := hof hinfo
      have htried : info.fInTried = e.2.fInTried := (congrArg CAddrInfo.fInTried heq :)
      rcases filed_place hk with ⟨hnew, hk'⟩ | ⟨-, hlen⟩
      · have hlt := (List.getElem?_eq_some_iff.mp hk').1
        have hheld : loading m.news.length k = some 0 := if_pos (by omega)
        have hcount := hfills.consistent.counts k info hinfo
        rw [hheld, hfills.newCount_eq, card_indexes hidx h hk', Option.getD_some, Int.natCast_zero,
          Int.add_zero] at hcount
        have hbounds := h.newCount_bounds (mem_filed.mp (List.mem_of_getElem? hk)) hnew
        unfold EntryKind
        rw [if_neg (by rw [htried, hnew]; exact Bool.false_ne_true), hcount]
        exact hbounds
      · exact (hfills.consistent.entryOk k info hinfo).kind (if_neg (by omega))
  refine ⟨m', ?_, hsettled, ⟨fun b => ?_, fun b => (hfills.size b).trans ?_⟩, hfills.nKey.trans ?_,
    hfills.nNew.trans ?_,
    hfills.nTried.trans ?_, fun addr => ?_⟩
  · have hlen : (m.toStored idx).buckets.length = newBucketCount := (List.length_map ..).trans List.length_finRange
    unfold load
    rw [if_neg (by rw [hlen]; exact Nat.lt_irrefl _), hm']
  · rw [hfills.vvTried, hentries]
    show (s₂.vvTried b).length ≤ _
    rw [hloads.buckets, countP_filed h]
    exact hb.tried b
  · rw [countP_indexes]
    exact hb.new b
  · rw [hentries]
    exact hloads.nKey
  · rw [hentries]
    exact hloads.nNew
  · rw [hentries]
    exact (Int.sub_zero _).trans hloads.nTried
  · unfold known
    cases hfind : m.find addr with
    | none =>
      cases hfind' : m'.find addr with
      | none => rfl
      | some found =>
        obtain ⟨n, info⟩ := found
        obtain ⟨hinfo, haddr⟩ := (find_eq_some_iff hsettled).mp hfind'
        obtain ⟨k, e, hk, -, heq⟩ := hof hinfo
        have hold := (find_eq_some_iff h).mpr ⟨mem_filed.mp (List.mem_of_getElem? hk),
          (congrArg (fun i : CAddrInfo => i.toCNetAddr) heq :).symm.trans haddr⟩
        rw [hfind] at hold
        cases hold
    | some found =>
      obtain ⟨nId, info⟩ := found
      obtain ⟨hinfo, haddr⟩ := (find_eq_some_iff h).mp hfind
      have hmem : (nId, info) ∈ m.filed := mem_filed.mpr hinfo
      obtain ⟨k, hk⟩ := List.mem_iff_getElem?.mp hmem
      obtain ⟨info', hinfo', heq⟩ := hto hk
      have hstored : info'.stored = info.stored := (congrArg CAddrInfo.stored heq :)
      have htried : info'.fInTried = info.fInTried := (congrArg CAddrInfo.fInTried heq :)
      have haddr' : info'.toCNetAddr = addr := (congrArg (fun i : CAddrInfo => i.toCNetAddr) heq :).trans haddr
      rw [(find_eq_some_iff hsettled).mpr ⟨hinfo', haddr'⟩]
      show some (info'.stored, info'.fInTried, _) = some (info.stored, info.fInTried, _)
      rw [hstored, htried]
      refine congrArg (fun f => some (info.stored, info.fInTried, f)) (funext fun b => Bool.eq_iff_iff.mpr ?_)
      rw [hfills.contains]
      rcases filed_place hk with ⟨-, hk'⟩ | ⟨ht, hlen⟩
      · exact mem_indexes hidx h hk' b
      · refine iff_of_false (fun hin => ?_) fun hin => ?_
        · obtain ⟨k', e, hk', heq'⟩ := place_of_mem_indexes hidx h hin
          have hlt := (List.getElem?_eq_some_iff.mp hk').1
          omega
        · obtain ⟨info'', hinfo'', hnew, -⟩ := h.of_contains hin rfl
          cases hinfo.symm.trans hinfo''
          rw [ht] at hnew
          cases hnew

end Filling

/-! ## The round trip -/

section RoundTrip

variable {cr m} {nVersion : Int}

/-- **An entry is read back**, but for what is kept in memory only. -/
theorem reads_addrInfo (hversion : IntFits 4 nVersion) {info : CAddrInfo} (hfits : info.toCAddress.Fits)
    (hsuccess : IntFits 8 info.nLastSuccess) (hattempts : IntFits 4 info.nAttempts) :
    Reads readAddrInfo (info.write nVersion) info.stored := by
  unfold readAddrInfo CAddrInfo.write
  exact (reads_address hversion hfits).bind ((reads_netAddr _).bind ((reads_int hsuccess).bind
    ((reads_int hattempts).map fun nAttempts => ({
      toCAddress := { info.toCAddress with nLastTry := 0 }
      source := info.source
      nLastSuccess := info.nLastSuccess
      nAttempts := nAttempts } : CAddrInfo))))

theorem intFits_of_le {n : Nat} (h : n ≤ 2 ^ 30) : IntFits 4 (n : Int) := by
  unfold IntFits
  omega

theorem reads_many {α β : Type} {read : Reader β} {write : α → Bytes} {g : α → β} {l : List α}
    (h : ∀ a ∈ l, Reads read (write a) (g a)) : Reads (readMany read l.length) (l.flatMap write) (l.map g) :=
  reads_readMany rfl (fun _ => rfl) h

/-- **A bucket is read back.** -/
theorem reads_bucket {mapUnkIds : Store Int Int} {vNew : OrderedSet Int} (hsize : vNew.size ≤ newBucketSize)
    (hidx : ∀ nId ∈ vNew.elems, IntFits 4 ((mapUnkIds.find? nId).getD 0)) :
    Reads readBucket (writeBucket mapUnkIds vNew) (vNew.elems.map fun nId => (mapUnkIds.find? nId).getD 0) := by
  have hmany : Reads (readMany (readInt 4) vNew.elems.length) (vNew.elems.flatMap fun nId =>
      writeInt 4 ((mapUnkIds.find? nId).getD 0)) (vNew.elems.map fun nId => (mapUnkIds.find? nId).getD 0) :=
    reads_many fun nId hmem => reads_int (hidx nId hmem)
  rw [OrderedSet.length_elems] at hmany
  unfold readBucket writeBucket
  exact (reads_int (intFits_of_le (hsize.trans (by decide)))).bind hmany

/-- Few entries are written. -/
theorem Sound.length_le (h : Sound cr m) : m.news.length ≤ 2 ^ 30 ∧ m.trieds.length ≤ 2 ^ 30 := by
  have hsum := length_vRandom h.consistent
  rw [← length_news h.consistent, ← length_trieds h.consistent] at hsum
  have hle := h.size
  have hsmall : triedBucketCount * triedBucketSize + newBucketCount * newBucketSize ≤ 2 ^ 30 := by decide
  omega

/-- **What the file says is read back**: the ids are numbered by their places. -/
theorem reads_stored (h : Sound cr m) (hversion : IntFits 4 nVersion) (hkey : m.nKey.length ≤ maxSize)
    (hattempts : ∀ nId info, m.mapInfo.find? nId = some info → IntFits 4 info.nAttempts) :
    ∃ idx : Int → Int, (∀ (k : Nat) e, m.news[k]? = some e → idx e.1 = k) ∧
      Reads readStored (m.write nVersion) (m.toStored idx) := by
  have hcons := h.consistent
  obtain ⟨hsmallNew, hsmallTried⟩ := h.length_le
  have hnNew := length_news hcons
  have hnTried := length_trieds hcons
  have href : ∀ e ∈ m.mapInfo.entries, e.2.nRefCount ≠ 0 ↔ e.2.fInTried = false := by
    intro e he
    have hkind := (hcons.entryOk _ _ (Store.find?_eq_some.mpr he)).kind rfl
    unfold EntryKind at hkind
    split at hkind
    · rename_i htried
      rw [htried]
      exact iff_of_false (fun hne => hne hkind.1) Bool.noConfusion
    · rename_i hnew
      exact iff_of_true (by omega) (Bool.eq_false_iff.mpr hnew)
  obtain ⟨hnews, hids, -⟩ := @writeNews_eq nVersion m.nNew m.mapInfo.entries 0 .empty href (nodup_ids _) (by
    rw [Int.zero_add]
    exact hnNew.symm)
  have htrieds := @writeTrieds_eq nVersion m.nTried m.mapInfo.entries 0 (by
    rw [Int.zero_add]
    exact hnTried.symm)
  generalize hwrite : writeNews nVersion m.nNew 0 .empty m.mapInfo.entries = written at hnews hids
  obtain ⟨mapUnkIds, bytes⟩ := written
  have hidx : ∀ (k : Nat) e, m.news[k]? = some e → (mapUnkIds.find? e.1).getD 0 = k := by
    intro k e hk
    rw [hids k e hk, Option.getD_some, Int.zero_add]
  have hentry : ∀ e : Int × CAddrInfo, m.mapInfo.find? e.1 = some e.2 →
      Reads readAddrInfo (e.2.write nVersion) e.2.stored := fun e hinfo =>
    reads_addrInfo hversion (hcons.entryOk _ _ hinfo).fits.1 (hcons.entryOk _ _ hinfo).fits.2 (hattempts _ _ hinfo)
  have hreadNews : Reads (readMany readAddrInfo m.nNew.toNat) (m.news.flatMap (·.2.write nVersion))
      (m.news.map (·.2.stored)) := by
    rw [← hnNew, Int.toNat_natCast]
    exact reads_many fun e he => hentry e (of_mem_news he).1
  have hreadTrieds : Reads (readMany readAddrInfo m.nTried.toNat) (m.trieds.flatMap (·.2.write nVersion))
      (m.trieds.map (·.2.stored)) := by
    rw [← hnTried, Int.toNat_natCast]
    exact reads_many fun e he => hentry e (of_mem_trieds he).1
  have hreadBuckets : Reads (readMany readBucket (List.finRange newBucketCount).length)
      ((List.finRange newBucketCount).flatMap fun b => writeBucket mapUnkIds (m.vvNew b))
      ((List.finRange newBucketCount).map fun b => (m.vvNew b).elems.map fun nId => (mapUnkIds.find? nId).getD 0) :=
    reads_many fun b _ => reads_bucket (h.bounded.new b) fun nId hmem => by
      obtain ⟨k, info, hk⟩ := hcons.news_of_contains (OrderedSet.mem_elems.mp hmem)
      rw [hidx k _ hk]
      exact intFits_of_le ((List.getElem?_eq_some_iff.mp hk).1.le.trans hsmallNew)
  rw [List.length_finRange] at hreadBuckets
  refine ⟨fun nId => (mapUnkIds.find? nId).getD 0, hidx, ?_⟩
  dsimp only at hnews
  unfold readStored write
  rw [hwrite]
  dsimp only
  rw [hnews, htrieds]
  exact (reads_uint (by decide)).bind ((reads_byteString hkey).bind ((reads_int (hnNew ▸ intFits_of_le hsmallNew)).bind
    ((reads_int (hnTried ▸ intFits_of_le hsmallTried)).bind ((reads_int (intFits_of_le (by decide))).bind
      (hreadNews.bind (hreadTrieds.bind (hreadBuckets.map fun buckets =>
        ({ nKey := m.nKey
           nNew := m.nNew
           nTried := m.nTried
           nUBuckets := newBucketCount
           news := m.news.map (·.2.stored)
           trieds := m.trieds.map (·.2.stored)
           buckets := buckets } : Stored))))))))

/-- **What is written is loaded again.** -/
theorem reads_addrMan (h : Sound cr m) (hversion : IntFits 4 nVersion) (hkey : m.nKey.length ≤ maxSize)
    (hattempts : ∀ nId info, m.mapInfo.find? nId = some info → IntFits 4 info.nAttempts) :
    ∃ m', Reads (read cr) (m.write nVersion) m' ∧ Sound cr m' ∧ m'.nKey = m.nKey ∧ m'.nNew = m.nNew ∧
      m'.nTried = m.nTried ∧ ∀ addr, m'.known addr = m.known addr := by
  obtain ⟨idx, hidx, hreads⟩ := reads_stored h hversion hkey hattempts
  obtain ⟨m', hload, hcons, hbounded, hrest⟩ := load_ok hidx h.consistent h.bounded
  refine ⟨m', ?_, ⟨hcons, hbounded, size_le hcons hbounded, check_ok hcons⟩, hrest⟩
  have hread := hreads.bind (f := fun s => match load cr s with
    | none => fun _ => none
    | some m => pure m) (c := m') (by rw [hload]; exact Reads.pure m')
  rwa [List.append_nil] at hread

/-- **The address file.** `CAddrDB::Read` takes the file that `CAddrDB::Write` left, and gets a manager with consistent
tables that knows of each address what was known before, whatever the entries were numbered. -/
theorem addrDB_roundTrip (h : Sound cr m) (hversion : IntFits 4 nVersion) (hkey : m.nKey.length ≤ maxSize)
    (hattempts : ∀ nId info, m.mapInfo.find? nId = some info → IntFits 4 info.nAttempts) {pchMessageStart : Bytes}
    (hstart : pchMessageStart.length = 4) (hhash : ∀ b, cr.hash b < 2 ^ 256) :
    ∃ m', readFile cr pchMessageStart (m.writeFile cr pchMessageStart nVersion) = .ok m' ∧ Sound cr m' ∧
      m'.nKey = m.nKey ∧ m'.nNew = m.nNew ∧ m'.nTried = m.nTried ∧ ∀ addr, m'.known addr = m.known addr := by
  obtain ⟨m', hreads, hrest⟩ := reads_addrMan h hversion hkey hattempts
  refine ⟨m', ?_, hrest⟩
  have hlen : ∀ b : Bytes, (b ++ writeLE 32 (cr.hash b)).length - 32 = b.length := by
    intro b
    rw [List.length_append, length_writeLE, Nat.add_sub_cancel]
  have hsum : ∀ b : Bytes, readUInt 32 (writeLE 32 (cr.hash b)) = some (cr.hash b, []) := by
    intro b
    have hread := reads_uint (k := 32) (hhash b) []
    rwa [List.append_nil] at hread
  have hmanager := hreads []
  rw [List.append_nil] at hmanager
  unfold readFile writeFile
  dsimp only
  rw [hlen, List.drop_left, hsum, List.take_left]
  dsimp only
  rw [rejectIf_neg (fun hne => hne rfl), ok_bind, reads_bytes hstart]
  dsimp only
  rw [rejectIf_neg (fun hne => hne rfl), ok_bind, hmanager]
  rfl

end RoundTrip

/-- The file of a manager that knows one address. -/
theorem addrDB_roundTrip_sample : ∃ m m' : CAddrMan,
    (empty [1, 2]).call Crypto.sample (.add 1400000100 (fun _ => 5) sampleAddress sampleAddress.toCNetAddr 7200) =
        .ok m ∧
    readFile Crypto.sample [0xe6, 0xe8, 0xe9, 0xe5] (m.writeFile Crypto.sample [0xe6, 0xe8, 0xe9, 0xe5] 2010000) =
      .ok m' ∧
    (m.known sampleAddress.toCNetAddr).isSome = true ∧
    m'.known sampleAddress.toCNetAddr = m.known sampleAddress.toCNetAddr := by
  obtain ⟨m, hm, hcons, hbounded⟩ := call_ok (consistent_empty Crypto.sample [1, 2]) (bounded_empty [1, 2])
    (c := .add 1400000100 (fun _ => 5) sampleAddress sampleAddress.toCNetAddr 7200) sampleAddress_fits
  have hfacts : ((empty [1, 2]).call Crypto.sample (.add 1400000100 (fun _ => 5) sampleAddress
      sampleAddress.toCNetAddr 7200)).toOption.map (fun m => (m.mapInfo.entries.map fun e => e.2.nAttempts,
        m.nKey, (m.known sampleAddress.toCNetAddr).isSome)) = some ([0], [1, 2], true) := by decide +kernel
  rw [hm] at hfacts
  obtain ⟨hzero, hfacts⟩ := Prod.mk.inj (Option.some.inj hfacts)
  obtain ⟨hkey, hknown⟩ := Prod.mk.inj hfacts
  obtain ⟨m', hread, -, -, -, -, hsame⟩ := addrDB_roundTrip
    ⟨hcons, hbounded, size_le hcons hbounded, check_ok hcons⟩ (show IntFits 4 2010000 by constructor <;> decide)
    (by rw [hkey]; decide) (fun nId info hinfo => by
      have hmem := List.mem_map_of_mem (f := fun e : Int × CAddrInfo => e.2.nAttempts) (Store.find?_eq_some.mp hinfo)
      rw [hzero, List.mem_singleton] at hmem
      rw [show info.nAttempts = 0 from hmem]
      constructor <;> decide) (show [0xe6, 0xe8, 0xe9, 0xe5].length = 4 from rfl)
    fun b => Nat.lt_trans (UInt8.toNat_lt _) (by decide)
  exact ⟨m, m', hm, hread, hknown, hsame _⟩

end CAddrMan

end Morcochain
