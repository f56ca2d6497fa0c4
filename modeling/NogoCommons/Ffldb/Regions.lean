import NogoCommons.Ffldb.Recovery

/-!
# `database/ffldb/db.go` — parts of blocks

A region of a block is read from the transaction while the block is pending and from its file
once it is committed. The two bound the region by different lengths: the first by the block's,
the second by the record's, which is twelve bytes longer. A committed block's region that ends in
those twelve bytes is not refused: it is read out of the checksum and of whatever follows the
record (`blockRegions_exact_iff`).

The bulk read collects the locations first, reads them in the order of the files and puts each
result where it was asked for. It gives what the single reads give (`fetchBlockRegions_ok`,
`fetchBlockRegions_error`), whatever order the sort leaves equal locations in.
-/

namespace NogoCommons.Ffldb
open Lib List

structure BlockRegion where
  hash : Hash
  offset : UInt32
  len : UInt32

/-- The bounds check of both paths, a sum of `uint32`s. -/
def BlockRegion.exceeds (r : BlockRegion) (blockLen : UInt32) : Prop :=
  r.offset + r.len < r.offset ∨ r.offset + r.len > blockLen

instance (r : BlockRegion) (blockLen : UInt32) : Decidable (r.exceeds blockLen) :=
  inferInstanceAs (Decidable (_ ∨ _))

/-- The bytes a region should give: those of the block, or the refusal. -/
def regionSpec (rawBlock : Bytes) (offset len : UInt32) : DbResult Bytes :=
  if offset.toNat + len.toNat ≤ rawBlock.length then .ok (region rawBlock offset.toNat len.toNat)
  else .error (.err .blockRegionInvalid)

structure BulkFetchData where
  location : BlockLocation
  replyIndex : Nat

def BulkFetchData.less (a b : BulkFetchData) : Bool :=
  if a.location.blockFileNum < b.location.blockFileNum then true
  else if b.location.blockFileNum < a.location.blockFileNum then false
  else a.location.fileOffset < b.location.fileOffset

/-- What `sort.Sort` promises. It does not say how equal locations are ordered. -/
structure BulkSort where
  sort : List BulkFetchData → List BulkFetchData
  perm : ∀ l, (sort l).Perm l
  sorted : ∀ l, (sort l).Pairwise fun a b => b.less a = false

theorem BulkFetchData.less_eq_false {a b : BulkFetchData} : b.less a = false ↔
    a.location.blockFileNum < b.location.blockFileNum ∨
      a.location.blockFileNum = b.location.blockFileNum ∧
        a.location.fileOffset ≤ b.location.fileOffset := by
  unfold less
  split_ifs with hba hab
  · simp [hba.not_gt, hba.ne']
  · simp [hab]
  · have heq := le_antisymm (not_lt.mp hba) (not_lt.mp hab)
    simp [heq]

/-- There is such a sort. -/
def BulkSort.mergeSort : BulkSort where
  sort l := l.mergeSort fun a b => !b.less a
  perm l := mergeSort_perm l _
  sorted l := by
    refine (pairwise_mergeSort ?_ ?_ l).imp fun h => by simpa using h
    · intro a b c hab hbc
      simp only [Bool.not_eq_true', BulkFetchData.less_eq_false] at *
      rcases hab with hab | ⟨hab, hab'⟩ <;> rcases hbc with hbc | ⟨hbc, hbc'⟩
      · exact .inl (hab.trans hbc)
      · exact .inl (hbc ▸ hab)
      · exact .inl (hab ▸ hbc)
      · exact .inr ⟨hab.trans hbc, hab'.trans hbc'⟩
    · intro a b
      simp only [Bool.or_eq_true, Bool.not_eq_true', BulkFetchData.less_eq_false]
      rcases lt_trichotomy a.location.blockFileNum b.location.blockFileNum with h | h | h
      · exact .inl (.inl h)
      · rcases le_total a.location.fileOffset b.location.fileOffset with h' | h'
        · exact .inl (.inr ⟨h, h'⟩)
        · exact .inr (.inr ⟨h.symm, h'⟩)
      · exact .inr (.inl h)

namespace Transaction
variable (tx : Transaction) (store : BlockStore)

/-- `fetchPendingRegion`: nothing if the block is not pending. -/
def fetchPendingRegion (r : BlockRegion) : DbResult (Option Bytes) :=
  match tx.pendingBlock r.hash with
  | none => .ok none
  | some bytes =>
    if r.exceeds (UInt32.ofNat bytes.length) then .error (.err .blockRegionInvalid)
    else .ok (some (region bytes r.offset.toNat r.len.toNat))

/-- The row and the bounds check of a block that is not pending. -/
def locate (r : BlockRegion) : DbResult BlockLocation := do
  let row ← tx.fetchBlockRow r.hash
  let location ← deserializeBlockLoc row
  if r.exceeds location.blockLen then throw (.err .blockRegionInvalid)
  return location

def fetchBlockRegion (r : BlockRegion) : DbResult Bytes := do
  match ← tx.fetchPendingRegion r with
  | some bytes => return bytes
  | none =>
    let location ← tx.locate r
    store.readBlockRegion location r.offset r.len

/-- The first loop of `FetchBlockRegions`, from index `i` on: the replies of the pending blocks,
the others still empty, and the list of the reads. -/
def planRegions : List BlockRegion → Nat → DbResult (List Bytes × List BulkFetchData)
  | [], _ => .ok ([], [])
  | r :: rs, i => do
    match ← tx.fetchPendingRegion r with
    | some bytes =>
      let (replies, fetchList) ← planRegions rs (i + 1)
      return (bytes :: replies, fetchList)
    | none =>
      let location ← tx.locate r
      let (replies, fetchList) ← planRegions rs (i + 1)
      return ([] :: replies, ⟨location, i⟩ :: fetchList)

/-- The second loop: each read goes to the reply it is for. -/
def readRegions (regions : List BlockRegion) : List BulkFetchData → List Bytes → DbResult (List Bytes)
  | [], replies => .ok replies
  | d :: fetchList, replies =>
    match regions[d.replyIndex]? with
    | none => .error (.panic .sliceBounds)
    | some r => do
      let bytes ← store.readBlockRegion d.location r.offset r.len
      readRegions regions fetchList (replies.set d.replyIndex bytes)

def fetchBlockRegions (sorter : BulkSort) (regions : List BlockRegion) : DbResult (List Bytes) := do
  let (replies, fetchList) ← tx.planRegions regions 0
  readRegions store regions (sorter.sort fetchList) replies

variable {tx store}

/-! ## One region -/

/-- The check is that of the numbers as long as the length itself is one. -/
theorem exceeds_iff (r : BlockRegion) (blockLen : UInt32) :
    r.exceeds blockLen ↔ blockLen.toNat < r.offset.toNat + r.len.toNat := by
  have ho := r.offset.toNat_lt
  have hl := r.len.toNat_lt
  have hb := blockLen.toNat_lt
  simp only [BlockRegion.exceeds, GT.gt, UInt32.lt_iff_toNat_lt, UInt32.toNat_add]
  rcases Nat.lt_or_ge (r.offset.toNat + r.len.toNat) (2 ^ 32) with hlt | hge
  · rw [Nat.mod_eq_of_lt hlt]
    omega
  · rw [Nat.mod_eq_sub_mod hge, Nat.mod_eq_of_lt (by omega)]
    omega

variable {rawBlock : Bytes} {e : Failure} {sorter : BulkSort}

/-- A pending block's regions are exact. -/
theorem fetchBlockRegion_pending {r : BlockRegion} (h : tx.pendingBlock r.hash = some rawBlock)
    (hlen : rawBlock.length < 2 ^ 32) : tx.fetchBlockRegion store r = regionSpec rawBlock r.offset r.len := by
  have hnat : (UInt32.ofNat rawBlock.length).toNat = rawBlock.length := by
    rw [UInt32.toNat_ofNat', Nat.mod_eq_of_lt hlen]
  unfold fetchBlockRegion fetchPendingRegion regionSpec
  simp only [h, exceeds_iff, hnat]
  split_ifs with hex hle hle
  · omega
  · rfl
  · rfl
  · omega

/-- A read of a file never refuses the region. -/
theorem readBlockRegion_ne_invalid (loc : BlockLocation) (offset len : UInt32) :
    store.readBlockRegion loc offset len ≠ .error (.err .blockRegionInvalid) := by
  unfold BlockStore.readBlockRegion BlockStore.readAt
  split
  · simp
  · split_ifs <;> simp

variable {cfg : StoreConfig}

/-- Inside the block, the record's bytes are the block's. -/
theorem readBlockRegion_of_holds {loc : BlockLocation} (hold : BlockStore.Holds cfg store.files loc rawBlock)
    {offset len : UInt32} (h : offset.toNat + len.toNat ≤ rawBlock.length) :
    store.readBlockRegion loc offset len = .ok (region rawBlock offset.toNat len.toNat) := by
  have hlen := hold.blockLen
  have hfits := hold.fits
  have hoff : (loc.fileOffset + 8 + offset).toNat = loc.fileOffset.toNat + (8 + offset.toNat) := by
    simp only [UInt32.toNat_add, UInt32.reduceToNat]
    omega
  unfold BlockStore.readBlockRegion
  rw [hoff]
  rcases Nat.eq_zero_or_pos len.toNat with hzero | hpos
  · -- Nothing is read, but the file is opened.
    obtain ⟨f, hf, -⟩ := hold.file
    simp [BlockStore.readAt, hf, hzero, region]
  · rw [hold.readAt (by omega) (by omega)]
    have hframe : (putUint32LE cfg.network ++ putUint32LE (UInt32.ofNat rawBlock.length)).length = 8 := by
      simp
    unfold region
    rw [StoreConfig.record, StoreConfig.framed, append_assoc, ← drop_drop,
      drop_left' hframe, drop_append_of_le_length (by omega), take_append_of_le_length (by simp; omega)]

/-- A stored block's regions are exact unless they end within the twelve bytes after the block. -/
theorem fetchBlockRegion_stored_iff {db : Db} {hash : Hash} (h : db.Stores cfg hash rawBlock) (offset len : UInt32) :
    db.begin.fetchBlockRegion db.store ⟨hash, offset, len⟩ = regionSpec rawBlock offset len ↔
      ¬ (rawBlock.length < offset.toNat + len.toNat ∧ offset.toNat + len.toNat ≤ rawBlock.length + 12) := by
  obtain ⟨loc, hrow, hold⟩ := h
  have hlen := hold.blockLen
  have hfetch : db.begin.fetchBlockRow hash = .ok (serializeBlockLoc loc) := by
    rw [fetchBlockRow, Db.fetchKey_begin, hrow]
  have hread : db.begin.fetchBlockRegion db.store ⟨hash, offset, len⟩ =
      if rawBlock.length + 12 < offset.toNat + len.toNat then .error (.err .blockRegionInvalid)
      else db.store.readBlockRegion loc offset len := by
    show (do
      let location ← db.begin.locate ⟨hash, offset, len⟩
      db.store.readBlockRegion location offset len) = _
    unfold locate
    simp only [hfetch, bind, Except.bind, deserializeBlockLoc_serialize, exceeds_iff, hlen]
    split_ifs <;> rfl
  rw [hread, regionSpec]
  split_ifs with hbeyond hin hin
  · omega
  · simp only [true_iff]
    omega
  · simp only [readBlockRegion_of_holds hold hin, true_iff]
    omega
  · simp only [readBlockRegion_ne_invalid, false_iff]
    omega

/-! ## Many regions -/

/-- What the plan does with its first region: it fails as the region does, it has the bytes, or
it has a read to make. -/
theorem planRegions_cons (tx : Transaction) (r : BlockRegion) (rs : List BlockRegion) (i : Nat) :
    (∃ e, tx.planRegions (r :: rs) i = .error e ∧ ∀ store, tx.fetchBlockRegion store r = .error e) ∨
    (∃ bytes, tx.fetchPendingRegion r = .ok (some bytes) ∧
      tx.planRegions (r :: rs) i = (tx.planRegions rs (i + 1)).map fun p => (bytes :: p.1, p.2)) ∨
    ∃ location, tx.fetchPendingRegion r = .ok none ∧ tx.locate r = .ok location ∧
      tx.planRegions (r :: rs) i =
        (tx.planRegions rs (i + 1)).map fun p => ([] :: p.1, ⟨location, i⟩ :: p.2) := by
  rw [planRegions]
  cases hpend : tx.fetchPendingRegion r with
  | error e =>
    refine .inl ⟨e, rfl, fun store => ?_⟩
    rw [fetchBlockRegion, hpend]
    rfl
  | ok found =>
    cases found with
    | some bytes => exact .inr (.inl ⟨bytes, rfl, by cases tx.planRegions rs (i + 1) <;> rfl⟩)
    | none =>
      cases hloc : tx.locate r with
      | error e =>
        refine .inl ⟨e, rfl, fun store => ?_⟩
        rw [fetchBlockRegion, hpend]
        simp only [bind, Except.bind, hloc]
      | ok location =>
        exact .inr (.inr ⟨location, rfl, rfl, by cases tx.planRegions rs (i + 1) <;> rfl⟩)

/-- A failure of the plan is a failure of one of the regions. -/
theorem planRegions_error : ∀ {rs} {i},
    tx.planRegions rs i = .error e → ∃ r ∈ rs, tx.fetchBlockRegion store r = .error e
  | [], _, h => by cases h
  | r :: rs, i, h => by
    have hlater (h : tx.planRegions rs (i + 1) = .error e) :
        ∃ r' ∈ r :: rs, tx.fetchBlockRegion store r' = .error e := by
      obtain ⟨r', hmem, herr⟩ := planRegions_error h
      exact ⟨r', mem_cons_of_mem r hmem, herr⟩
    rcases planRegions_cons tx r rs i with ⟨e', hplan, hr⟩ | ⟨_, -, hplan⟩ | ⟨_, -, -, hplan⟩
    · cases hplan.symm.trans h
      exact ⟨r, mem_cons_self, hr store⟩
    · exact hlater (map_eq_error (hplan.symm.trans h))
    · exact hlater (map_eq_error (hplan.symm.trans h))

/-- What a plan from index `i` on says: every region has its bytes or one read, and every read is
one region's. -/
structure Planned (tx : Transaction) (rs : List BlockRegion) (i : Nat) (replies : List Bytes)
    (fetchList : List BulkFetchData) : Prop where
  length : replies.length = rs.length
  distinct : (fetchList.map BulkFetchData.replyIndex).Nodup
  read : ∀ d ∈ fetchList, i ≤ d.replyIndex ∧ ∃ r, rs[d.replyIndex - i]? = some r ∧
    tx.fetchPendingRegion r = .ok none ∧ tx.locate r = .ok d.location
  reply : ∀ j r, rs[j]? = some r → i + j ∈ fetchList.map BulkFetchData.replyIndex ∨
    ∃ bytes, replies[j]? = some bytes ∧ tx.fetchPendingRegion r = .ok (some bytes)

theorem planRegions_ok : ∀ {rs} {i} {replies}
    {fetchList : List BulkFetchData}, tx.planRegions rs i = .ok (replies, fetchList) →
    Planned tx rs i replies fetchList
  | [], _, _, _, h => by
    cases h
    exact ⟨rfl, by simp, by simp, by simp⟩
  | r :: rs, i, replies, fetchList, h => by
    rcases planRegions_cons tx r rs i with ⟨e, hplan, -⟩ | ⟨bytes, hpend, hplan⟩ |
      ⟨location, hpend, hloc, hplan⟩
    · cases hplan.symm.trans h
    · obtain ⟨⟨replies', fetchList'⟩, hrest, heq⟩ := map_eq_ok (hplan.symm.trans h)
      cases heq
      have ih := planRegions_ok hrest
      refine ⟨by simp [ih.length], ih.distinct, fun d hd => ?_, fun j r' hj => ?_⟩
      · obtain ⟨hle, r', hr', hd'⟩ := ih.read d hd
        have hsub : d.replyIndex - i = d.replyIndex - (i + 1) + 1 := by omega
        exact ⟨by omega, r', by rw [hsub]; exact hr', hd'⟩
      · cases j with
        | zero =>
          cases hj
          exact .inr ⟨bytes, rfl, hpend⟩
        | succ j =>
          rw [← Nat.add_assoc, Nat.add_right_comm]
          exact ih.reply j r' hj
    · obtain ⟨⟨replies', fetchList'⟩, hrest, heq⟩ := map_eq_ok (hplan.symm.trans h)
      cases heq
      have ih := planRegions_ok hrest
      refine ⟨by simp [ih.length], ?_, fun d hd => ?_, fun j r' hj => ?_⟩
      · -- The later reads are for later replies.
        refine nodup_cons.mpr ⟨fun hmem => ?_, ih.distinct⟩
        obtain ⟨d, hd, hi⟩ := mem_map.mp hmem
        have := (ih.read d hd).1
        simp only at hi
        omega
      · rcases mem_cons.mp hd with rfl | hd
        · exact ⟨le_rfl, r, by simp, hpend, hloc⟩
        · obtain ⟨hle, r', hr', hd'⟩ := ih.read d hd
          have hsub : d.replyIndex - i = d.replyIndex - (i + 1) + 1 := by omega
          exact ⟨by omega, r', by rw [hsub]; exact hr', hd'⟩
      · cases j with
        | zero => exact .inl (by simp)
        | succ j =>
          rw [← Nat.add_assoc, Nat.add_right_comm]
          exact (ih.reply j r' hj).imp_left (mem_cons_of_mem _)

variable {regions : List BlockRegion}

/-- The reads of a list fail with what one of them fails with. -/
theorem readRegions_error : ∀ {fetchList} {replies},
    (∀ d ∈ fetchList, ∃ r, regions[d.replyIndex]? = some r) →
    readRegions store regions fetchList replies = .error e →
    ∃ d ∈ fetchList, ∃ r, regions[d.replyIndex]? = some r ∧
      store.readBlockRegion d.location r.offset r.len = .error e
  | [], _, _, h => by cases h
  | d :: fetchList, replies, hin, h => by
    obtain ⟨r, hr⟩ := hin d mem_cons_self
    simp only [readRegions, hr] at h
    cases hread : store.readBlockRegion d.location r.offset r.len with
    | error e' =>
      rw [hread] at h
      cases h
      exact ⟨d, mem_cons_self, r, hr, hread⟩
    | ok bytes =>
      rw [hread] at h
      obtain ⟨d', hd', hrest⟩ := readRegions_error (fun d' hd' => hin d' (mem_cons_of_mem d hd')) h
      exact ⟨d', mem_cons_of_mem d hd', hrest⟩

/-- The reads of a list put each result in its place and touch nothing else. -/
theorem readRegions_ok : ∀ {fetchList} {replies out},
    (fetchList.map BulkFetchData.replyIndex).Nodup →
    (∀ d ∈ fetchList, d.replyIndex < replies.length) →
    readRegions store regions fetchList replies = .ok out →
    out.length = replies.length ∧
    (∀ d ∈ fetchList, ∃ r bytes, regions[d.replyIndex]? = some r ∧
      store.readBlockRegion d.location r.offset r.len = .ok bytes ∧
      out[d.replyIndex]? = some bytes) ∧
    ∀ j, j ∉ fetchList.map BulkFetchData.replyIndex → out[j]? = replies[j]?
  | [], replies, out, _, _, h => by
    cases h
    exact ⟨rfl, by simp, by simp⟩
  | d :: fetchList, replies, out, hnodup, hlt, h => by
    cases hr : regions[d.replyIndex]? with
    | none => simp [readRegions, hr] at h
    | some r =>
      simp only [readRegions, hr] at h
      cases hread : store.readBlockRegion d.location r.offset r.len with
      | error e => rw [hread] at h; cases h
      | ok bytes =>
        rw [hread] at h
        obtain ⟨hhead, htail⟩ := nodup_cons.mp hnodup
        obtain ⟨hlen, hreads, hrest⟩ := readRegions_ok htail
          (fun d' hd' => by simpa using hlt d' (mem_cons_of_mem d hd')) h
        refine ⟨by simpa using hlen, fun d' hd' => ?_, fun j hj => ?_⟩
        · rcases mem_cons.mp hd' with rfl | hd'
          · refine ⟨r, bytes, hr, hread, ?_⟩
            rw [hrest _ hhead, getElem?_set_self (hlt _ mem_cons_self)]
          · exact hreads d' hd'
        · simp only [map_cons, mem_cons, not_or] at hj
          rw [hrest j hj.2, getElem?_set_ne (Ne.symm hj.1)]

/-- A bulk read that fails does so with the error of one of its regions. -/
theorem fetchBlockRegions_error (h : tx.fetchBlockRegions store sorter regions = .error e) :
    ∃ r ∈ regions, tx.fetchBlockRegion store r = .error e := by
  unfold fetchBlockRegions at h
  cases hplan : tx.planRegions regions 0 with
  | error e' =>
    rw [hplan] at h
    cases h
    exact planRegions_error hplan
  | ok p =>
    obtain ⟨replies, fetchList⟩ := p
    rw [hplan] at h
    have hp := planRegions_ok hplan
    have hin : ∀ d ∈ sorter.sort fetchList, ∃ r, regions[d.replyIndex]? = some r := fun d hd => by
      obtain ⟨-, r, hr, -⟩ := hp.read d ((sorter.perm fetchList).mem_iff.mp hd)
      exact ⟨r, hr⟩
    obtain ⟨d, hd, r, hr, hread⟩ := readRegions_error hin h
    obtain ⟨-, r', hr', hpend, hloc⟩ := hp.read d ((sorter.perm fetchList).mem_iff.mp hd)
    obtain rfl : r' = r := Option.some.inj (hr'.symm.trans hr)
    refine ⟨r', mem_of_getElem? hr', ?_⟩
    rw [fetchBlockRegion, hpend]
    simp only [bind, Except.bind, hloc, hread]

/-- A bulk read that succeeds gives each region's bytes. -/
theorem fetchBlockRegions_ok {out : List Bytes} (h : tx.fetchBlockRegions store sorter regions = .ok out) :
    Forall₂ (fun r bytes => tx.fetchBlockRegion store r = .ok bytes) regions out := by
  unfold fetchBlockRegions at h
  cases hplan : tx.planRegions regions 0 with
  | error e =>
    rw [hplan] at h
    cases h
  | ok p =>
    obtain ⟨replies, fetchList⟩ := p
    rw [hplan] at h
    have hp := planRegions_ok hplan
    have hperm := sorter.perm fetchList
    have hmem : ∀ d, d ∈ sorter.sort fetchList ↔ d ∈ fetchList := fun d => hperm.mem_iff
    have hindex : ∀ j, j ∈ (sorter.sort fetchList).map BulkFetchData.replyIndex ↔
        j ∈ fetchList.map BulkFetchData.replyIndex := fun j => (hperm.map _).mem_iff
    obtain ⟨hlen, hreads, hrest⟩ := readRegions_ok ((hperm.map _).nodup_iff.mpr hp.distinct)
      (fun d hd => by
        obtain ⟨-, r, hr, -⟩ := hp.read d ((hmem d).mp hd)
        rw [hp.length]
        exact (List.getElem?_eq_some_iff.mp hr).1) h
    refine forall₂_iff_get.mpr ⟨(hlen.trans hp.length).symm, fun j hj hj' => ?_⟩
    have hr : regions[j]? = some (regions.get ⟨j, hj⟩) := getElem?_eq_getElem hj
    have hout : out[j]? = some (out.get ⟨j, hj'⟩) := getElem?_eq_getElem hj'
    by_cases hfetch : j ∈ fetchList.map BulkFetchData.replyIndex
    · obtain ⟨d, hd, rfl⟩ := mem_map.mp hfetch
      obtain ⟨r, bytes, hr', hread, hout'⟩ := hreads d ((hmem d).mpr hd)
      obtain ⟨-, r'', hr'', hpend, hloc⟩ := hp.read d hd
      cases hr'.symm.trans hr
      cases hr''.symm.trans hr
      rw [fetchBlockRegion, hpend]
      simp only [bind, Except.bind, hloc, hread]
      exact congrArg _ (Option.some.inj (hout'.symm.trans hout))
    · obtain hmem' | ⟨bytes, hreply, hpend⟩ := hp.reply j _ hr
      · exact absurd (by simpa using hmem') hfetch
      · rw [fetchBlockRegion, hpend]
        rw [hrest j (fun hmem' => hfetch ((hindex j).mp hmem')), hreply] at hout
        exact congrArg _ (Option.some.inj hout)

/-- The bulk read is the single reads. -/
theorem fetchBlockRegions_ok_iff {out : List Bytes} : tx.fetchBlockRegions store sorter regions = .ok out ↔
      Forall₂ (fun r bytes => tx.fetchBlockRegion store r = .ok bytes) regions out := by
  refine ⟨fetchBlockRegions_ok, fun h => ?_⟩
  cases hres : tx.fetchBlockRegions store sorter regions with
  | error e =>
    obtain ⟨r, hr, herr⟩ := fetchBlockRegions_error hres
    obtain ⟨i, rfl⟩ := mem_iff_get.mp hr
    obtain ⟨hlen, hget⟩ := forall₂_iff_get.mp h
    cases herr.symm.trans (hget i i.2 (hlen ▸ i.2))
  | ok out' =>
    have huniq : Relator.RightUnique fun r bytes => tx.fetchBlockRegion store r = .ok bytes :=
      fun r a b ha hb => Except.ok.inj (ha.symm.trans hb)
    exact congrArg _ (huniq.forall₂ (fetchBlockRegions_ok hres) h)

end Transaction

/-- **Region reads**. While the block is pending they are exact; once it is stored they are exact
unless the region ends in the twelve bytes after the block; and a bulk read is the single reads,
or the error of one of them. -/
theorem blockRegions_exact_iff {cfg : StoreConfig} {db : Db} {hash : Hash} {rawBlock : Bytes}
    (h : db.Stores cfg hash rawBlock) (offset len : UInt32) :
    (∀ tx : Transaction, tx.pendingBlock hash = some rawBlock →
      tx.fetchBlockRegion db.store ⟨hash, offset, len⟩ = regionSpec rawBlock offset len) ∧
    (db.begin.fetchBlockRegion db.store ⟨hash, offset, len⟩ = regionSpec rawBlock offset len ↔
      ¬ (rawBlock.length < offset.toNat + len.toNat ∧ offset.toNat + len.toNat ≤ rawBlock.length + 12)) ∧
    ∀ (tx : Transaction) (sorter : BulkSort) (regions : List BlockRegion),
      (∀ out, tx.fetchBlockRegions db.store sorter regions = .ok out ↔
        Forall₂ (fun r bytes => tx.fetchBlockRegion db.store r = .ok bytes) regions out) ∧
      ∀ e, tx.fetchBlockRegions db.store sorter regions = .error e →
        ∃ r ∈ regions, tx.fetchBlockRegion db.store r = .error e := by
  have hlen : rawBlock.length < 2 ^ 32 := by
    obtain ⟨loc, -, hold⟩ := h
    have := hold.blockLen
    have := hold.fits
    omega
  refine ⟨fun tx htx => Transaction.fetchBlockRegion_pending htx hlen,
    Transaction.fetchBlockRegion_stored_iff h offset len, fun tx sorter regions => ⟨fun out => ?_, ?_⟩⟩
  · exact Transaction.fetchBlockRegions_ok_iff
  · exact fun e => Transaction.fetchBlockRegions_error

/-! ### The three blocks again -/

/-- Every block of a run is stored. -/
theorem Db.Sound.stores {stored : List (Hash × Bytes)} {db : Db} (h : db.Sound cfg stored) {hash : Hash}
    (hhas : db.begin.hasBlock hash = true) : ∃ rawBlock, (hash, rawBlock) ∈ stored ∧ db.Stores cfg hash rawBlock := by
  rw [Db.hasBlock_begin] at hhas
  obtain ⟨row, hrow⟩ := Option.isSome_iff_exists.mp hhas
  obtain ⟨loc, rawBlock, rfl, hmem, hold⟩ := h.rows hash row hrow
  exact ⟨rawBlock, hmem, loc, hrow, hold⟩

/-- **After any run of commits every block that is listed is fetched as it was stored.** -/
theorem Committed.recovered {stored : List (Hash × Bytes)} {db : Db} (h : Committed cfg db stored) :
    db.Recovered cfg stored := by
  intro hash hhas
  obtain ⟨rawBlock, hmem, hstores⟩ := h.invariant.1.stores hhas
  exact ⟨rawBlock, hmem, hstores.fetchBlock⟩

theorem recovered_threeBlocks : (threeBlocks true).Recovered smallFiles threeStored.pendingBlockData :=
  committed_threeBlocks.recovered

theorem stores_second : (threeBlocks true).Stores smallFiles (hashOf 2) [2] := by
  have hhas : (threeBlocks true).begin.hasBlock (hashOf 2) = true := by decide
  obtain ⟨rawBlock, hmem, hstores⟩ := committed_threeBlocks.invariant.1.stores hhas
  have hsecond : ∀ b ∈ [] ++ threeStored.pendingBlockData, b.1 = hashOf 2 → b.2 = [2] := by
    decide
  exact hsecond _ hmem rfl ▸ hstores

/-- The second block, whole. -/
theorem blockRegions_exact_whole : (threeBlocks true).Stores smallFiles (hashOf 2) [2] ∧
      (threeBlocks true).begin.fetchBlockRegion (threeBlocks true).store ⟨hashOf 2, 0, 1⟩ =
        regionSpec [2] 0 1 :=
  ⟨stores_second, (blockRegions_exact_iff stores_second 0 1).2.1.mpr (by decide)⟩

/-- One byte more than the second block has: an error while it is pending, the first byte of the
checksum once it is stored. -/
theorem blockRegion_reads_checksum : (threeBlocks true).Stores smallFiles (hashOf 2) [2] ∧
    threeStored.fetchBlockRegion (Db.create smallFiles).store ⟨hashOf 2, 0, 2⟩ =
      .error (.err .blockRegionInvalid) ∧
    (threeBlocks true).begin.fetchBlockRegion (threeBlocks true).store ⟨hashOf 2, 0, 2⟩ =
      .ok [2, 38] :=
  ⟨stores_second, by decide +kernel, by decide +kernel⟩

end NogoCommons.Ffldb
