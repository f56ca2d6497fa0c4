import NogoCommons.Ffldb.Transaction

/-!
# `database/ffldb/db.go` — pruning and `Commit`

`Commit` works in an order of its own: it deletes the files that were pruned, appends the pending
blocks, notes their locations and the new write cursor in the transaction's keys, and hands those
to the cache. If a write fails the cursor is rolled back, which takes away what was appended; a
deleted file does not come back. The metadata are not touched before the end, so that after a
failure the index is the old one, with the rows of the deleted files in it.

A failed commit therefore leaves the blocks as they were exactly if none of those that could be
read was in a file it had deleted (`commit_failed_iff`). `PruneBlocks` reads the directory, not
what the transaction has scheduled already, so that a second call schedules the same files again:
deleting them twice fails, after it has succeeded once (`commit_pruned_twice`).
-/

namespace NogoCommons.Ffldb
open Lib List SortedMap

def serializeWriteRow (cfg : StoreConfig) (curBlockFileNum curFileOffset : UInt32) : Bytes :=
  let row := putUint32LE curBlockFileNum ++ putUint32LE curFileOffset
  row ++ putUint32LE (cfg.checksum row)

def initDB (cfg : StoreConfig) : SortedMap Bytes Bytes :=
  ((SortedMap.empty.insert writeLocKey (serializeWriteRow cfg 0 0)).insert
    (bucketIndexKey metadataBucketID blockIdxBucketName) blockIdxBucketID).insert
    curBucketIDKeyName blockIdxBucketID

/-- A database that has just been created. -/
def Db.create (cfg : StoreConfig) : Db := ⟨⟨.empty, 0, 0⟩, ⟨initDB cfg, .empty⟩⟩

/-! ## `PruneBlocks` -/

/-- The loop over the files from `i` on, `n` of them before the last one. -/
def pruneLoop (maxSize targetSize : Nat) : Nat → UInt32 → Nat → List UInt32
  | 0, _, _ => []
  | n + 1, i, totalSize =>
    i :: if totalSize - maxSize ≤ targetSize then []
      else pruneLoop maxSize targetSize n (i + 1) (totalSize - maxSize)

/-- The files `PruneBlocks` schedules; nothing if it returns early. -/
def pruneFiles (cfg : StoreConfig) (files : Files) (targetSize : UInt64) : Option (List UInt32) := do
  let (first, last, lastFileSize) ← BlockStore.scanBlockFiles files
  let maxSize := cfg.maxBlockFileSize.toNat
  let count := last.toNat - first.toNat
  let totalSize := lastFileSize.toNat + maxSize * count
  if first = last ∨ totalSize ≤ targetSize.toNat then none
  else return pruneLoop maxSize targetSize.toNat count first totalSize

namespace Transaction

/-- Everything the transaction sees, in the order a cursor goes through it. -/
def view (tx : Transaction) : SortedMap Bytes Bytes :=
  commitTreaps (commitTreaps tx.snapshot.dbSnapshot tx.snapshot.pending) tx.pending

/-- The keys of the block index, which has no buckets below it. -/
def blockRows (tx : Transaction) : List (Bytes × Bytes) :=
  tx.view.entries.filter fun e => blockIdxBucketID.isPrefixOf e.1

/-- The cursor loop of `PruneBlocks`: the rows of the scheduled files are deleted. -/
def pruneRows (deletedFiles : List UInt32) : List (Bytes × Bytes) → Transaction → DbResult (List Hash × Transaction)
  | [], tx => .ok ([], tx)
  | (key, row) :: rows, tx => do
    let loc ← deserializeBlockLoc row
    if loc.blockFileNum ∈ deletedFiles then
      -- The conversion of `cursor.Key()` to an array panics on a key that is too short.
      if key.length < 4 + 32 then throw (.panic .sliceBounds)
      let (hashes, tx) ← pruneRows deletedFiles rows (tx.deleteKey key)
      return (.copy 32 (key.drop 4) :: hashes, tx)
    else pruneRows deletedFiles rows tx

def pruneBlocks (cfg : StoreConfig) (store : BlockStore) (tx : Transaction) (targetSize : UInt64) :
    DbResult (List Hash × Transaction) :=
  if targetSize.toNat < cfg.maxBlockFileSize.toNat then .error .plain
  else
    match pruneFiles cfg store.files targetSize with
    | none => .ok ([], tx)
    | some nums =>
      pruneRows nums tx.blockRows { tx with pendingDelFileNums := tx.pendingDelFileNums ++ nums }

/-! ## The calls of a transaction -/

/-- What is called on a writable transaction before it is committed. `Put` and `Delete` of any
bucket are given by the raw key they come to. -/
inductive Call where
  | storeBlock (hash : Hash) (bytes : Bytes)
  | put (key value : Bytes)
  | delete (key : Bytes)
  | pruneBlocks (targetSize : UInt64)

/-- An error leaves the transaction as it was; a panic ends it. -/
def settle (tx : Transaction) : DbResult Transaction → Option Transaction
  | .ok tx' => some tx'
  | .error (.panic _) => none
  | .error _ => some tx

def call (cfg : StoreConfig) (store : BlockStore) (tx : Transaction) : Call → Option Transaction
  | .storeBlock hash bytes => tx.settle (tx.storeBlock hash bytes)
  | .put key value => some (tx.putKey key value)
  | .delete key => some (tx.deleteKey key)
  | .pruneBlocks targetSize => tx.settle ((tx.pruneBlocks cfg store targetSize).map Prod.snd)

/-- The calls one after the other. -/
def calls (cfg : StoreConfig) (store : BlockStore) (tx : Transaction) (cs : List Call) : Option Transaction :=
  runSchedule (call cfg store) tx cs

end Transaction

/-! ## `Commit` -/

/-- `commitTx`, when leveldb does not fail: into the treaps, or past them after a flush. -/
def DbCache.commitTx (c : DbCache) (tx : Pending) (needsFlush : Bool) : DbCache :=
  if needsFlush then ⟨commitTreaps (commitTreaps c.ldb c.cached) tx, .empty⟩
  else ⟨c.ldb, mergePending c.cached tx⟩

/-- Which file operations of a commit fail. -/
structure CommitFault where
  delete : UInt32 → Bool
  write : Nat → Option BlockStore.WriteFault
  rollback : BlockStore.RollbackFault

/-- Nothing fails. -/
def CommitFault.none : CommitFault := ⟨fun _ => false, fun _ => .none, ⟨fun _ => false, false, false⟩⟩

/-- The pending blocks from index `i` on: each is written, and its row put. -/
def writeBlocks (cfg : StoreConfig) (fault : Nat → Option BlockStore.WriteFault) :
    Nat → List (Hash × Bytes) → BlockStore → Transaction → DbResult Transaction × BlockStore
  | _, [], s, tx => (.ok tx, s)
  | i, (hash, bytes) :: blocks, s, tx =>
    match s.writeBlock cfg bytes (fault i) with
    | (.error e, s') => (.error e, s')
    | (.ok loc, s') =>
      writeBlocks cfg fault (i + 1) blocks s' (tx.putKey (blockIdxKey hash) (serializeBlockLoc loc))

def writePendingAndCommit (cfg : StoreConfig) (fault : CommitFault) (needsFlush : Bool) (db : Db)
    (tx : Transaction) : DbResult Unit × Db :=
  match BlockStore.deleteFiles fault.delete tx.pendingDelFileNums db.store.files with
  | (false, files) =>
    -- Nothing is undone.
    (.error (.err .driverSpecific), { db with store := { db.store with files := files } })
  | (true, files) =>
    let store := { db.store with files := files }
    match writeBlocks cfg fault.write 0 tx.pendingBlockData store tx with
    | (.error e, s) =>
      (.error e, { db with store := s.handleRollback store.curFileNum store.curOffset fault.rollback })
    | (.ok tx, s) =>
      let tx := tx.putKey writeLocKey (serializeWriteRow cfg s.curFileNum s.curOffset)
      (.ok (), ⟨s, db.cache.commitTx tx.pending needsFlush⟩)

/-! ## What the calls do -/

variable {cfg : StoreConfig} {tx : Transaction} {db : Db}
namespace Transaction
variable {store : BlockStore} {tx' : Transaction}

theorem get?_view (tx : Transaction) (key : Bytes) : tx.view.get? key = tx.fetchKey key := by
  rw [view, get?_commitTreaps]
  simp only [DbCacheSnapshot.get, fetchKey, get?_commitTreaps]

theorem lt_of_mem_pruneLoop {maxSize targetSize : Nat} {n : UInt32} :
    ∀ {k} {i} {totalSize}, i.toNat + k < 2 ^ 32 →
    n ∈ pruneLoop maxSize targetSize k i totalSize → n.toNat < i.toNat + k
  | 0, _, _, _, h => by simp [pruneLoop] at h
  | k + 1, i, totalSize, hk, h => by
    rcases mem_cons.mp h with rfl | h
    · omega
    · split_ifs at h
      · simp at h
      · have hnext : (i + 1).toNat = i.toNat + 1 := by
          rw [UInt32.toNat_add]
          simp only [UInt32.reduceToNat]
          omega
        have := lt_of_mem_pruneLoop (by omega) h
        omega

/-- Only files before the last one on disk are scheduled. -/
theorem lt_of_mem_pruneFiles {files : Files} {targetSize : UInt64} {nums : List UInt32} {n : UInt32}
    (h : pruneFiles cfg files targetSize = some nums) (hn : n ∈ nums) :
    ∃ last, files.has last = true ∧ n < last := by
  unfold pruneFiles BlockStore.scanBlockFiles at h
  cases hfirst : files.entries.head? with
  | none => simp [hfirst] at h
  | some first =>
    cases hlast : files.entries.getLast? with
    | none => simp [hfirst, hlast] at h
    | some last =>
      simp only [hfirst, hlast, Option.bind_eq_bind, Option.bind_some, Option.pure_def] at h
      split_ifs at h
      cases h
      refine ⟨last.1, SortedMap.has_iff.mpr ⟨last.2, mem_of_getLast? hlast⟩, ?_⟩
      have hbound := last.1.toNat_lt
      -- With the first file after the last one the loop would not run.
      rcases Nat.lt_or_ge first.1.toNat last.1.toNat with hlt | hge
      · have := lt_of_mem_pruneLoop (by omega) hn
        rw [UInt32.lt_iff_toNat_lt]
        omega
      · rw [Nat.sub_eq_zero_of_le hge] at hn
        simp [pruneLoop] at hn

/-- What the row loop of a prune leaves: the row of a scheduled file is gone, and nothing else. -/
structure Pruned (nums : List UInt32) (rows : List (Bytes × Bytes)) (tx tx' : Transaction) : Prop where
  snapshot : tx'.snapshot = tx.snapshot
  blocks : tx'.pendingBlockData = tx.pendingBlockData
  files : tx'.pendingDelFileNums = tx.pendingDelFileNums
  gone : ∀ key row loc, (key, row) ∈ rows → deserializeBlockLoc row = .ok loc →
    loc.blockFileNum ∈ nums → tx'.fetchKey key = none
  kept : ∀ key, tx'.fetchKey key = tx.fetchKey key ∨
    (∃ row, (key, row) ∈ rows) ∧ tx'.fetchKey key = none

theorem pruned_of_pruneRows {nums : List UInt32} : ∀ {rows}
    {tx tx' : Transaction} {hashes : List Hash},
    pruneRows nums rows tx = .ok (hashes, tx') → Pruned nums rows tx tx'
  | [], tx, _, hashes, h => by
    cases h
    exact ⟨rfl, rfl, rfl, by simp, fun _ => .inl rfl⟩
  | (key, row) :: rows, tx, tx', hashes, h => by
    unfold pruneRows at h
    cases hloc : deserializeBlockLoc row with
    | error e => rw [hloc] at h; cases h
    | ok loc =>
      rw [hloc] at h
      simp only [bind, Except.bind] at h
      split_ifs at h with hmem hshort
      · cases hrest : pruneRows nums rows (tx.deleteKey key) with
        | error e => rw [hrest] at h; cases h
        | ok p =>
          rw [hrest] at h
          cases h
          have ih := pruned_of_pruneRows hrest
          have hself : p.2.fetchKey key = none := by
            rcases ih.kept key with hk | ⟨-, hk⟩
            · rw [hk, fetchKey_deleteKey, if_pos rfl]
            · exact hk
          refine ⟨ih.snapshot, ih.blocks, ih.files, ?_, fun k => ?_⟩
          · intro k row' loc' hin hloc' hmem'
            rcases mem_cons.mp hin with heq | hin
            · cases heq
              exact hself
            · exact ih.gone k row' loc' hin hloc' hmem'
          · by_cases hk : k = key
            · subst hk
              exact .inr ⟨⟨row, mem_cons_self⟩, hself⟩
            · rcases ih.kept k with hsame | ⟨⟨row', hin⟩, hnone⟩
              · exact .inl (by rw [hsame, fetchKey_deleteKey, if_neg hk])
              · exact .inr ⟨⟨row', mem_cons_of_mem _ hin⟩, hnone⟩
      · have ih := pruned_of_pruneRows h
        refine ⟨ih.snapshot, ih.blocks, ih.files, ?_, fun k => ?_⟩
        · intro k row' loc' hin hloc' hmem'
          rcases mem_cons.mp hin with heq | hin
          · cases heq
            cases hloc.symm.trans hloc'
            exact absurd hmem' hmem
          · exact ih.gone k row' loc' hin hloc' hmem'
        · exact (ih.kept k).imp_right fun ⟨⟨row', hin⟩, hnone⟩ =>
            ⟨⟨row', mem_cons_of_mem _ hin⟩, hnone⟩

/-- Everything a call can do. -/
theorem call_cases {c : Call} (h : tx.call cfg store c = some tx') : tx' = tx ∨
    (∃ hash bytes, c = .storeBlock hash bytes ∧ tx.hasBlock hash = false ∧
      tx' = { tx with pendingBlockData := tx.pendingBlockData ++ [(hash, bytes)] }) ∨
    (∃ key value, c = .put key value ∧ tx' = tx.putKey key value) ∨
    (∃ key, c = .delete key ∧ tx' = tx.deleteKey key) ∨
    ∃ targetSize nums, c = .pruneBlocks targetSize ∧
      pruneFiles cfg store.files targetSize = some nums ∧
      Pruned nums tx.blockRows { tx with pendingDelFileNums := tx.pendingDelFileNums ++ nums } tx' := by
  have hsettle : ∀ r : DbResult Transaction, tx.settle r = some tx' → r = .ok tx' ∨ tx' = tx := by
    intro r hr
    match r with
    | .ok t => exact .inl (congrArg _ (Option.some.inj hr))
    | .error (.panic _) => cases hr
    | .error (.err _) => exact .inr (Option.some.inj hr).symm
    | .error .plain => exact .inr (Option.some.inj hr).symm
  cases c with
  | storeBlock hash bytes =>
    rcases hsettle _ h with h | h
    · unfold storeBlock at h
      split_ifs at h with hhas
      exact .inr (.inl ⟨hash, bytes, rfl, by simpa using hhas, (Except.ok.inj h).symm⟩)
    · exact .inl h
  | put key value => exact .inr (.inr (.inl ⟨key, value, rfl, (Option.some.inj h).symm⟩))
  | delete key => exact .inr (.inr (.inr (.inl ⟨key, rfl, (Option.some.inj h).symm⟩)))
  | pruneBlocks targetSize =>
    rcases hsettle _ h with h | h
    · unfold pruneBlocks at h
      split_ifs at h with hsize
      · cases h
      · cases hnums : pruneFiles cfg store.files targetSize with
        | none =>
          rw [hnums] at h
          exact .inl (Except.ok.inj h).symm
        | some nums =>
          rw [hnums] at h
          obtain ⟨⟨hashes, tx₁⟩, hrows, rfl⟩ := map_eq_ok h
          exact .inr (.inr (.inr (.inr ⟨targetSize, nums, rfl, hnums, pruned_of_pruneRows hrows⟩)))
    · exact .inl h

end Transaction

/-! ## A database between two transactions -/

/-- The cursor is at the end of the last file, and the index speaks only of what is before it. -/
structure Db.Valid (db : Db) : Prop where
  cursorOk : db.store.CursorOk
  last : ∀ n, db.store.files.has n = true → n ≤ db.store.curFileNum
  before : ∀ hash row loc, db.cache.content.get (blockIdxKey hash) = some row →
    deserializeBlockLoc row = .ok loc → loc.Before db.store.curFileNum db.store.curOffset

theorem get_create (cfg : StoreConfig) (key : Bytes) :
    (Db.create cfg).cache.content.get key = (initDB cfg).get? key := rfl

/-- The keys of the bucket index begin with a letter, bucket IDs with a zero here. -/
theorem bidx_ne {bucketID key rest : Bytes} (h : bucketID.head? = some 0) :
    bucketizedKey bucketID key ≠ bucketIndexPrefix ++ rest := by
  intro heq
  have hb : bucketIndexPrefix.head? = some 0x62 := by decide
  have hhead := congrArg head? heq
  rw [bucketizedKey, head?_append, head?_append, h, hb] at hhead
  simp at hhead

theorem get_create_blockIdxKey (cfg : StoreConfig) (hash : Hash) :
    (Db.create cfg).cache.content.get (blockIdxKey hash) = none := by
  have hcbid : blockIdxKey hash ≠ curBucketIDKeyName := by
    have : curBucketIDKeyName = bucketIndexPrefix ++ ascii "-cbid" := by decide
    rw [this]
    exact bidx_ne rfl
  have hidx : blockIdxKey hash ≠ bucketIndexKey metadataBucketID blockIdxBucketName := by
    rw [bucketIndexKey, append_assoc]
    exact bidx_ne rfl
  rw [get_create, initDB, get?_insert, if_neg hcbid, get?_insert, if_neg hidx,
    get?_insert, if_neg (blockIdxKey_ne_writeLocKey hash)]
  rfl

theorem Db.valid_create (cfg : StoreConfig) : (Db.create cfg).Valid := by
  refine ⟨Nat.zero_le _, ?_, fun hash row loc hrow => ?_⟩
  · intro n hn
    cases hn
  · rw [get_create_blockIdxKey] at hrow
    cases hrow

namespace Transaction
variable {cs : List Call}

/-- The file the cursor is in is never scheduled. -/
theorem pruned_lt (hdb : db.Valid) (h : db.begin.calls cfg db.store cs = some tx) :
    ∀ n ∈ tx.pendingDelFileNums, n < db.store.curFileNum := by
  refine runSchedule_invariant
    (I := fun tx => ∀ n ∈ tx.pendingDelFileNums, n < db.store.curFileNum) (P := fun _ => True)
    ?_ (fun _ _ => trivial) (by simp [Db.begin]) h
  intro tx c tx' hI _ hc n hn
  rcases call_cases hc with rfl | ⟨_, _, -, -, rfl⟩ | ⟨_, _, -, rfl⟩ | ⟨_, -, rfl⟩ |
    ⟨_, nums, -, hnums, hpruned⟩
  · exact hI n hn
  · exact hI n hn
  · exact hI n hn
  · exact hI n hn
  · rw [hpruned.files] at hn
    rcases mem_append.mp hn with hn | hn
    · exact hI n hn
    · obtain ⟨last, hlast, hlt⟩ := lt_of_mem_pruneFiles hnums hn
      exact hlt.trans_le (hdb.last last hlast)

/-- The blocks that are pending are those that were stored. -/
theorem pendingBlockData_of_calls (h : db.begin.calls cfg db.store cs = some tx) {P : Bytes → Prop}
    (hP : ∀ hash bytes, .storeBlock hash bytes ∈ cs → P bytes) :
    ∀ b ∈ tx.pendingBlockData, P b.2 := by
  refine runSchedule_invariant (I := fun tx => ∀ b ∈ tx.pendingBlockData, P b.2)
    (P := fun c => ∀ hash bytes, c = .storeBlock hash bytes → P bytes) ?_
    (fun c hc hash bytes heq => by subst heq; exact hP hash bytes hc) (by simp [Db.begin]) h
  intro tx c tx' hI hPc hc b hb
  rcases call_cases hc with rfl | ⟨hash, bytes, heq, -, rfl⟩ | ⟨_, _, -, rfl⟩ | ⟨_, -, rfl⟩ |
    ⟨_, nums, -, -, hpruned⟩
  · exact hI b hb
  · rcases mem_append.mp hb with hb | hb
    · exact hI b hb
    · obtain rfl : b = (hash, bytes) := by simpa using hb
      exact hPc hash bytes heq
  · exact hI b hb
  · exact hI b hb
  · rw [hpruned.blocks] at hb
    exact hI b hb

end Transaction

/-! ## A commit that fails -/

section Failed
variable {fault : CommitFault} {needsFlush : Bool} {db' : Db} {e : Failure}

/-- Writing the pending blocks, to the end or to a failure, only adds at the cursor. -/
theorem extends_writeBlocks (cfg : StoreConfig) (fault : Nat → Option BlockStore.WriteFault) :
    ∀ blocks i (s : BlockStore) tx, s.CursorOk →
    s.curFileNum.toNat + blocks.length < 2 ^ 32 → (∀ b ∈ blocks, b.2.length + 12 < 2 ^ 32) →
    s.Extends (writeBlocks cfg fault i blocks s tx).2
  | [], _, s, _, hs, _, _ => .refl hs
  | (hash, bytes) :: blocks, i, s, tx, hs, hroom, hsize => by
    rw [length_cons] at hroom
    have hlen := hsize (hash, bytes) mem_cons_self
    have hroom₁ : s.Room := by
      unfold BlockStore.Room
      omega
    have hext := BlockStore.extends_writeBlock cfg hs hroom₁ hlen (fault i)
    have hnum := BlockStore.curFileNum_writeBlock_le cfg hs hlen (fault i)
    unfold writeBlocks
    generalize hw : s.writeBlock cfg bytes (fault i) = r at hext hnum ⊢
    match r with
    | (.error e, s') => exact hext
    | (.ok loc, s') =>
      simp only at hext hnum ⊢
      exact hext.trans (extends_writeBlocks cfg fault blocks (i + 1) s' _ hext.cursorOk (by omega)
        fun b hb => hsize b (mem_cons_of_mem _ hb))

/-- The store after the pruned files have been deleted, as far as that went. -/
def prunedStore (fault : CommitFault) (db : Db) (tx : Transaction) : BlockStore :=
  { db.store with
    files := (BlockStore.deleteFiles fault.delete tx.pendingDelFileNums db.store.files).2 }

theorem get?_prunedStore (fault : CommitFault) (db : Db) (tx : Transaction) (n : UInt32) :
    (prunedStore fault db tx).files.get? n =
      if n ∈ BlockStore.removed fault.delete tx.pendingDelFileNums db.store.files then none
      else db.store.files.get? n :=
  BlockStore.get?_deleteFiles ..

theorem cursorOk_prunedStore (hdb : db.Valid) (hlt : ∀ n ∈ tx.pendingDelFileNums, n < db.store.curFileNum) :
    (prunedStore fault db tx).CursorOk := by
  have hcur : (prunedStore fault db tx).files.get? db.store.curFileNum =
      db.store.files.get? db.store.curFileNum := by
    rw [get?_prunedStore, if_neg]
    intro hmem
    exact absurd (hlt _ (BlockStore.removed_subset _ _ _ hmem)) (lt_irrefl _)
  show db.store.curOffset.toNat ≤ ((prunedStore fault db tx).files.contents db.store.curFileNum).length
  rw [Files.contents, hcur]
  exact hdb.cursorOk

/-- A failed commit leaves the metadata, and the files as the deletions left them, up to the
cursor. -/
theorem commit_failed (hdb : db.Valid) (hlt : ∀ n ∈ tx.pendingDelFileNums, n < db.store.curFileNum)
    (hroom : db.store.curFileNum.toNat + tx.pendingBlockData.length < 2 ^ 32)
    (hsize : ∀ b ∈ tx.pendingBlockData, b.2.length + 12 < 2 ^ 32)
    (h : writePendingAndCommit cfg fault needsFlush db tx = (.error e, db')) :
    db'.cache = db.cache ∧ AgreeBelow db.store.curFileNum db.store.curOffset.toNat
      (prunedStore fault db tx).files db'.store.files := by
  have hok : (prunedStore fault db tx).CursorOk := cursorOk_prunedStore hdb hlt
  have hext := extends_writeBlocks cfg fault.write tx.pendingBlockData 0 (prunedStore fault db tx) tx
    hok hroom hsize
  unfold writePendingAndCommit at h
  unfold prunedStore at hok hext ⊢
  generalize BlockStore.deleteFiles fault.delete tx.pendingDelFileNums db.store.files = r at *
  match r with
  | (false, files) =>
    cases h
    exact ⟨rfl, .refl hok⟩
  | (true, files) =>
    simp only at h hext ⊢
    generalize writeBlocks cfg fault.write 0 tx.pendingBlockData { db.store with files := files } tx =
      w at *
    match w with
    | (.ok tx', s) => cases h
    | (.error e', s) =>
      cases h
      refine ⟨rfl, hext.agree.trans ?_⟩
      exact BlockStore.agreeBelow_handleRollback hext.cursorLe.curFileNum_le hext.agree.le_length _

/-- The same blocks, and the same bytes, for every hash. -/
def Db.SameBlocks (cfg : StoreConfig) (db db' : Db) : Prop :=
  ∀ hash, db'.begin.hasBlock hash = db.begin.hasBlock hash ∧
    db'.begin.fetchBlock cfg db'.store hash = db.begin.fetchBlock cfg db.store hash

variable {cs : List Transaction.Call}

/-- **A failed commit leaves the blocks as they were** exactly if every indexed block in a file it
had deleted could not be read before either. -/
theorem commit_failed_iff (hdb : db.Valid) (hcalls : db.begin.calls cfg db.store cs = some tx)
    (hsize : ∀ hash bytes, .storeBlock hash bytes ∈ cs → bytes.length + 12 < 2 ^ 32)
    (hroom : db.store.curFileNum.toNat + tx.pendingBlockData.length < 10 ^ 9)
    (h : writePendingAndCommit cfg fault needsFlush db tx = (.error e, db')) :
    db.SameBlocks cfg db' ↔ ∀ hash row loc,
      db.cache.content.get (blockIdxKey hash) = some row → deserializeBlockLoc row = .ok loc →
      loc.blockFileNum ∈ BlockStore.removed fault.delete tx.pendingDelFileNums db.store.files →
      db.begin.fetchBlock cfg db.store hash = .error (.err .driverSpecific) := by
  have hlt := Transaction.pruned_lt hdb hcalls
  obtain ⟨hcache, hagree⟩ := commit_failed hdb hlt (by omega)
    (Transaction.pendingBlockData_of_calls hcalls hsize) h
  have hcontent : db'.cache.content = db.cache.content := by rw [hcache]
  -- A block in a deleted file cannot be read any more.
  have hgone : ∀ hash row loc, db.cache.content.get (blockIdxKey hash) = some row →
      deserializeBlockLoc row = .ok loc →
      loc.blockFileNum ∈ BlockStore.removed fault.delete tx.pendingDelFileNums db.store.files →
      db'.begin.fetchBlock cfg db'.store hash = .error (.err .driverSpecific) := by
    intro hash row loc hrow hloc hmem
    rw [Db.fetchBlock_row (hcontent ▸ hrow) hloc]
    refine BlockStore.readBlock_of_missing ?_
    rw [hagree.older _ (hlt _ (BlockStore.removed_subset _ _ _ hmem)), get?_prunedStore, if_pos hmem]
  constructor
  · intro hsame hash row loc hrow hloc hmem
    rw [← (hsame hash).2, hgone hash row loc hrow hloc hmem]
  · intro hunread hash
    refine ⟨by rw [Db.hasBlock_begin, Db.hasBlock_begin, hcontent], ?_⟩
    cases hrow : db.cache.content.get (blockIdxKey hash) with
    | none => simp only [Db.fetchBlock_begin, hcontent, hrow]
    | some row =>
      cases hloc : deserializeBlockLoc row with
      | error e' => simp only [Db.fetchBlock_begin, hcontent, hrow, hloc, Except.bind]
      | ok loc =>
        by_cases hmem : loc.blockFileNum ∈
            BlockStore.removed fault.delete tx.pendingDelFileNums db.store.files
        · rw [hgone hash row loc hrow hloc hmem, hunread hash row loc hrow hloc hmem]
        · have hpruned : (prunedStore fault db tx).files.get? loc.blockFileNum =
              db.store.files.get? loc.blockFileNum := by
            rw [get?_prunedStore, if_neg hmem]
          calc db'.begin.fetchBlock cfg db'.store hash
              = db'.store.readBlock cfg loc := Db.fetchBlock_row (hcontent ▸ hrow) hloc
            _ = (prunedStore fault db tx).readBlock cfg loc :=
                BlockStore.readBlock_congr hagree (cursorOk_prunedStore hdb hlt)
                  (hdb.before hash row loc hrow hloc)
            _ = db.store.readBlock cfg loc := BlockStore.readBlock_congr_file hpruned
            _ = db.begin.fetchBlock cfg db.store hash := (Db.fetchBlock_row hrow hloc).symm

end Failed

/-! ### Three blocks in three files -/

/-- Files so small that each takes one block. -/
def smallFiles : StoreConfig := ⟨0xd9b4bef9, 16, castagnoli⟩
def hashOf (b : UInt8) : Hash := ⟨replicate 32 b, length_replicate⟩

def threeCalls : List Transaction.Call :=
  [.storeBlock (hashOf 1) [1], .storeBlock (hashOf 2) [2], .storeBlock (hashOf 3) [3]]

def threeStored : Transaction :=
  ((Db.create smallFiles).begin.calls smallFiles (Db.create smallFiles).store threeCalls).get
    (by decide +kernel)

theorem calls_threeStored : (Db.create smallFiles).begin.calls smallFiles
    (Db.create smallFiles).store threeCalls = some threeStored := (Option.some_get _).symm

theorem length_of_threeCalls (hash : Hash) (bytes : Bytes)
    (h : .storeBlock hash bytes ∈ threeCalls) : bytes.length + 12 < 2 ^ 32 := by
  simp only [threeCalls, mem_cons, Transaction.Call.storeBlock.injEq, not_mem_nil, or_false] at h
  rcases h with ⟨-, rfl⟩ | ⟨-, rfl⟩ | ⟨-, rfl⟩ <;> decide

def threeBlocks (needsFlush : Bool) : Db :=
  (writePendingAndCommit smallFiles .none needsFlush (Db.create smallFiles) threeStored).2

/-- The third block's write stops in the middle of the block length: the two that were written
are taken back. -/
theorem commit_failed_torn :
    let fault : CommitFault :=
      ⟨fun _ => false, fun i => if i = 2 then some (.data 1 3) else none, ⟨fun _ => false, false, false⟩⟩
    let r := writePendingAndCommit smallFiles fault false (Db.create smallFiles) threeStored
    r.1 = .error (.err .driverSpecific) ∧ (Db.create smallFiles).SameBlocks smallFiles r.2 := by
  intro fault r
  have herr : r.1 = .error (.err .driverSpecific) := by decide
  refine ⟨herr, (commit_failed_iff (Db.valid_create smallFiles) calls_threeStored length_of_threeCalls
    (by decide) (Prod.ext herr rfl)).mpr ?_⟩
  intro hash row loc hrow
  rw [get_create_blockIdxKey] at hrow
  cases hrow

/-- Pruned twice in one transaction. -/
def prunedTwice : Transaction :=
  ((threeBlocks false).begin.calls smallFiles (threeBlocks false).store
    [.pruneBlocks 20, .pruneBlocks 20]).get (by decide +kernel)

/-- Nothing goes wrong on disk, and still the second deletion of the same file fails: the first
block is listed as before and cannot be read any more. -/
theorem commit_pruned_twice :
    let db := threeBlocks false
    let r := writePendingAndCommit smallFiles .none false db prunedTwice
    r.1 = .error (.err .driverSpecific) ∧
    db.begin.fetchBlock smallFiles db.store (hashOf 1) = .ok [1] ∧
    r.2.begin.hasBlock (hashOf 1) = true ∧
    r.2.begin.fetchBlock smallFiles r.2.store (hashOf 1) = .error (.err .driverSpecific) ∧
    ¬ db.SameBlocks smallFiles r.2 := by
  intro db r
  have hbefore : db.begin.fetchBlock smallFiles db.store (hashOf 1) = .ok [1] := by decide +kernel
  have hafter : r.2.begin.fetchBlock smallFiles r.2.store (hashOf 1) = .error (.err .driverSpecific) := by
    decide +kernel
  refine ⟨by decide, hbefore, by decide, hafter, fun hsame => ?_⟩
  have := (hsame (hashOf 1)).2
  rw [hbefore, hafter] at this
  cases this

/-! ## A commit that succeeds -/

section Succeeded

/-- The database after a commit is what the transaction saw. -/
theorem DbCache.get_commitTx (c : DbCache) (tx : Pending) (needsFlush : Bool) (k : Bytes) :
    (c.commitTx tx needsFlush).content.get k =
      (⟨commitTreaps c.ldb c.cached, tx⟩ : DbCacheSnapshot).get k := by
  cases needsFlush with
  | false => exact get_mergePending c.ldb c.cached tx k
  | true =>
    exact (WriterState.get_of_silent _ (WriterState.silent_empty k)).trans
      (get?_commitTreaps (commitTreaps c.ldb c.cached) tx k)

theorem DbCache.disjoint_commitTx {c : DbCache} (hc : c.cached.Disjoint) (tx : Pending) (needsFlush : Bool) :
    (c.commitTx tx needsFlush).cached.Disjoint := by
  cases needsFlush with
  | false => exact hc.mergePending tx
  | true => exact Pending.disjoint_empty

/-- A commit applies what is pending to the database, by way of the cache or not, and leaves the cached
treaps disjoint. -/
theorem DbCache.commitTx_applies (c : DbCache) (hc : c.cached.Disjoint) (tx : Pending) (htx : tx.Disjoint)
    (needsFlush : Bool) :
    (∀ k, (∀ v, tx.keys.get? k = some v → (c.commitTx tx needsFlush).content.get k = some v) ∧
      (tx.remove.has k = true → (c.commitTx tx needsFlush).content.get k = none) ∧
      (tx.keys.has k = false → tx.remove.has k = false → (c.commitTx tx needsFlush).content.get k = c.content.get k) ∧
      (c.commitTx tx needsFlush).content.has k = ((c.commitTx tx needsFlush).content.get k).isSome) ∧
    (c.commitTx tx needsFlush).cached.Disjoint := by
  refine ⟨fun k => ⟨?_, ?_, ?_, DbCacheSnapshot.has_eq _ k⟩, disjoint_commitTx hc tx needsFlush⟩
  · intro v hv
    have hremove := htx k (by simp [SortedMap.has, hv])
    rw [get_commitTx, DbCacheSnapshot.get, if_neg (by simp [hremove]), hv]
    rfl
  · intro hremove
    rw [get_commitTx, DbCacheSnapshot.get, if_pos hremove]
  · intro hkeys hremove
    rw [get_commitTx, DbCacheSnapshot.get, if_neg (by simp [hremove]), get?_eq_none_of_has hkeys,
      Option.none_or, get?_commitTreaps]
    rfl

/-- A key that is cached to be removed is put again, with a flush and without. -/
theorem DbCache.commitTx_applies_put :
    let c : DbCache := ⟨.insert .empty [1] [10], ⟨.insert .empty [2] [20], .insert .empty [1] ()⟩⟩
    let tx : Pending := ⟨.insert .empty [1] [11], .insert .empty [2] ()⟩
    ∀ needsFlush, (c.commitTx tx needsFlush).content.get [1] = some [11] ∧
      (c.commitTx tx needsFlush).content.get [2] = none ∧ (c.commitTx tx needsFlush).cached.Disjoint := by
  intro c tx needsFlush
  have hdisjoint : ∀ {k l v : Bytes}, k ≠ l → (⟨.insert .empty k v, .insert .empty l ()⟩ : Pending).Disjoint := by
    intro k l v hne x hx
    simp only [SortedMap.has, get?_insert, get?_empty] at hx ⊢
    by_cases hxk : x = k
    · simp [hxk, hne]
    · simp [hxk] at hx
  obtain ⟨happlied, hcached⟩ := commitTx_applies c (hdisjoint (by decide)) tx (hdisjoint (by decide)) needsFlush
  exact ⟨(happlied [1]).1 [11] (by decide), (happlied [2]).2.1 (by decide), hcached⟩

theorem Transaction.get_commitTx {c : DbCache} (h : tx.snapshot = c.content) (needsFlush : Bool) (k : Bytes) :
    (c.commitTx tx.pending needsFlush).content.get k = tx.fetchKey k := by
  rw [DbCache.get_commitTx]
  simp only [DbCacheSnapshot.get, get?_commitTreaps, fetchKey, h, DbCache.content]

/-- What the index says of a block after the pending ones have been written: their record, or what
it said before. -/
def Indexed (cfg : StoreConfig) (blocks : List (Hash × Bytes)) (tx tx' : Transaction)
    (s : BlockStore) (hash : Hash) : Prop :=
  (hash ∉ blocks.map Prod.fst ∧ tx'.fetchKey (blockIdxKey hash) = tx.fetchKey (blockIdxKey hash)) ∨
    ∃ rawBlock loc, (hash, rawBlock) ∈ blocks ∧
      tx'.fetchKey (blockIdxKey hash) = some (serializeBlockLoc loc) ∧
      BlockStore.Holds cfg s.files loc rawBlock ∧ loc.Before s.curFileNum s.curOffset

variable {fault : Nat → Option BlockStore.WriteFault}

theorem indexed_of_writeBlocks (hash : Hash) :
    ∀ {blocks} {i} {s s' : BlockStore} {tx tx'},
    s.CursorOk → s.curFileNum.toNat + blocks.length < 2 ^ 32 →
    (∀ b ∈ blocks, b.2.length + 12 < 2 ^ 32) →
    writeBlocks cfg fault i blocks s tx = (.ok tx', s') → Indexed cfg blocks tx tx' s' hash
  | [], _, s, s', tx, tx', _, _, _, h => by
    cases h
    exact .inl ⟨by simp, rfl⟩
  | (hash₁, bytes) :: blocks, i, s, s', tx, tx', hs, hroom, hsize, h => by
    rw [length_cons] at hroom
    have hlen := hsize (hash₁, bytes) mem_cons_self
    have hsize' : ∀ b ∈ blocks, b.2.length + 12 < 2 ^ 32 := fun b hb =>
      hsize b (mem_cons_of_mem _ hb)
    have hext := BlockStore.extends_writeBlock cfg hs (by unfold BlockStore.Room; omega) hlen (fault i)
    have hnum := BlockStore.curFileNum_writeBlock_le cfg hs hlen (fault i)
    rcases BlockStore.writeBlock_cases cfg hs hlen (fault i) with hw | ⟨-, t, -, hw⟩
    · rw [hw] at hext hnum
      simp only [writeBlocks, hw] at h
      simp only at hext hnum
      have hrest := extends_writeBlocks cfg fault blocks (i + 1) (s.appended cfg bytes)
        (tx.putKey (blockIdxKey hash₁) (serializeBlockLoc (s.appendedAt cfg bytes)))
        hext.cursorOk (by omega) hsize'
      rw [h] at hrest
      rcases indexed_of_writeBlocks hash hext.cursorOk (by omega) hsize' h with
        ⟨hnot, hsame⟩ | ⟨rawBlock, loc, hmem, hnew⟩
      · rw [Transaction.fetchKey_putKey] at hsame
        by_cases heq : hash = hash₁
        · subst heq
          obtain ⟨hold, hbefore⟩ := BlockStore.holds_appended cfg hs hlen
          refine .inr ⟨bytes, s.appendedAt cfg bytes, mem_cons_self, by simpa using hsame,
            hold.congr hrest.agree hbefore, hbefore.mono hrest.cursorLe⟩
        · rw [if_neg fun h => heq (blockIdxKey_injective h)] at hsame
          exact .inl ⟨by simp [heq, hnot], hsame⟩
      · exact .inr ⟨rawBlock, loc, mem_cons_of_mem _ hmem, hnew⟩
    · simp only [writeBlocks, hw] at h
      cases h

theorem snapshot_writeBlocks : ∀ {blocks} {i} {s s'} {tx tx'},
    writeBlocks cfg fault i blocks s tx = (.ok tx', s') → tx'.snapshot = tx.snapshot
  | [], _, _, _, _, _, h => by
    cases h
    rfl
  | (hash, bytes) :: blocks, i, s, _, tx, _, h => by
    unfold writeBlocks at h
    generalize s.writeBlock cfg bytes (fault i) = r at h
    match r with
    | (.error e, s₁) => cases h
    | (.ok loc, s₁) =>
      show _ = (tx.putKey (blockIdxKey hash) (serializeBlockLoc loc)).snapshot
      exact snapshot_writeBlocks h

/-- A commit that succeeds has deleted what was pruned and written what was pending. -/
theorem commit_succeeded {fault : CommitFault} {needsFlush : Bool} {db' : Db}
    (h : writePendingAndCommit cfg fault needsFlush db tx = (.ok (), db')) :
    BlockStore.removed fault.delete tx.pendingDelFileNums db.store.files = tx.pendingDelFileNums ∧
    ∃ tx', writeBlocks cfg fault.write 0 tx.pendingBlockData (prunedStore fault db tx) tx =
        (.ok tx', db'.store) ∧
      db'.cache = db.cache.commitTx (tx'.putKey writeLocKey
        (serializeWriteRow cfg db'.store.curFileNum db'.store.curOffset)).pending needsFlush := by
  have hall := BlockStore.removed_of_deleteFiles fault.delete tx.pendingDelFileNums db.store.files
  unfold writePendingAndCommit at h
  unfold prunedStore
  generalize BlockStore.deleteFiles fault.delete tx.pendingDelFileNums db.store.files = r at *
  match r with
  | (false, files) => cases h
  | (true, files) =>
    simp only at h ⊢
    generalize writeBlocks cfg fault.write 0 tx.pendingBlockData { db.store with files := files } tx =
      w at *
    match w with
    | (.error e, s) => cases h
    | (.ok tx', s) =>
      cases h
      exact ⟨hall rfl, tx', rfl, rfl⟩

end Succeeded
end NogoCommons.Ffldb
