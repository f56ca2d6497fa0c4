import NogoCommons.Ffldb.Commit

/-!
# `database/ffldb/reconcile.go` — after a crash

The block files change when a transaction is committed, the metadata in leveldb when the cache is
flushed. After a crash the metadata are those of the last flush and the files are newer, and
`reconcileDB` cuts the files back to the write cursor the metadata have.

What has been appended since the flush is undone that way. What has been deleted since is not: a
file that was pruned is gone, and the rows of its blocks are back. The blocks the recovered
database lists can all be read exactly if none of them was in such a file
(`reconcile_recovers_iff`); `reconcileDB` itself does not notice (`reconcile_after_prune`).

A crash may come between two transactions or anywhere in a commit (`Crash`).
-/

namespace NogoCommons.Ffldb
open Lib List

/-! ## `reconcileDB` -/

def deserializeWriteRow (cfg : StoreConfig) (row : Bytes) : DbResult (UInt32 × UInt32) :=
  if row.length < 12 then .error (.panic .sliceBounds)
  else if cfg.checksum (row.take 8) ≠ uint32LE (region row 8 4) then .error (.err .corruption)
  else .ok (uint32LE (row.take 4), uint32LE (region row 4 4))

theorem deserializeWriteRow_serialize (cfg : StoreConfig) (num off : UInt32) :
    deserializeWriteRow cfg (serializeWriteRow cfg num off) = .ok (num, off) := by
  have h8 : (putUint32LE num ++ putUint32LE off).length = 8 := by simp
  have hrow : (serializeWriteRow cfg num off).take 8 = putUint32LE num ++ putUint32LE off :=
    take_left' h8
  have hsum : (serializeWriteRow cfg num off).drop 8 =
      putUint32LE (cfg.checksum (putUint32LE num ++ putUint32LE off)) := drop_left' h8
  unfold deserializeWriteRow
  rw [if_neg (by simp [serializeWriteRow]), hrow, region, hsum,
    take_of_length_le (by simp), uint32LE_putUint32LE, if_neg (by simp)]
  simp [serializeWriteRow, region, uint32LE_putUint32LE]

/-- `reconcileDB` on an existing database, opened on the files and on leveldb as they are. -/
def reconcileDB (cfg : StoreConfig) (fault : BlockStore.RollbackFault) (files : Files)
    (ldb : SortedMap Bytes Bytes) : DbResult Db :=
  let pdb : Db := ⟨BlockStore.newBlockStore files, ⟨ldb, .empty⟩⟩
  match pdb.begin.fetchKey writeLocKey with
  | none => .error (.err .corruption)
  | some writeRow => do
    let (curFileNum, curOffset) ← deserializeWriteRow cfg writeRow
    let wc := pdb.store
    let store :=
      if wc.curFileNum > curFileNum ∨ (wc.curFileNum = curFileNum ∧ wc.curOffset > curOffset) then
        wc.handleRollback curFileNum curOffset fault
      else wc
    if store.curFileNum < curFileNum ∨
        (store.curFileNum = curFileNum ∧ store.curOffset < curOffset) then
      throw (.err .corruption)
    return { pdb with store := store }

/-! ## Transactions of blocks -/

/-- A call that leaves the block index and the write cursor to the database, with a block whose
record has a length in 32 bits. -/
def Transaction.Call.Ordinary : Transaction.Call → Prop
  | .storeBlock _ bytes => bytes.length + 12 < 2 ^ 32
  | .put key _ => key ≠ writeLocKey ∧ ∀ hash, key ≠ blockIdxKey hash
  | .delete key => key ≠ writeLocKey ∧ ∀ hash, key ≠ blockIdxKey hash
  | .pruneBlocks _ => True

/-- The rows a transaction still sees are the database's, and of files it does not delete. -/
structure Transaction.Tidy (db : Db) (tx : Transaction) : Prop where
  snapshot : tx.snapshot = db.cache.content
  rows : ∀ hash row, tx.fetchKey (blockIdxKey hash) = some row →
    db.cache.content.get (blockIdxKey hash) = some row ∧
    ∀ loc, deserializeBlockLoc row = .ok loc → loc.blockFileNum ∉ tx.pendingDelFileNums
  sized : ∀ b ∈ tx.pendingBlockData, b.2.length + 12 < 2 ^ 32

variable {cfg : StoreConfig} {db : Db} {tx : Transaction} {stored : List (Hash × Bytes)}
namespace Transaction
variable {tx' : Transaction} {c : Call} {cs : List Call}

theorem tidy_begin (db : Db) : Tidy db db.begin :=
  ⟨rfl, fun _ _ h => ⟨h, fun _ _ => by simp [Db.begin]⟩, by simp [Db.begin]⟩

theorem mem_blockRows {hash : Hash} {row : Bytes} (h : tx.fetchKey (blockIdxKey hash) = some row) :
    (blockIdxKey hash, row) ∈ tx.blockRows := by
  rw [← get?_view, SortedMap.get?_eq_some] at h
  exact mem_filter.mpr ⟨h, by simp [blockIdxKey, bucketizedKey]⟩

theorem Tidy.call (h : Tidy db tx) (hord : c.Ordinary) (hc : tx.call cfg db.store c = some tx') : Tidy db tx' := by
  rcases call_cases hc with rfl | ⟨hash, bytes, rfl, -, rfl⟩ | ⟨key, value, rfl, rfl⟩ | ⟨key, rfl, rfl⟩ |
    ⟨_, nums, rfl, -, hpruned⟩
  · exact h
  · refine ⟨h.snapshot, h.rows, fun b hb => ?_⟩
    rcases mem_append.mp hb with hb | hb
    · exact h.sized b hb
    · obtain rfl : b = (hash, bytes) := by simpa using hb
      exact hord
  · refine ⟨h.snapshot, fun hash row hrow => ?_, h.sized⟩
    rw [fetchKey_putKey, if_neg (hord.2 hash).symm] at hrow
    exact h.rows hash row hrow
  · refine ⟨h.snapshot, fun hash row hrow => ?_, h.sized⟩
    rw [fetchKey_deleteKey, if_neg (hord.2 hash).symm] at hrow
    exact h.rows hash row hrow
  · refine ⟨hpruned.snapshot.trans h.snapshot, fun hash row hrow => ?_, hpruned.blocks ▸ h.sized⟩
    rcases hpruned.kept (blockIdxKey hash) with hsame | ⟨-, hnone⟩
    · have hold : tx.fetchKey (blockIdxKey hash) = some row := hsame.symm.trans hrow
      refine ⟨(h.rows hash row hold).1, fun loc hloc hmem => ?_⟩
      rw [hpruned.files] at hmem
      rcases mem_append.mp hmem with hmem | hmem
      · exact (h.rows hash row hold).2 loc hloc hmem
      · -- The prune has deleted the row of such a file.
        have hgone := hpruned.gone _ row loc (mem_blockRows hold) hloc hmem
        rw [hgone] at hrow
        cases hrow
    · rw [hnone] at hrow
      cases hrow

theorem tidy_of_calls (h : db.begin.calls cfg db.store cs = some tx) (hord : ∀ c ∈ cs, c.Ordinary) : Tidy db tx :=
  runSchedule_invariant (fun _ _ _ hI hc hnext => hI.call hc hnext) hord (tidy_begin db) h

end Transaction

/-! ## The database between two commits -/

/-- Every row is that of a block that was stored, and its record is there; the metadata know the
cursor. -/
structure Db.Sound (cfg : StoreConfig) (stored : List (Hash × Bytes)) (db : Db) : Prop where
  valid : db.Valid
  cursor : db.cache.content.get writeLocKey =
    some (serializeWriteRow cfg db.store.curFileNum db.store.curOffset)
  rows : ∀ hash row, db.cache.content.get (blockIdxKey hash) = some row →
    ∃ loc rawBlock, row = serializeBlockLoc loc ∧ (hash, rawBlock) ∈ stored ∧
      BlockStore.Holds cfg db.store.files loc rawBlock

theorem Db.sound_create (cfg : StoreConfig) : (Db.create cfg).Sound cfg [] where
  valid := Db.valid_create cfg
  cursor := by
    have hcbid : writeLocKey ≠ curBucketIDKeyName := by decide
    have hidx : writeLocKey ≠ bucketIndexKey metadataBucketID blockIdxBucketName := by decide
    rw [get_create, initDB, SortedMap.get?_insert, if_neg hcbid, SortedMap.get?_insert, if_neg hidx,
      SortedMap.get?_insert, if_pos rfl]
    rfl
  rows hash row hrow := by
    rw [get_create_blockIdxKey] at hrow
    cases hrow

section Commit
variable {fault : CommitFault} {needsFlush : Bool} {db' : Db} {cs : List Transaction.Call}

/-- A commit keeps the database sound. -/
theorem Db.Sound.commit (hdb : db.Sound cfg stored)
    (hcalls : db.begin.calls cfg db.store cs = some tx) (hord : ∀ c ∈ cs, c.Ordinary)
    (hroom : db.store.curFileNum.toNat + tx.pendingBlockData.length < 10 ^ 9)
    (h : writePendingAndCommit cfg fault needsFlush db tx = (.ok (), db')) :
    db'.Sound cfg (stored ++ tx.pendingBlockData) := by
  have htidy := Transaction.tidy_of_calls hcalls hord
  have hlt := Transaction.pruned_lt hdb.valid hcalls
  obtain ⟨hall, tx', hwrite, hcache⟩ := commit_succeeded h
  have hok : (prunedStore fault db tx).CursorOk := cursorOk_prunedStore hdb.valid hlt
  have hext := extends_writeBlocks cfg fault.write tx.pendingBlockData 0 (prunedStore fault db tx) tx
    hok (by show db.store.curFileNum.toNat + _ < _; omega) htidy.sized
  rw [hwrite] at hext
  simp only at hext
  have hsnap : (tx'.putKey writeLocKey (serializeWriteRow cfg db'.store.curFileNum
      db'.store.curOffset)).snapshot = db.cache.content :=
    (snapshot_writeBlocks hwrite).trans htidy.snapshot
  have hget : ∀ k, db'.cache.content.get k = (tx'.putKey writeLocKey
      (serializeWriteRow cfg db'.store.curFileNum db'.store.curOffset)).fetchKey k := by
    intro k
    rw [hcache]
    exact Transaction.get_commitTx hsnap needsFlush k
  -- The row of a block after the commit: its record is there and before the cursor.
  have hrows : ∀ hash row, db'.cache.content.get (blockIdxKey hash) = some row →
      ∃ loc rawBlock, row = serializeBlockLoc loc ∧ (hash, rawBlock) ∈ stored ++ tx.pendingBlockData ∧
        BlockStore.Holds cfg db'.store.files loc rawBlock ∧
        loc.Before db'.store.curFileNum db'.store.curOffset := by
    intro hash row hrow
    rw [hget, Transaction.fetchKey_putKey, if_neg (blockIdxKey_ne_writeLocKey hash)] at hrow
    rcases indexed_of_writeBlocks hash hok (by show db.store.curFileNum.toNat + _ < _; omega)
      htidy.sized hwrite with ⟨-, hsame⟩ | ⟨rawBlock, loc, hmem, hnew, hold, hbefore⟩
    · obtain ⟨hrow', hkept⟩ := htidy.rows hash row (hsame.symm.trans hrow)
      obtain ⟨loc, rawBlock, rfl, hmem, hold⟩ := hdb.rows hash row hrow'
      have hloc := deserializeBlockLoc_serialize loc
      have hbefore := hdb.valid.before hash _ loc hrow' hloc
      have hfile : (prunedStore fault db tx).files.get? loc.blockFileNum =
          db.store.files.get? loc.blockFileNum := by
        rw [get?_prunedStore, hall, if_neg (hkept loc hloc)]
      have hold' : BlockStore.Holds cfg (prunedStore fault db tx).files loc rawBlock :=
        ⟨hold.blockLen, hold.fits, hfile ▸ hold.file⟩
      exact ⟨loc, rawBlock, rfl, mem_append_left _ hmem, hold'.congr hext.agree hbefore, hbefore.mono hext.cursorLe⟩
    · cases hnew.symm.trans hrow
      exact ⟨loc, rawBlock, rfl, mem_append_right _ hmem, hold, hbefore⟩
  refine ⟨⟨hext.cursorOk, fun n hn => ?_, fun hash row loc hrow hloc => ?_⟩, ?_, fun hash row hrow => ?_⟩
  · rcases hext.newest n hn with hn | hle
    · have hhas : db.store.files.has n = true := by
        rw [SortedMap.has, get?_prunedStore] at hn
        split_ifs at hn
        · cases hn
        · exact hn
      exact (hdb.valid.last n hhas).trans hext.cursorLe.curFileNum_le
    · exact hle
  · obtain ⟨loc', rawBlock, rfl, -, -, hbefore⟩ := hrows hash row hrow
    cases (deserializeBlockLoc_serialize loc').symm.trans hloc
    exact hbefore
  · rw [hget, Transaction.fetchKey_putKey, if_pos rfl]
  · obtain ⟨loc, rawBlock, rfl, hmem, hold, -⟩ := hrows hash row hrow
    exact ⟨loc, rawBlock, rfl, hmem, hold⟩

end Commit

/-! ## Older metadata, newer files -/

/-- The metadata, with the cursor `num`, `off`, are some the store has moved on from: their cursor
is not after the store's, and a row's record is there unless its file is gone. -/
structure Recoverable (cfg : StoreConfig) (stored : List (Hash × Bytes)) (s : BlockStore)
    (ldb : SortedMap Bytes Bytes) (num off : UInt32) : Prop where
  cursor : ldb.get? writeLocKey = some (serializeWriteRow cfg num off)
  cursorLe : (⟨s.files, num, off⟩ : BlockStore).CursorLe s
  length : s.files.has num = true → off.toNat ≤ (s.files.contents num).length
  rows : ∀ hash row, ldb.get? (blockIdxKey hash) = some row →
    ∃ loc rawBlock, row = serializeBlockLoc loc ∧ loc.Before num off ∧ (hash, rawBlock) ∈ stored ∧
      (s.files.has loc.blockFileNum = true → BlockStore.Holds cfg s.files loc rawBlock)

section Recoverable
variable {s t : BlockStore} {ldb : SortedMap Bytes Bytes} {num off : UInt32}

/-- A flush makes the metadata those of the store itself. -/
theorem Db.Sound.recoverable (h : db.Sound cfg stored) :
    Recoverable cfg stored db.store (commitTreaps db.cache.ldb db.cache.cached)
      db.store.curFileNum db.store.curOffset where
  cursor := (get?_commitTreaps ..).trans h.cursor
  cursorLe := .inr ⟨rfl, le_rfl⟩
  length _ := h.valid.cursorOk
  rows hash row hrow := by
    rw [get?_commitTreaps] at hrow
    obtain ⟨loc, rawBlock, rfl, hmem, hold⟩ := h.rows hash row hrow
    exact ⟨loc, rawBlock, rfl, h.valid.before hash _ loc hrow (deserializeBlockLoc_serialize loc), hmem, fun _ => hold⟩

variable (h : Recoverable cfg stored s ldb num off)
include h

theorem Recoverable.more (more : List (Hash × Bytes)) : Recoverable cfg (stored ++ more) s ldb num off where
  cursor := h.cursor
  cursorLe := h.cursorLe
  length := h.length
  rows hash row hrow := by
    obtain ⟨loc, rawBlock, hser, hbefore, hmem, hold⟩ := h.rows hash row hrow
    exact ⟨loc, rawBlock, hser, hbefore, mem_append_left _ hmem, hold⟩

/-- Deleting files. -/
theorem Recoverable.of_deleted {files : Files} (hfiles : ∀ n, files.get? n = none ∨ files.get? n = s.files.get? n) :
    Recoverable cfg stored { s with files := files } ldb num off := by
  have hkept : ∀ n, files.has n = true → files.get? n = s.files.get? n := by
    intro n hn
    rcases hfiles n with hnone | hsame
    · rw [SortedMap.has, hnone] at hn
      cases hn
    · exact hsame
  have hhas : ∀ n, files.has n = true → s.files.has n = true := fun n hn => by
    rwa [SortedMap.has, ← hkept n hn]
  refine ⟨h.cursor, h.cursorLe, fun hn => ?_, fun hash row hrow => ?_⟩
  · show off.toNat ≤ (files.contents num).length
    rw [Files.contents, hkept num hn]
    exact h.length (hhas num hn)
  · obtain ⟨loc, rawBlock, hser, hbefore, hmem, hold⟩ := h.rows hash row hrow
    refine ⟨loc, rawBlock, hser, hbefore, hmem, fun hn => ?_⟩
    have hold' := hold (hhas _ hn)
    exact ⟨hold'.blockLen, hold'.fits, by rw [hkept _ hn]; exact hold'.file⟩

/-- Writing at the cursor. -/
theorem Recoverable.of_extends (hs : s.CursorOk) (hext : s.Extends t) : Recoverable cfg stored t ldb num off where
  cursor := h.cursor
  cursorLe := h.cursorLe.trans hext.cursorLe
  length hn := by
    have hlen := hext.agree.le_length
    rcases h.cursorLe with hlt | ⟨heq, hle⟩
    · have hsame : t.files.get? num = s.files.get? num := hext.agree.older num hlt
      rw [Files.contents, hsame]
      rw [SortedMap.has, hsame] at hn
      exact h.length hn
    · simp only at heq hle
      rw [heq]
      exact hle.trans hlen
  rows hash row hrow := by
    obtain ⟨loc, rawBlock, hser, hbefore, hmem, hold⟩ := h.rows hash row hrow
    have hbefore' : loc.Before s.curFileNum s.curOffset := hbefore.mono h.cursorLe
    refine ⟨loc, rawBlock, hser, hbefore, hmem, fun hn => (hold ?_).congr hext.agree hbefore'⟩
    rcases hbefore'.before with hlt | ⟨heq, hle⟩
    · rwa [SortedMap.has, hext.agree.older _ hlt] at hn
    · -- Something of the cursor's file is before the cursor, so the file is there.
      have hpos := hbefore'.nonempty
      rw [SortedMap.has, heq, Files.get?_eq_contents (lt_of_lt_of_le (by omega) hs)]
      rfl

end Recoverable

/-! ## Runs and crashes -/

/-- The databases that committed transactions lead to, and the blocks they stored. The file
numbers have nine digits, as their names have. -/
inductive Committed (cfg : StoreConfig) : Db → List (Hash × Bytes) → Prop
  | create : Committed cfg (Db.create cfg) []
  | commit {db db' : Db} {stored : List (Hash × Bytes)} {cs : List Transaction.Call}
      {tx : Transaction} {fault : CommitFault} {needsFlush : Bool} :
      Committed cfg db stored → db.begin.calls cfg db.store cs = some tx →
      (∀ c ∈ cs, c.Ordinary) →
      db.store.curFileNum.toNat + tx.pendingBlockData.length < 10 ^ 9 →
      writePendingAndCommit cfg fault needsFlush db tx = (.ok (), db') →
      Committed cfg db' (stored ++ tx.pendingBlockData)

/-- What is on disk if the process ends: between two transactions, or in the middle of a commit.
Where a commit stops is said by the fault that would stop it there. -/
inductive Crash (cfg : StoreConfig) (db : Db) : BlockStore → SortedMap Bytes Bytes → Prop
  | between : Crash cfg db db.store db.cache.ldb
  | deleting {cs : List Transaction.Call} {tx : Transaction} (fault : CommitFault) :
      db.begin.calls cfg db.store cs = some tx → (∀ c ∈ cs, c.Ordinary) →
      Crash cfg db (prunedStore fault db tx) db.cache.ldb
  | writing {cs : List Transaction.Call} {tx : Transaction} (fault : CommitFault) :
      db.begin.calls cfg db.store cs = some tx → (∀ c ∈ cs, c.Ordinary) →
      db.store.curFileNum.toNat + tx.pendingBlockData.length < 10 ^ 9 →
      (BlockStore.deleteFiles fault.delete tx.pendingDelFileNums db.store.files).1 = true →
      Crash cfg db (writeBlocks cfg fault.write 0 tx.pendingBlockData (prunedStore fault db tx) tx).2
        db.cache.ldb
  /-- The flush is through, the transaction itself is not yet in leveldb. -/
  | flushed {cs : List Transaction.Call} {tx tx' : Transaction} {s : BlockStore}
      (fault : CommitFault) :
      db.begin.calls cfg db.store cs = some tx → (∀ c ∈ cs, c.Ordinary) →
      db.store.curFileNum.toNat + tx.pendingBlockData.length < 10 ^ 9 →
      (BlockStore.deleteFiles fault.delete tx.pendingDelFileNums db.store.files).1 = true →
      writeBlocks cfg fault.write 0 tx.pendingBlockData (prunedStore fault db tx) tx = (.ok tx', s) →
      Crash cfg db s (commitTreaps db.cache.ldb db.cache.cached)

section Runs
variable {db' : Db} {s : BlockStore} {ldb : SortedMap Bytes Bytes} {num off : UInt32}

theorem Recoverable.prunedStore (h : Recoverable cfg stored db.store ldb num off)
    (fault : CommitFault) (tx : Transaction) :
    Recoverable cfg stored (prunedStore fault db tx) ldb num off :=
  h.of_deleted fun n => by
    have := get?_prunedStore fault db tx n
    split_ifs at this
    · exact .inl this
    · exact .inr this

/-- From any metadata the store has moved on from, a commit moves on further, to its end or to
where it stops. -/
theorem Recoverable.writeBlocks {cs : List Transaction.Call} (h : Recoverable cfg stored db.store ldb num off)
    (hdb : db.Valid) (fault : CommitFault) (hcalls : db.begin.calls cfg db.store cs = some tx)
    (hord : ∀ c ∈ cs, c.Ordinary) (hroom : db.store.curFileNum.toNat + tx.pendingBlockData.length < 10 ^ 9) :
    Recoverable cfg stored
      (writeBlocks cfg fault.write 0 tx.pendingBlockData (Ffldb.prunedStore fault db tx) tx).2
      ldb num off := by
  have hok : (Ffldb.prunedStore fault db tx).CursorOk :=
    cursorOk_prunedStore hdb (Transaction.pruned_lt hdb hcalls)
  refine (h.prunedStore fault tx).of_extends hok (extends_writeBlocks cfg fault.write _ _ _ _ hok ?_
    (Transaction.tidy_of_calls hcalls hord).sized)
  show db.store.curFileNum.toNat + _ < _
  omega

/-- After any run the database is sound, and leveldb has metadata to go back to. -/
theorem Committed.invariant (h : Committed cfg db stored) :
    db.Sound cfg stored ∧ ∃ num off, Recoverable cfg stored db.store db.cache.ldb num off := by
  induction h with
  | create =>
    have hsound := Db.sound_create cfg
    exact ⟨hsound, _, _, hsound.recoverable⟩
  | @commit db db' stored cs tx fault needsFlush _ hcalls hord hroom hcommit ih =>
    obtain ⟨hsound, num, off, hrec⟩ := ih
    have hsound' := hsound.commit hcalls hord hroom hcommit
    refine ⟨hsound', ?_⟩
    obtain ⟨-, tx', hwrite, hcache⟩ := commit_succeeded hcommit
    cases needsFlush with
    | true =>
      -- The treaps are empty, so that leveldb has everything.
      have hldb : commitTreaps db'.cache.ldb db'.cache.cached = db'.cache.ldb := by
        rw [hcache]
        rfl
      exact ⟨_, _, hldb ▸ hsound'.recoverable⟩
    | false =>
      have hmid := hrec.writeBlocks hsound.valid fault hcalls hord hroom
      rw [hwrite] at hmid
      have hldb : db'.cache.ldb = db.cache.ldb := by
        rw [hcache]
        rfl
      exact ⟨num, off, hldb ▸ hmid.more _⟩

/-- Wherever the process ends, leveldb has metadata to go back to. -/
theorem Crash.recoverable (hrun : Committed cfg db stored) (h : Crash cfg db s ldb) :
    ∃ num off, Recoverable cfg stored s ldb num off := by
  obtain ⟨hsound, num, off, hrec⟩ := hrun.invariant
  cases h with
  | between => exact ⟨num, off, hrec⟩
  | deleting fault _ _ => exact ⟨num, off, hrec.prunedStore fault _⟩
  | writing fault hcalls hord hroom _ =>
    exact ⟨num, off, hrec.writeBlocks hsound.valid fault hcalls hord hroom⟩
  | flushed fault hcalls hord hroom _ hwrite =>
    have hmid := hsound.recoverable.writeBlocks hsound.valid fault hcalls hord hroom
    rw [hwrite] at hmid
    exact ⟨_, _, hmid⟩

/-! ## Reopening -/

/-- Every block the database lists is one that was stored, and is read as it was stored. -/
def Db.Recovered (cfg : StoreConfig) (stored : List (Hash × Bytes)) (db : Db) : Prop :=
  ∀ hash, db.begin.hasBlock hash = true →
    ∃ rawBlock, (hash, rawBlock) ∈ stored ∧ db.begin.fetchBlock cfg db.store hash = .ok rawBlock

variable {fault : BlockStore.RollbackFault} {loc : BlockLocation}

/-- What `reconcileDB` makes of the files. -/
theorem reconcileDB_files {files : Files} (hcursor : ldb.get? writeLocKey = some (serializeWriteRow cfg num off))
    (h : reconcileDB cfg fault files ldb = .ok db') :
    db'.cache = ⟨ldb, .empty⟩ ∧ (db'.store.files = files ∨ ∃ wc : BlockStore, wc.files = files ∧ num ≤ wc.curFileNum ∧
        db'.store = wc.handleRollback num off fault) := by
  have hfiles : (BlockStore.newBlockStore files).files = files := by
    unfold BlockStore.newBlockStore
    split <;> rfl
  have hfetch : (⟨BlockStore.newBlockStore files, ⟨ldb, .empty⟩⟩ : Db).begin.fetchKey writeLocKey =
      some (serializeWriteRow cfg num off) :=
    (WriterState.get_of_silent ldb (WriterState.silent_empty _)).trans hcursor
  unfold reconcileDB at h
  simp only [hfetch, deserializeWriteRow_serialize, bind, Except.bind] at h
  split_ifs at h with hafter hcorrupt hcorrupt
  · cases h
    refine ⟨rfl, .inr ⟨_, hfiles, ?_, rfl⟩⟩
    rcases hafter with hlt | ⟨heq, -⟩
    · exact le_of_lt hlt
    · exact heq.ge
  · cases h
    exact ⟨rfl, .inl hfiles⟩

/-- A record before the metadata's cursor survives, if its file is there. -/
theorem Recoverable.holds_reopened {rawBlock : Bytes} (hrec : Recoverable cfg stored s ldb num off)
    (h : reconcileDB cfg fault s.files ldb = .ok db') (hbefore : loc.Before num off)
    (hold : BlockStore.Holds cfg s.files loc rawBlock) : BlockStore.Holds cfg db'.store.files loc rawBlock := by
  obtain ⟨-, hfiles | ⟨wc, hwc, hle, hstore⟩⟩ := reconcileDB_files hrec.cursor h
  · rwa [hfiles]
  · rw [hstore]
    rw [← hwc] at hold
    rcases hbefore.before with hlt | ⟨heq, -⟩
    · have hsame := (BlockStore.handleRollback_files hle off fault).1 _ hlt
      exact ⟨hold.blockLen, hold.fits, by rw [hsame]; exact hold.file⟩
    · have hhas : s.files.has num = true := by
        obtain ⟨f, hf, -⟩ := hold.file
        rw [SortedMap.has, ← heq, ← hwc, hf]
        rfl
      refine hold.congr (BlockStore.agreeBelow_handleRollback hle ?_ fault) hbefore
      rw [hwc]
      exact hrec.length hhas

/-- Zeros are not a record of a network that is not zero. -/
theorem readBlock_zeros (hnet : cfg.network ≠ 0) {k : Nat}
    (hfile : s.files.get? loc.blockFileNum = some (replicate k 0)) (rawBlock : Bytes) :
    s.readBlock cfg loc ≠ .ok rawBlock := by
  intro h
  obtain ⟨data, hread, hdata⟩ := BlockStore.network_of_readBlock h
  obtain ⟨m, rfl⟩ : ∃ m, data = replicate m 0 := by
    unfold BlockStore.readAt at hread
    simp only [hfile, region, drop_replicate, take_replicate] at hread
    split_ifs at hread
    · exact ⟨0, (Except.ok.inj hread).symm⟩
    · exact ⟨_, (Except.ok.inj hread).symm⟩
  rw [take_replicate, uint32LE, reverse_replicate, beNat_replicate_zero] at hdata
  exact hnet hdata.symm

/-- A record whose file is gone is not read, whatever the rollback has put in its place. -/
theorem Recoverable.not_read_reopened (hrec : Recoverable cfg stored s ldb num off) (hnet : cfg.network ≠ 0)
    (h : reconcileDB cfg fault s.files ldb = .ok db') (hbefore : loc.Before num off)
    (hgone : s.files.has loc.blockFileNum = false) (rawBlock : Bytes) : db'.store.readBlock cfg loc ≠ .ok rawBlock := by
  have hnone : s.files.get? loc.blockFileNum = none := SortedMap.get?_eq_none_of_has hgone
  have hmissing : db'.store.files.get? loc.blockFileNum = none →
      db'.store.readBlock cfg loc ≠ .ok rawBlock := fun hget => by
    rw [BlockStore.readBlock_of_missing hget]
    nofun
  obtain ⟨-, hfiles | ⟨wc, hwc, hle, hstore⟩⟩ := reconcileDB_files hrec.cursor h
  · exact hmissing (hfiles ▸ hnone)
  · obtain ⟨holder, hcur⟩ := BlockStore.handleRollback_files hle off fault
    rw [← hstore, hwc] at holder hcur
    rcases hbefore.before with hlt | ⟨heq, -⟩
    · exact hmissing ((holder _ hlt).trans hnone)
    · -- The rollback may have made the file anew, and filled it with zeros.
      have hempty : s.files.contents num = [] := by
        rw [Files.contents, ← heq, hnone]
        rfl
      rw [hempty, ← heq] at hcur
      rcases hcur with hcur | hcur | hcur
      · exact hmissing (hcur.trans hnone)
      · exact readBlock_zeros hnet (k := 0) hcur rawBlock
      · refine readBlock_zeros hnet (k := off.toNat) ?_ rawBlock
        simpa [truncate] using hcur

/-- **Recovery**: the blocks a reopened database lists are all read as they were stored exactly if
no file with one of them has been deleted since the metadata were written. -/
theorem reconcile_recovers_iff {fault : BlockStore.RollbackFault} (hnet : cfg.network ≠ 0)
    (hrun : Committed cfg db stored) (hcrash : Crash cfg db s ldb)
    (h : reconcileDB cfg fault s.files ldb = .ok db') :
    db'.Recovered cfg stored ↔ ∀ hash loc,
      ldb.get? (blockIdxKey hash) = some (serializeBlockLoc loc) →
      s.files.has loc.blockFileNum = true := by
  obtain ⟨num, off, hrec⟩ := hcrash.recoverable hrun
  obtain ⟨hcache, -⟩ := reconcileDB_files hrec.cursor h
  have hget : ∀ k, db'.cache.content.get k = ldb.get? k := fun k => by
    rw [hcache]
    exact WriterState.get_of_silent ldb (WriterState.silent_empty k)
  constructor
  · intro hrecovered hash loc hrow
    obtain ⟨loc', rawBlock, hser, hbefore, -, -⟩ := hrec.rows hash _ hrow
    have hloc : loc = loc' := by
      have := (deserializeBlockLoc_serialize loc).symm.trans
        (hser ▸ deserializeBlockLoc_serialize loc')
      exact Except.ok.inj this
    subst hloc
    by_contra hgone
    have hhas : db'.begin.hasBlock hash = true := by
      rw [Db.hasBlock_begin, hget, hrow]
      rfl
    obtain ⟨rawBlock', -, hfetch⟩ := hrecovered hash hhas
    rw [Db.fetchBlock_row ((hget _).trans hrow) (deserializeBlockLoc_serialize loc)] at hfetch
    exact hrec.not_read_reopened hnet h hbefore (by simpa using hgone) rawBlock' hfetch
  · intro hthere hash hhas
    rw [Db.hasBlock_begin, hget] at hhas
    obtain ⟨row, hrow⟩ := Option.isSome_iff_exists.mp hhas
    obtain ⟨loc, rawBlock, rfl, hbefore, hmem, hold⟩ := hrec.rows hash row hrow
    refine ⟨rawBlock, hmem, ?_⟩
    rw [Db.fetchBlock_row ((hget _).trans hrow) (deserializeBlockLoc_serialize loc)]
    exact (hrec.holds_reopened h hbefore (hold (hthere hash loc hrow))).readBlock

end Runs

/-! ## A prune that is not flushed -/

theorem committed_threeBlocks : Committed smallFiles (threeBlocks true) ([] ++ threeStored.pendingBlockData) := by
  refine .commit .create calls_threeStored (fun c hc => ?_) (by decide)
    (Prod.ext (by decide) rfl)
  simp only [threeCalls, mem_cons, not_mem_nil, or_false] at hc
  rcases hc with rfl | rfl | rfl <;> exact (by decide : 1 + 12 < 2 ^ 32)

/-- Three blocks, and nothing pruned: what is left after the crash is all of them. -/
theorem reconcile_recovers_three :
    let db := threeBlocks true
    ∃ db', reconcileDB smallFiles CommitFault.none.rollback db.store.files db.cache.ldb = .ok db' ∧
      db'.Recovered smallFiles ([] ++ threeStored.pendingBlockData) := by
  intro db
  have h := eq_ok_get (x := reconcileDB smallFiles CommitFault.none.rollback db.store.files
    db.cache.ldb) (by decide +kernel)
  refine ⟨_, h, (reconcile_recovers_iff (by decide) committed_threeBlocks .between h).mpr ?_⟩
  have hall : ∀ e ∈ db.cache.ldb.entries, (deserializeBlockLoc e.2).toOption.all
      (fun loc => db.store.files.has loc.blockFileNum) = true := by decide
  intro hash loc hrow
  have hloc := hall _ (SortedMap.get?_eq_some.mp hrow)
  rwa [deserializeBlockLoc_serialize] at hloc

/-- One call of `PruneBlocks`. -/
def prunedOnce : Transaction :=
  ((threeBlocks true).begin.calls smallFiles (threeBlocks true).store [.pruneBlocks 20]).get
    (by decide +kernel)

theorem calls_prunedOnce : (threeBlocks true).begin.calls smallFiles (threeBlocks true).store
    [.pruneBlocks 20] = some prunedOnce := (Option.some_get _).symm

/-- The blocks are in leveldb, the prune is in the cache. -/
def prunedUnflushed : Db :=
  (writePendingAndCommit smallFiles .none false (threeBlocks true) prunedOnce).2

theorem committed_prunedUnflushed : Committed smallFiles prunedUnflushed
    (([] ++ threeStored.pendingBlockData) ++ prunedOnce.pendingBlockData) := by
  refine .commit committed_threeBlocks calls_prunedOnce (fun c hc => ?_) (by decide)
    (Prod.ext (by decide) rfl)
  obtain rfl : c = .pruneBlocks 20 := by simpa using hc
  trivial

/-- What is opened after the crash. -/
def reopened : Db :=
  (reconcileDB smallFiles CommitFault.none.rollback prunedUnflushed.store.files
    prunedUnflushed.cache.ldb).toOption.get (by decide +kernel)

/-- The crash after the prune: the database is accepted, lists the first block and cannot read
it. -/
theorem reconcile_after_prune : ∃ stored, Committed smallFiles prunedUnflushed stored ∧
    Crash smallFiles prunedUnflushed prunedUnflushed.store prunedUnflushed.cache.ldb ∧
    reconcileDB smallFiles CommitFault.none.rollback prunedUnflushed.store.files
      prunedUnflushed.cache.ldb = .ok reopened ∧
    reopened.begin.hasBlock (hashOf 1) = true ∧
    reopened.begin.fetchBlock smallFiles reopened.store (hashOf 1) = .error (.err .driverSpecific) ∧
    ¬ reopened.Recovered smallFiles stored := by
  have hhas : reopened.begin.hasBlock (hashOf 1) = true := by decide +kernel
  have hfetch : reopened.begin.fetchBlock smallFiles reopened.store (hashOf 1) =
      .error (.err .driverSpecific) := by decide +kernel
  refine ⟨_, committed_prunedUnflushed, .between, eq_ok_get _, hhas, hfetch, fun hrec => ?_⟩
  obtain ⟨rawBlock, -, hread⟩ := hrec (hashOf 1) hhas
  rw [hfetch] at hread
  cases hread

end NogoCommons.Ffldb
