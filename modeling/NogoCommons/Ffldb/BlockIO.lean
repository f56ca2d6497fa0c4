import NogoCommons.Lib.FlatFile
import NogoCommons.Lib.Go

/-!
# `database/ffldb/blockio.go` — the block files

Blocks are appended to numbered flat files as records `network ‖ length ‖ block ‖ checksum`, and
a block is found again by its location: the file, the offset of the record and the length of the
*record*, twelve more than the block's. A write cursor says where the next record goes.

The file system is the map of the files. Open handles are left out: the store closes a file
before it deletes it, and no file is deleted under the write handle as long as the cursor is in
the last file (`pruned_lt` in `Ffldb.Commit`). Which of the file operations fail, and how much of
a failed write reached the file, comes from outside (`WriteFault`, `RollbackFault`).
-/

namespace NogoCommons.Ffldb
open Lib

/-! ## Errors -/

/-- The codes of `database.Error` that are returned. -/
inductive ErrorCode where
  | driverSpecific
  | corruption
  | bucketNotFound
  | bucketExists
  | bucketNameRequired
  | keyRequired
  | blockNotFound
  | blockExists
  | blockRegionInvalid
deriving DecidableEq, Repr

/-- A call that gives no result has returned an error or has panicked. -/
inductive Failure where
  | err (code : ErrorCode)
  /-- An error that is not a `database.Error`. -/
  | plain
  | panic (p : Panic)
deriving DecidableEq, Repr

abbrev DbResult (α : Type) := Except Failure α

variable {α : Type} {x : DbResult α}

theorem map_eq_ok {β : Type} {f : α → β} {b : β} (h : x.map f = .ok b) : ∃ a, x = .ok a ∧ f a = b := by
  cases x with
  | error e => cases h
  | ok a => exact ⟨a, rfl, Except.ok.inj h⟩

theorem map_eq_error {β : Type} {f : α → β} {e : Failure} (h : x.map f = .error e) : x = .error e := by
  cases x with
  | error e' => exact congrArg _ (Except.error.inj h)
  | ok a => cases h

theorem eq_ok_get (h : x.toOption.isSome) : x = .ok (x.toOption.get h) := by
  cases x with
  | error e => cases h
  | ok a => rfl

/-! ## Locations -/

/-- `blockLocation`. `blockLen` is the length of the whole record. -/
structure BlockLocation where
  blockFileNum : UInt32
  fileOffset : UInt32
  blockLen : UInt32
deriving DecidableEq, Repr

def serializeBlockLoc (loc : BlockLocation) : Bytes :=
  putUint32LE loc.blockFileNum ++ putUint32LE loc.fileOffset ++ putUint32LE loc.blockLen

/-- `deserializeBlockLoc`, which panics on fewer than `blockLocSize` bytes. -/
def deserializeBlockLoc (row : Bytes) : DbResult BlockLocation :=
  if row.length < 12 then .error (.panic .sliceBounds)
  else .ok ⟨uint32LE (row.take 4), uint32LE (region row 4 4), uint32LE (region row 8 4)⟩

theorem deserializeBlockLoc_serialize (loc : BlockLocation) :
    deserializeBlockLoc (serializeBlockLoc loc) = .ok loc := by
  have h8 : (putUint32LE loc.blockFileNum).drop 8 = [] := List.drop_eq_nil_of_le (by simp)
  unfold deserializeBlockLoc serializeBlockLoc region
  rw [if_neg (by simp)]
  simp [List.drop_append, h8, List.take_of_length_le, uint32LE_putUint32LE]

/-! ## The store -/

/-- One bit of the reflected Castagnoli CRC. -/
def crcStep (c : UInt32) : UInt32 := if c &&& 1 = 1 then (c >>> 1) ^^^ 0x82F63B78 else c >>> 1

/-- `crc32.Checksum(data, castagnoli)`. -/
def castagnoli (data : Bytes) : UInt32 :=
  ~~~ data.foldl (fun c b => (List.range 8).foldl (fun c _ => crcStep c) (c ^^^ b.toUInt32)) 0xFFFFFFFF

example : castagnoli [0x31, 0x32, 0x33, 0x34, 0x35, 0x36, 0x37, 0x38, 0x39] = 0xE3069283 := by
  decide +kernel

/-- What a store is opened with, and its checksum: `castagnoli`, of which no theorem asks
anything. -/
structure StoreConfig where
  network : UInt32
  maxBlockFileSize : UInt32
  checksum : Bytes → UInt32

/-- `blockStore`: the files on disk and the write cursor. -/
structure BlockStore where
  files : Files
  curFileNum : UInt32
  curOffset : UInt32

/-- The bytes of a block's record before its checksum. -/
def StoreConfig.framed (cfg : StoreConfig) (rawBlock : Bytes) : Bytes :=
  putUint32LE cfg.network ++ putUint32LE (UInt32.ofNat rawBlock.length) ++ rawBlock

/-- `hasher.Sum(nil)`, big-endian. -/
def StoreConfig.sum (cfg : StoreConfig) (data : Bytes) : Bytes :=
  beBytes 4 (cfg.checksum data).toNat

/-- `<network><block length><serialized block><checksum>`. -/
def StoreConfig.record (cfg : StoreConfig) (rawBlock : Bytes) : Bytes :=
  cfg.framed rawBlock ++ cfg.sum (cfg.framed rawBlock)

@[simp] theorem StoreConfig.length_framed (cfg : StoreConfig) (rawBlock : Bytes) :
    (cfg.framed rawBlock).length = rawBlock.length + 8 := by
  simp only [framed, List.length_append, putUint32LE_length]
  omega

@[simp] theorem StoreConfig.length_sum (cfg : StoreConfig) (data : Bytes) :
    (cfg.sum data).length = 4 := beBytes_length ..

@[simp] theorem StoreConfig.length_record (cfg : StoreConfig) (rawBlock : Bytes) :
    (cfg.record rawBlock).length = rawBlock.length + 12 := by
  simp [record]

namespace BlockStore
variable (cfg : StoreConfig) (s : BlockStore)

/-! ## Reading -/

/-- `ReadAt` on a block file: an error when the file does not exist or is too short. Nothing is
read for an empty buffer, so that the file's length does not matter then. -/
def readAt (fileNum : UInt32) (offset n : Nat) : DbResult Bytes :=
  match s.files.get? fileNum with
  | none => .error (.err .driverSpecific)
  | some f =>
    if n = 0 then .ok []
    else if offset + n ≤ f.length then .ok (region f offset n)
    else .error (.err .driverSpecific)

def readBlock (loc : BlockLocation) : DbResult Bytes := do
  let data ← s.readAt loc.blockFileNum loc.fileOffset.toNat loc.blockLen.toNat
  let n := data.length
  if n < 4 then throw (.panic .sliceBounds)
  if beNat (data.drop (n - 4)) ≠ (cfg.checksum (data.take (n - 4))).toNat then
    throw (.err .corruption)
  if uint32LE (data.take 4) ≠ cfg.network then throw (.err .driverSpecific)
  if n < 12 then throw (.panic .sliceBounds)
  return region data 8 (n - 12)

/-- `readBlockRegion`. The read offset is a sum of `uint32`s. -/
def readBlockRegion (loc : BlockLocation) (offset numBytes : UInt32) : DbResult Bytes :=
  s.readAt loc.blockFileNum (loc.fileOffset + 8 + offset).toNat numBytes.toNat

/-! ## Writing -/

/-- How a `writeBlock` fails. -/
inductive WriteFault where
  | openFile
  /-- The write of this field stops after this many bytes. -/
  | data (field written : Nat)

/-- `writeData`, for the bytes that reach the file. -/
def writeData (data : Bytes) : BlockStore :=
  { s with
    files := s.files.insert s.curFileNum
      (writeAt (s.files.contents s.curFileNum) s.curOffset.toNat data)
    curOffset := s.curOffset + UInt32.ofNat data.length }

/-- The fields of a record one after the other, up to the one whose write fails. -/
def writeFields : BlockStore → List Bytes → Option (Nat × Nat) → Bool × BlockStore
  | s, [], _ => (true, s)
  | s, data :: fields, none => writeFields (s.writeData data) fields none
  | s, data :: _, some (0, written) => (false, s.writeData (data.take written))
  | s, data :: fields, some (i + 1, written) =>
    writeFields (s.writeData data) fields (some (i, written))

/-- The cursor after the check of `writeBlock` whether the record fits into the current file. -/
def rollOver (fullLen : UInt32) : BlockStore :=
  let finalOffset := s.curOffset + fullLen
  if finalOffset < s.curOffset ∨ finalOffset > cfg.maxBlockFileSize then
    { s with curFileNum := s.curFileNum + 1, curOffset := 0 }
  else s

/-- The part of `writeBlock` after the file has been opened: the record at the cursor. -/
def writeRecord (rawBlock : Bytes) (failing : Option (Nat × Nat)) : DbResult BlockLocation × BlockStore :=
  let blockLen := UInt32.ofNat rawBlock.length
  match s.writeFields [putUint32LE cfg.network, putUint32LE blockLen, rawBlock,
      cfg.sum (cfg.framed rawBlock)] failing with
  | (true, s') => (.ok ⟨s.curFileNum, s.curOffset, blockLen + 12⟩, s')
  | (false, s') => (.error (.err .driverSpecific), s')

def writeBlock (rawBlock : Bytes) (fault : Option WriteFault) : DbResult BlockLocation × BlockStore :=
  let s := s.rollOver cfg (UInt32.ofNat rawBlock.length + 12)
  match fault with
  | some .openFile => (.error (.err .driverSpecific), s)
  | some (.data field written) => s.writeRecord cfg rawBlock (some (field, written))
  | none => s.writeRecord cfg rawBlock none

/-! ## Rolling back -/

def deleteFile (files : Files) (fileNum : UInt32) (fails : Bool) : DbResult Files :=
  if fails ∨ files.has fileNum = false then .error (.err .driverSpecific)
  else .ok (files.erase fileNum)

structure RollbackFault where
  deleteFails : UInt32 → Bool
  openFails : Bool
  truncateFails : Bool

/-- Files deleted one after the other; the first failure ends the loop. -/
def deleteFiles (fails : UInt32 → Bool) : List UInt32 → Files → Bool × Files
  | [], files => (true, files)
  | num :: nums, files =>
    match deleteFile files num (fails num) with
    | .error _ => (false, files)
    | .ok files => deleteFiles fails nums files

/-- The file numbers from `cur` down to the one after `old`. -/
def newerFiles (cur old : UInt32) : List UInt32 :=
  (List.range (cur.toNat - old.toNat)).map fun i => cur - UInt32.ofNat i

/-- `handleRollback`. The cursor is repositioned whatever fails. -/
def handleRollback (oldBlockFileNum oldBlockOffset : UInt32) (fault : RollbackFault) : BlockStore :=
  if s.curFileNum = oldBlockFileNum ∧ s.curOffset = oldBlockOffset then s
  else
    let (deleted, files) :=
      deleteFiles fault.deleteFails (newerFiles s.curFileNum oldBlockFileNum) s.files
    -- Where the loop leaves `wc.curFileNum`: nothing moves it forwards.
    let target := if oldBlockFileNum < s.curFileNum then oldBlockFileNum else s.curFileNum
    let files :=
      if !deleted || fault.openFails then files
      else
        let f := files.contents target
        files.insert target (if fault.truncateFails then f else truncate f oldBlockOffset.toNat)
    ⟨files, oldBlockFileNum, oldBlockOffset⟩

/-! ## Scanning -/

/-- `scanBlockFiles`: the first and the last file's number and the last one's length. -/
def scanBlockFiles (files : Files) : Option (UInt32 × UInt32 × UInt32) := do
  let first ← files.entries.head?
  let last ← files.entries.getLast?
  return (first.1, last.1, UInt32.ofNat last.2.length)

/-- `newBlockStore`: the cursor is where the last file ends. -/
def newBlockStore (files : Files) : BlockStore :=
  match scanBlockFiles files with
  | none => ⟨files, 0, 0⟩
  | some (_, last, lastFileLen) => ⟨files, last, lastFileLen⟩

end BlockStore
end NogoCommons.Ffldb
