import NogoCommons.Ffldb.BlockIO

/-!
# The block files over many writes

A record that is on disk is read back (`Holds.readBlock`). Whatever `writeBlock` does, it does at
the cursor or after it (`extends_writeBlock`), and a rollback to a cursor keeps what lies before
it (`agreeBelow_handleRollback`): both leave the records before the cursor as they are. What
removes a record is the deletion of its file, and nothing else (`get?_deleteFiles`).
-/

namespace NogoCommons.Ffldb
open Lib List SortedMap
variable {t : BlockStore} {loc : BlockLocation} {rawBlock : Bytes}
namespace BlockStore
variable (cfg : StoreConfig) (s : BlockStore)

/-! ## A record on disk -/

/-- The files hold the record of `rawBlock` at the location. -/
structure Holds (files : Files) (loc : BlockLocation) (rawBlock : Bytes) : Prop where
  blockLen : loc.blockLen.toNat = rawBlock.length + 12
  fits : loc.fileOffset.toNat + loc.blockLen.toNat < 2 ^ 32
  file : ∃ f, files.get? loc.blockFileNum = some f ∧
    loc.fileOffset.toNat + loc.blockLen.toNat ≤ f.length ∧
    region f loc.fileOffset.toNat loc.blockLen.toNat = cfg.record rawBlock

variable {cfg s} {n : Nat} {data : Bytes} {old : UInt32}

theorem Holds.readAt (h : Holds cfg s.files loc rawBlock) {i : Nat} (hn : n ≠ 0) (hin : i + n ≤ rawBlock.length + 12) :
    s.readAt loc.blockFileNum (loc.fileOffset.toNat + i) n = .ok (region (cfg.record rawBlock) i n) := by
  obtain ⟨f, hf, hle, hrec⟩ := h.file
  have hlen := h.blockLen
  unfold BlockStore.readAt
  rw [hf, ← hrec, region_region (by omega)]
  simp only [if_neg hn]
  rw [if_pos (by omega)]

/-- A record that is there is read back. -/
theorem Holds.readBlock (h : Holds cfg s.files loc rawBlock) : s.readBlock cfg loc = .ok rawBlock := by
  have hlen : (cfg.record rawBlock).length = rawBlock.length + 12 := cfg.length_record rawBlock
  have hall : region (cfg.record rawBlock) 0 (rawBlock.length + 12) = cfg.record rawBlock := by
    rw [region, drop_zero, take_of_length_le hlen.le]
  have hread := h.readAt (i := 0) (n := rawBlock.length + 12) (by omega) (by omega)
  rw [Nat.add_zero, hall, ← h.blockLen] at hread
  have hsplit : cfg.record rawBlock = cfg.framed rawBlock ++ cfg.sum (cfg.framed rawBlock) := rfl
  have hn : rawBlock.length + 12 - 4 = (cfg.framed rawBlock).length := by simp
  have hframed : (cfg.record rawBlock).take (rawBlock.length + 12 - 4) = cfg.framed rawBlock := by
    rw [hsplit, hn, take_left]
  have hsum : (cfg.record rawBlock).drop (rawBlock.length + 12 - 4) =
      cfg.sum (cfg.framed rawBlock) := by
    rw [hsplit, hn, drop_left]
  have hnet : (cfg.record rawBlock).take 4 = putUint32LE cfg.network := by
    rw [hsplit, StoreConfig.framed, append_assoc, append_assoc, append_assoc]
    exact take_left' (putUint32LE_length _)
  have hblock : region (cfg.record rawBlock) 8 (rawBlock.length + 12 - 12) = rawBlock := by
    have h8 : (putUint32LE cfg.network ++ putUint32LE (UInt32.ofNat rawBlock.length)).length = 8 := by
      simp
    rw [region, hsplit, StoreConfig.framed, append_assoc, drop_left' h8]
    simp
  have hcheck : beNat (cfg.sum (cfg.framed rawBlock)) = (cfg.checksum (cfg.framed rawBlock)).toNat :=
    beNat_beBytes_of_lt (by have := (cfg.checksum (cfg.framed rawBlock)).toNat_lt; norm_num at *; omega)
  unfold BlockStore.readBlock
  rw [hread]
  simp only [bind, Except.bind, pure, Except.pure, hlen]
  rw [if_neg (by omega), hframed, hsum, hnet, hblock, uint32LE_putUint32LE]
  simp [hcheck]

/-! ## What lies before the cursor -/

/-- The cursor does not point past the end of its file. -/
def CursorOk (s : BlockStore) : Prop :=
  s.curOffset.toNat ≤ (s.files.contents s.curFileNum).length

end BlockStore

/-- The record ends at or before the cursor. -/
structure BlockLocation.Before (loc : BlockLocation) (num off : UInt32) : Prop where
  nonempty : 0 < loc.blockLen.toNat
  before : loc.blockFileNum < num ∨
    loc.blockFileNum = num ∧ loc.fileOffset.toNat + loc.blockLen.toNat ≤ off.toNat

namespace BlockStore
variable {cfg : StoreConfig} {s : BlockStore} {num off : UInt32}

/-- A record before the cursor reads the same from files that agree below the cursor. -/
theorem readAt_congr (h : AgreeBelow num off.toNat s.files t.files)
    (hs : off.toNat ≤ (s.files.contents num).length) (hloc : loc.Before num off) :
    t.readAt loc.blockFileNum loc.fileOffset.toNat loc.blockLen.toNat =
      s.readAt loc.blockFileNum loc.fileOffset.toNat loc.blockLen.toNat := by
  have hpos := hloc.nonempty
  rcases hloc.before with hlt | ⟨rfl, hle⟩
  · simp only [readAt, h.older _ hlt]
  · -- The file is there on both sides: something of it is before the cursor.
    have ht := h.le_length
    have hne : loc.blockLen.toNat ≠ 0 := by omega
    simp only [readAt, Files.get?_eq_contents (lt_of_lt_of_le (by omega) hs),
      Files.get?_eq_contents (lt_of_lt_of_le (by omega) ht), if_neg hne, if_pos (hle.trans hs),
      if_pos (hle.trans ht), region_congr h.same hle]

theorem readBlock_congr_file (h : t.files.get? loc.blockFileNum = s.files.get? loc.blockFileNum) :
    t.readBlock cfg loc = s.readBlock cfg loc := by
  unfold readBlock readAt
  rw [h]

theorem readBlock_of_missing (h : s.files.get? loc.blockFileNum = none) :
    s.readBlock cfg loc = .error (.err .driverSpecific) := by
  unfold readBlock readAt
  rw [h]
  rfl

/-- What is read is of the store's network. -/
theorem network_of_readBlock (h : s.readBlock cfg loc = .ok rawBlock) :
    ∃ data, s.readAt loc.blockFileNum loc.fileOffset.toNat loc.blockLen.toNat = .ok data ∧
      uint32LE (data.take 4) = cfg.network := by
  unfold readBlock at h
  cases hread : s.readAt loc.blockFileNum loc.fileOffset.toNat loc.blockLen.toNat with
  | error e => rw [hread] at h; cases h
  | ok data =>
    rw [hread] at h
    simp only [bind, Except.bind] at h
    split_ifs at h with hshort hsum hnet
    · exact ⟨data, rfl, not_not.mp hnet⟩

theorem readBlock_congr (h : AgreeBelow num off.toNat s.files t.files)
    (hs : off.toNat ≤ (s.files.contents num).length) (hloc : loc.Before num off) :
    t.readBlock cfg loc = s.readBlock cfg loc := by
  unfold readBlock
  rw [readAt_congr h hs hloc]

theorem Holds.congr (hold : Holds cfg s.files loc rawBlock) (h : AgreeBelow num off.toNat s.files t.files)
    (hloc : loc.Before num off) :
    Holds cfg t.files loc rawBlock where
  blockLen := hold.blockLen
  fits := hold.fits
  file := by
    obtain ⟨f, hf, hle, hrec⟩ := hold.file
    rcases hloc.before with hlt | ⟨rfl, hend⟩
    · exact ⟨f, (h.older _ hlt).trans hf, hle, hrec⟩
    · have hcontents : s.files.contents loc.blockFileNum = f := by rw [Files.contents, hf]; rfl
      have ht := h.le_length
      have hpos := hloc.nonempty
      refine ⟨_, Files.get?_eq_contents (lt_of_lt_of_le (by omega) ht), hend.trans ht, ?_⟩
      rw [region_congr h.same hend, hcontents, hrec]

/-! ## What a write does -/

theorem curOffset_writeData (hfit : s.curOffset.toNat + data.length < 2 ^ 32) :
    (s.writeData data).curOffset.toNat = s.curOffset.toNat + data.length := by
  unfold writeData
  rw [UInt32.toNat_add, UInt32.toNat_ofNat', Nat.mod_eq_of_lt (a := data.length) (by omega)]
  exact Nat.mod_eq_of_lt hfit

theorem writeData_writeData (hs : s.CursorOk) {a b : Bytes} (hfit : s.curOffset.toNat + a.length < 2 ^ 32) :
    (s.writeData a).writeData b = s.writeData (a ++ b) := by
  have hoff : (s.curOffset + UInt32.ofNat a.length).toNat = s.curOffset.toNat + a.length :=
    curOffset_writeData hfit
  unfold writeData
  simp only [Files.contents_insert_self, hoff, writeAt_writeAt hs]
  congr 1
  · refine ext_get? fun n => ?_
    simp only [get?_insert]
    split_ifs <;> rfl
  · rw [length_append, UInt32.ofNat_add, UInt32.add_assoc]

theorem cursorOk_writeData (hs : s.CursorOk) (data : Bytes) : (s.writeData data).CursorOk := by
  unfold CursorOk writeData
  simp only [Files.contents_insert_self]
  refine le_trans ?_ (length_writeAt hs data)
  rw [UInt32.toNat_add, UInt32.toNat_ofNat']
  exact (Nat.mod_le ..).trans (Nat.add_le_add_left (Nat.mod_le ..) _)

theorem agreeBelow_writeData (hs : s.CursorOk) (data : Bytes) :
    AgreeBelow s.curFileNum s.curOffset.toNat s.files (s.writeData data).files :=
  .insert_self ((Nat.le_add_right ..).trans (length_writeAt hs data))
    (take_writeAt hs le_rfl data)

/-- The outcome is that of one write of all the fields, of which a failure leaves the beginning. -/
def OneWrite (s : BlockStore) (fields : List Bytes) (r : Bool × BlockStore) : Prop :=
  ∃ written, written <+: fields.flatten ∧ r.2 = s.writeData written ∧
    (r.1 = true → written = fields.flatten)

theorem OneWrite.cons (hs : s.CursorOk) {fields : List Bytes} {r : Bool × BlockStore}
    (hfit : s.curOffset.toNat + data.length < 2 ^ 32) (h : OneWrite (s.writeData data) fields r) :
    OneWrite s (data :: fields) r := by
  obtain ⟨written, hpre, hstore, hfull⟩ := h
  refine ⟨data ++ written, (prefix_append_right_inj data).mpr hpre, ?_, ?_⟩
  · rw [hstore, writeData_writeData hs hfit]
  · intro hok
    rw [hfull hok]
    rfl

theorem writeFields_oneWrite : ∀ fields data s
    (fault : Option (Nat × Nat)), s.CursorOk →
    s.curOffset.toNat + (data :: fields).flatten.length < 2 ^ 32 →
    OneWrite s (data :: fields) (s.writeFields (data :: fields) fault)
  | _, data, _, some (0, written), _, _ =>
    ⟨data.take written, ( take_prefix ..).trans (prefix_append ..), rfl, nofun⟩
  | [], data, _, none, _, _ => ⟨data, by simp, rfl, by simp⟩
  | [], data, _, some (_ + 1, _), _, _ => ⟨data, by simp, rfl, by simp⟩
  | next :: fields, data, s, none, hs, hfit => by
    rw [flatten_cons, length_append] at hfit
    have hlen : s.curOffset.toNat + data.length < 2 ^ 32 := by omega
    refine OneWrite.cons hs hlen (writeFields_oneWrite fields next _ none (cursorOk_writeData hs data) ?_)
    rw [curOffset_writeData hlen]
    omega
  | next :: fields, data, s, some (i + 1, n), hs, hfit => by
    rw [flatten_cons, length_append] at hfit
    have hlen : s.curOffset.toNat + data.length < 2 ^ 32 := by omega
    refine OneWrite.cons hs hlen
      (writeFields_oneWrite fields next _ (some (i, n)) (cursorOk_writeData hs data) ?_)
    rw [curOffset_writeData hlen]
    omega

theorem writeFields_none : ∀ fields (s : BlockStore), (s.writeFields fields none).1 = true
  | [], _ => rfl
  | _ :: fields, _ => writeFields_none fields _

/-- The length of a record does not wrap. -/
theorem toNat_fullLen (hn : n + 12 < 2 ^ 32) : (UInt32.ofNat n + 12).toNat = n + 12 := by
  rw [UInt32.toNat_add, UInt32.toNat_ofNat', Nat.mod_eq_of_lt (a := n) (by omega)]
  exact Nat.mod_eq_of_lt hn

/-- After the check the record fits, whichever file it goes into. -/
theorem rollOver_fits (cfg : StoreConfig) (s : BlockStore) (hn : n + 12 < 2 ^ 32) :
    (s.rollOver cfg (UInt32.ofNat n + 12)).curOffset.toNat + (n + 12) < 2 ^ 32 := by
  have hfull := toNat_fullLen hn
  unfold rollOver
  simp only
  split_ifs with h
  · simpa using hn
  · -- A sum that wraps is smaller than its terms.
    have hno : ¬ s.curOffset + (UInt32.ofNat n + 12) < s.curOffset := fun hlt => h (.inl hlt)
    rw [UInt32.lt_iff_toNat_lt, UInt32.toNat_add, hfull] at hno
    have hoff := s.curOffset.toNat_lt
    by_contra hover
    have hwrap : (s.curOffset.toNat + (n + 12)) % 2 ^ 32 = s.curOffset.toNat + (n + 12) - 2 ^ 32 := by
      rw [Nat.mod_eq_sub_mod (by omega), Nat.mod_eq_of_lt (by omega)]
    omega

theorem cursorOk_rollOver (cfg : StoreConfig) (hs : s.CursorOk) (fullLen : UInt32) :
    (s.rollOver cfg fullLen).CursorOk := by
  unfold rollOver
  simp only
  split_ifs
  · exact Nat.zero_le _
  · exact hs

/-! ## What `writeBlock` does -/

/-- The store with the record at the cursor. -/
def appended (cfg : StoreConfig) (s : BlockStore) (rawBlock : Bytes) : BlockStore :=
  (s.rollOver cfg (UInt32.ofNat rawBlock.length + 12)).writeData (cfg.record rawBlock)

/-- Where the record is. -/
def appendedAt (cfg : StoreConfig) (s : BlockStore) (rawBlock : Bytes) : BlockLocation :=
  let base := s.rollOver cfg (UInt32.ofNat rawBlock.length + 12)
  ⟨base.curFileNum, base.curOffset, UInt32.ofNat rawBlock.length + 12⟩

/-- A part of the record may be in the file. -/
def Torn (cfg : StoreConfig) (s : BlockStore) (rawBlock : Bytes) (t : BlockStore) : Prop :=
  let base := s.rollOver cfg (UInt32.ofNat rawBlock.length + 12)
  t = base ∨ ∃ data, data <+: cfg.record rawBlock ∧ t = base.writeData data

theorem writeRecord_cases (cfg : StoreConfig) (rawBlock : Bytes) (hs : s.CursorOk)
    (hfits : s.curOffset.toNat + (rawBlock.length + 12) < 2 ^ 32) (failing : Option (Nat × Nat)) :
    (s.writeRecord cfg rawBlock failing = (.ok ⟨s.curFileNum, s.curOffset, UInt32.ofNat rawBlock.length + 12⟩,
        s.writeData (cfg.record rawBlock))) ∨
    failing ≠ none ∧ ∃ data, data <+: cfg.record rawBlock ∧
      s.writeRecord cfg rawBlock failing = (.error (.err .driverSpecific), s.writeData data) := by
  have hrecord : [putUint32LE cfg.network, putUint32LE (UInt32.ofNat rawBlock.length), rawBlock,
      cfg.sum (cfg.framed rawBlock)].flatten = cfg.record rawBlock := by
    simp [StoreConfig.record, StoreConfig.framed]
  have hwrite := writeFields_oneWrite _ _ s failing hs
    (by rw [hrecord, cfg.length_record]; exact hfits)
  unfold writeRecord
  simp only
  generalize hr : s.writeFields _ failing = r at hwrite ⊢
  obtain ⟨ok, t⟩ := r
  obtain ⟨data, hpre, ht, hfull⟩ := hwrite
  rw [hrecord] at hpre hfull
  simp only at ht
  cases ok with
  | true =>
    left
    rw [ht, hfull rfl]
  | false =>
    refine .inr ⟨?_, data, hpre, by rw [ht]⟩
    rintro rfl
    exact absurd (writeFields_none _ s) (by rw [hr]; simp)

theorem writeBlock_cases (cfg : StoreConfig) (hs : s.CursorOk)
    (hlen : rawBlock.length + 12 < 2 ^ 32) (fault : Option WriteFault) :
    s.writeBlock cfg rawBlock fault = (.ok (s.appendedAt cfg rawBlock), s.appended cfg rawBlock) ∨
    fault ≠ none ∧ ∃ t, s.Torn cfg rawBlock t ∧
      s.writeBlock cfg rawBlock fault = (.error (.err .driverSpecific), t) := by
  have hrecord := writeRecord_cases cfg rawBlock
    (cursorOk_rollOver cfg hs (UInt32.ofNat rawBlock.length + 12)) (rollOver_fits cfg s hlen)
  match fault with
  | none =>
    rcases hrecord none with h | ⟨hne, -⟩
    · exact .inl h
    · exact absurd rfl hne
  | some .openFile => exact .inr ⟨nofun, _, .inl rfl, rfl⟩
  | some (.data field n) =>
    rcases hrecord (some (field, n)) with h | ⟨-, data, hpre, h⟩
    · exact .inl h
    · exact .inr ⟨nofun, _, .inr ⟨data, hpre, rfl⟩, h⟩

/-! ## The store grows at its cursor -/

/-- The number of the file after the current one is the next number. -/
def Room (s : BlockStore) : Prop := s.curFileNum.toNat + 1 < 2 ^ 32

/-- The cursor of the one store is not after that of the other. -/
def CursorLe (s t : BlockStore) : Prop :=
  s.curFileNum < t.curFileNum ∨
    s.curFileNum = t.curFileNum ∧ s.curOffset.toNat ≤ t.curOffset.toNat

/-- The second store is the first with something written at its cursor or after it. -/
structure Extends (s t : BlockStore) : Prop where
  cursorLe : s.CursorLe t
  cursorOk : t.CursorOk
  agree : AgreeBelow s.curFileNum s.curOffset.toNat s.files t.files
  newest : ∀ n, t.files.has n = true → s.files.has n = true ∨ n ≤ t.curFileNum

theorem CursorLe.trans {u : BlockStore} (h : s.CursorLe t) (h' : t.CursorLe u) : s.CursorLe u := by
  rcases h with hlt | ⟨heq, hle⟩
  · rcases h' with hlt' | ⟨heq', -⟩
    · exact .inl (hlt.trans hlt')
    · exact .inl (heq' ▸ hlt)
  · rcases h' with hlt' | ⟨heq', hle'⟩
    · exact .inl (heq ▸ hlt')
    · exact .inr ⟨heq.trans heq', hle.trans hle'⟩

theorem CursorLe.curFileNum_le (h : s.CursorLe t) : s.curFileNum ≤ t.curFileNum := by
  rcases h with hlt | ⟨heq, -⟩
  · exact hlt.le
  · exact heq.le

end BlockStore

theorem BlockLocation.Before.mono {s : BlockStore} (hloc : loc.Before s.curFileNum s.curOffset) (h : s.CursorLe t) :
    loc.Before t.curFileNum t.curOffset := by
  refine ⟨hloc.nonempty, ?_⟩
  rcases hloc.before with hlt | ⟨heq, hle⟩
  · exact .inl (hlt.trans_le h.curFileNum_le)
  · rcases h with hlt | ⟨heq', hle'⟩
    · exact .inl (heq ▸ hlt)
    · exact .inr ⟨heq.trans heq', hle.trans hle'⟩

namespace BlockStore
variable {cfg : StoreConfig} {s : BlockStore}

theorem Extends.refl (hs : s.CursorOk) : s.Extends s :=
  ⟨.inr ⟨rfl, le_rfl⟩, hs, .refl hs, fun _ h => .inl h⟩

theorem Extends.trans {u : BlockStore} (h : s.Extends t) (h' : t.Extends u) : s.Extends u where
  cursorLe := h.cursorLe.trans h'.cursorLe
  cursorOk := h'.cursorOk
  agree := by
    refine h.agree.trans (h'.agree.weaken h.cursorLe ?_)
    exact h.agree.le_length
  newest n hn := by
    rcases h'.newest n hn with hn' | hle
    · exact (h.newest n hn').imp_right fun hle => hle.trans h'.cursorLe.curFileNum_le
    · exact .inr hle

section
variable (cfg : StoreConfig)
variable (hs : s.CursorOk)
include hs

theorem extends_rollOver (hroom : s.Room) (fullLen : UInt32) : s.Extends (s.rollOver cfg fullLen) := by
  unfold rollOver
  simp only
  split_ifs with h
  · refine ⟨.inl ?_, Nat.zero_le _, .refl hs, fun n hn => .inl hn⟩
    rw [UInt32.lt_iff_toNat_lt, UInt32.toNat_add]
    unfold Room at hroom
    simp only [UInt32.reduceToNat]
    omega
  · exact .refl hs

theorem extends_writeData (hfit : s.curOffset.toNat + data.length < 2 ^ 32) : s.Extends (s.writeData data) where
  cursorLe := .inr ⟨rfl, by rw [curOffset_writeData hfit]; omega⟩
  cursorOk := cursorOk_writeData hs data
  agree := agreeBelow_writeData hs data
  newest n hn := by
    by_cases heq : n = s.curFileNum
    · exact .inr heq.le
    · left
      rwa [SortedMap.has, writeData, get?_insert, if_neg heq] at hn

/-- Whether it succeeds or not, `writeBlock` only adds at the cursor. -/
theorem extends_writeBlock (hroom : s.Room) (hlen : rawBlock.length + 12 < 2 ^ 32) (fault : Option WriteFault) :
    s.Extends (s.writeBlock cfg rawBlock fault).2 := by
  have hroll := extends_rollOver cfg hs hroom (UInt32.ofNat rawBlock.length + 12)
  have hfits := rollOver_fits cfg s hlen
  have hdata : ∀ data, data <+: cfg.record rawBlock →
      s.Extends ((s.rollOver cfg (UInt32.ofNat rawBlock.length + 12)).writeData data) := by
    intro data hpre
    have hle := hpre.length_le
    rw [cfg.length_record] at hle
    exact hroll.trans (extends_writeData hroll.cursorOk (by omega))
  rcases writeBlock_cases cfg hs hlen fault with h | ⟨-, t, htorn, h⟩
  · rw [h]
    exact hdata _ (prefix_refl _)
  · rw [h]
    rcases htorn with rfl | ⟨data, hpre, rfl⟩
    · exact hroll
    · exact hdata data hpre

/-- `writeBlock` moves on by one file at most. -/
theorem curFileNum_writeBlock_le (hlen : rawBlock.length + 12 < 2 ^ 32) (fault : Option WriteFault) :
    (s.writeBlock cfg rawBlock fault).2.curFileNum.toNat ≤ s.curFileNum.toNat + 1 := by
  have hroll : (s.rollOver cfg (UInt32.ofNat rawBlock.length + 12)).curFileNum.toNat ≤
      s.curFileNum.toNat + 1 := by
    unfold rollOver
    simp only
    split_ifs
    · rw [UInt32.toNat_add]
      exact Nat.mod_le ..
    · omega
  rcases writeBlock_cases cfg hs hlen fault with h | ⟨-, t, htorn, h⟩
  · rwa [h]
  · rw [h]
    rcases htorn with rfl | ⟨data, -, rfl⟩
    · exact hroll
    · exact hroll

/-- A record written at the cursor is there, and before the new cursor. -/
theorem holds_writeData (hfits : s.curOffset.toNat + (rawBlock.length + 12) < 2 ^ 32) :
    let t := s.writeData (cfg.record rawBlock)
    let loc : BlockLocation := ⟨s.curFileNum, s.curOffset, UInt32.ofNat rawBlock.length + 12⟩
    Holds cfg t.files loc rawBlock ∧ loc.Before t.curFileNum t.curOffset := by
  intro t loc
  have hfull : loc.blockLen.toNat = rawBlock.length + 12 := toNat_fullLen (by omega)
  have hrec := cfg.length_record rawBlock
  have hnext : t.curOffset.toNat = s.curOffset.toNat + (rawBlock.length + 12) := by
    rw [← hrec]
    exact curOffset_writeData (by rw [hrec]; exact hfits)
  refine ⟨⟨hfull, by rw [hfull]; exact hfits, ?_⟩, by omega, .inr ⟨rfl, ?_⟩⟩
  · refine ⟨writeAt (s.files.contents s.curFileNum) s.curOffset.toNat (cfg.record rawBlock), ?_, ?_, ?_⟩
    · exact (get?_insert ..).trans (if_pos rfl)
    · rw [hfull, ← hrec]
      exact length_writeAt hs _
    · rw [hfull, ← hrec]
      exact region_writeAt hs _
  · rw [hnext, hfull]

theorem holds_appended (hlen : rawBlock.length + 12 < 2 ^ 32) :
    Holds cfg (s.appended cfg rawBlock).files (s.appendedAt cfg rawBlock) rawBlock ∧
      (s.appendedAt cfg rawBlock).Before (s.appended cfg rawBlock).curFileNum
        (s.appended cfg rawBlock).curOffset :=
  holds_writeData cfg (cursorOk_rollOver cfg hs _) (rollOver_fits cfg s hlen)

end

/-! ## Deleting and rolling back -/

/-- The files the loop deletes before it ends. -/
def removed (fails : UInt32 → Bool) : List UInt32 → Files → List UInt32
  | [], _ => []
  | num :: nums, files =>
    if fails num ∨ files.has num = false then [] else num :: removed fails nums (files.erase num)

theorem get?_deleteFiles (fails : UInt32 → Bool) (n : UInt32) : ∀ nums files,
    (deleteFiles fails nums files).2.get? n =
      if n ∈ removed fails nums files then none else files.get? n
  | [], files => by simp [deleteFiles, removed]
  | num :: nums, files => by
    unfold deleteFiles removed deleteFile
    split_ifs with hfail hmem hmem
    · simp at hmem
    · rfl
    · rw [get?_deleteFiles fails n nums, get?_erase]
      rcases mem_cons.mp hmem with rfl | hmem
      · simp
      · rw [if_pos hmem]
    · simp only [mem_cons, not_or] at hmem
      rw [get?_deleteFiles fails n nums, if_neg hmem.2, get?_erase, if_neg hmem.1]

theorem removed_subset (fails : UInt32 → Bool) : ∀ nums files, removed fails nums files ⊆ nums
  | [], _ => by simp [removed]
  | num :: nums, files => by
    unfold removed
    split_ifs
    · exact nil_subset _
    · exact cons_subset_cons num (removed_subset fails nums _)

/-- Without a failure every file is deleted. -/
theorem removed_of_deleteFiles (fails : UInt32 → Bool) : ∀ nums files,
    (deleteFiles fails nums files).1 = true → removed fails nums files = nums
  | [], _, _ => rfl
  | num :: nums, files, h => by
    unfold deleteFiles deleteFile at h
    unfold removed
    split_ifs at h ⊢ with hfail
    rw [removed_of_deleteFiles fails nums _ h]

theorem lt_of_mem_newerFiles {cur n : UInt32} (h : n ∈ newerFiles cur old) : old < n := by
  obtain ⟨i, hi, rfl⟩ := mem_map.mp h
  have hlt := mem_range.mp hi
  have hcur := cur.toNat_lt
  rw [UInt32.lt_iff_toNat_lt, UInt32.toNat_sub_of_le]
  · rw [UInt32.toNat_ofNat', Nat.mod_eq_of_lt (by omega)]
    omega
  · rw [UInt32.le_iff_toNat_le, UInt32.toNat_ofNat', Nat.mod_eq_of_lt (by omega)]
    omega

/-- The two ways the files come out of a rollback to an earlier cursor: newer files are gone, and
the cursor's own file is as it was or has been cut. -/
theorem handleRollback_files (hle : old ≤ s.curFileNum) (oldOff : UInt32) (fault : RollbackFault) :
    let t := s.handleRollback old oldOff fault
    (∀ n < old, t.files.get? n = s.files.get? n) ∧
    (t.files.get? old = s.files.get? old ∨ t.files.get? old = some (s.files.contents old) ∨
      t.files.get? old = some (truncate (s.files.contents old) oldOff.toNat)) := by
  intro t
  have htarget : (if old < s.curFileNum then old else s.curFileNum) = old := by
    split_ifs with h
    · rfl
    · exact le_antisymm (not_lt.mp h) hle
  have hkeep : ∀ n ≤ old, (deleteFiles fault.deleteFails (newerFiles s.curFileNum old) s.files).2.get? n =
      s.files.get? n := by
    intro n hn
    rw [get?_deleteFiles, if_neg]
    intro hmem
    exact absurd (lt_of_mem_newerFiles (removed_subset _ _ _ hmem)) (not_lt.mpr hn)
  by_cases hsame : s.curFileNum = old ∧ s.curOffset = oldOff
  · have ht : t = s := if_pos hsame
    rw [ht]
    exact ⟨fun _ _ => rfl, .inl rfl⟩
  · generalize hr : deleteFiles fault.deleteFails (newerFiles s.curFileNum old) s.files = r at hkeep
    have ht : t.files = if (!r.1 || fault.openFails) = true then r.2 else r.2.insert old
        (if fault.truncateFails then r.2.contents old else truncate (r.2.contents old) oldOff.toNat) := by
      simp only [t, handleRollback, if_neg hsame, hr, htarget]
    have hcontents : r.2.contents old = s.files.contents old := by
      rw [Files.contents, hkeep old le_rfl]
      rfl
    rw [ht, hcontents]
    split_ifs with hstop htrunc
    · exact ⟨fun n hn => hkeep n hn.le, .inl (hkeep old le_rfl)⟩
    · refine ⟨fun n hn => ?_, .inr (.inl ?_)⟩
      · rw [get?_insert, if_neg hn.ne, hkeep n hn.le]
      · rw [get?_insert, if_pos rfl]
    · refine ⟨fun n hn => ?_, .inr (.inr ?_)⟩
      · rw [get?_insert, if_neg hn.ne, hkeep n hn.le]
      · rw [get?_insert, if_pos rfl]

/-- A rollback keeps what lies before the cursor it goes back to. -/
theorem agreeBelow_handleRollback {oldOff : UInt32} (hle : old ≤ s.curFileNum)
    (hoff : oldOff.toNat ≤ (s.files.contents old).length) (fault : RollbackFault) :
    AgreeBelow old oldOff.toNat s.files (s.handleRollback old oldOff fault).files := by
  obtain ⟨holder, hcur⟩ := handleRollback_files hle oldOff fault
  have hcontents : (s.handleRollback old oldOff fault).files.contents old = s.files.contents old ∨
      (s.handleRollback old oldOff fault).files.contents old =
        truncate (s.files.contents old) oldOff.toNat := by
    unfold Files.contents
    rcases hcur with h | h | h
    · exact .inl (by rw [h])
    · exact .inl (by rw [h]; rfl)
    · exact .inr (by rw [h]; rfl)
  rcases hcontents with h | h
  · exact ⟨holder, h ▸ hoff, by rw [h]⟩
  · refine ⟨holder, ?_, ?_⟩
    · rw [h, length_truncate]
    · rw [h, take_truncate hoff]

end BlockStore
end NogoCommons.Ffldb
