import NogoCommons.Lib.SortedMap

/-!
# Flat files

A file is the byte string it holds and a directory of numbered files a sorted map. A write is
positional: what lies before it stays, what it covers is replaced, a gap is filled with zeros.

Files that are only appended to are described by a cursor, a file and an offset in it: whatever
happens at or after the cursor, the files agree below it (`AgreeBelow`), and a region that ends
at or before the cursor reads the same.
-/

namespace NogoCommons.Lib
open List

instance linearOrderUInt32 : LinearOrder UInt32 where
  le_refl a := UInt32.le_refl a
  le_trans _ _ _ := UInt32.le_trans
  le_antisymm _ _ := UInt32.le_antisymm
  le_total a b := UInt32.le_total a b
  lt_iff_le_not_ge a b := by
    simp only [UInt32.lt_iff_toNat_lt, UInt32.le_iff_toNat_le]
    omega
  toDecidableLE := inferInstance
  toDecidableEq := inferInstance
  toDecidableLT := inferInstance

/-! ## One file -/

/-- `n` bytes from `off`, as many of them as there are. -/
def region (f : Bytes) (off n : Nat) : Bytes := (f.drop off).take n

def writeAt (f : Bytes) (off : Nat) (data : Bytes) : Bytes :=
  f.take off ++ replicate (off - f.length) 0 ++ data ++ f.drop (off + data.length)

/-- `Truncate`, which also lengthens. -/
def truncate (f : Bytes) (size : Nat) : Bytes :=
  f.take size ++ replicate (size - f.length) 0

variable {f : Bytes} {off n size : Nat}

theorem region_region {i k : Nat} (h : i + k ≤ n) : region (region f off n) i k = region f (off + i) k := by
  unfold region
  rw [drop_take, drop_drop, take_take]
  congr 1
  omega

/-- What a region holds depends on the file up to its end only. -/
theorem region_take (h : off + n ≤ size) : region (f.take size) off n = region f off n := by
  unfold region
  rw [drop_take, take_take]
  congr 1
  omega

theorem region_congr {g : Bytes} (hfg : g.take size = f.take size) (h : off + n ≤ size) :
    region g off n = region f off n := by
  rw [← region_take h, hfg, region_take h]

section
variable (h : off ≤ f.length)
include h

theorem writeAt_of_le (data : Bytes) : writeAt f off data = f.take off ++ data ++ f.drop (off + data.length) := by
  simp [writeAt, Nat.sub_eq_zero_of_le h]

/-- Two writes, the second where the first ended. -/
theorem writeAt_writeAt (a b : Bytes) : writeAt (writeAt f off a) (off + a.length) b = writeAt f off (a ++ b) := by
  have hlen : off + a.length ≤ (writeAt f off a).length := by
    rw [writeAt_of_le h]
    simp only [length_append, length_take, length_drop]
    omega
  have hhead : (f.take off ++ a).length = off + a.length := by
    simp only [length_append, length_take]
    omega
  rw [writeAt_of_le hlen, writeAt_of_le h, writeAt_of_le h, take_append_of_le_length hhead.ge,
    take_of_length_le hhead.le, drop_append, hhead,
    drop_eq_nil_of_le (by omega), drop_drop]
  simp [Nat.add_assoc]

theorem length_writeAt (data : Bytes) : off + data.length ≤ (writeAt f off data).length := by
  rw [writeAt_of_le h]
  simp only [length_append, length_take, length_drop]
  omega

theorem take_writeAt (hsize : size ≤ off) (data : Bytes) : (writeAt f off data).take size = f.take size := by
  rw [writeAt_of_le h, append_assoc, take_append_of_le_length (by simp; omega), take_take, Nat.min_eq_left hsize]

/-- What was written is what is read. -/
theorem region_writeAt (data : Bytes) : region (writeAt f off data) off data.length = data := by
  have hhead : (f.take off).length = off := by simp; omega
  unfold region
  rw [writeAt_of_le h, append_assoc, drop_append, hhead, drop_eq_nil_of_le hhead.le]
  simp

end

theorem length_truncate (f : Bytes) (size : Nat) : (truncate f size).length = size := by
  simp only [truncate, length_append, length_take, length_replicate]
  omega

theorem take_truncate (h : size ≤ f.length) : (truncate f size).take size = f.take size := by
  simp [truncate, Nat.sub_eq_zero_of_le h]

/-! ## Numbered files -/

/-- The numbered files of a directory. -/
abbrev Files := SortedMap UInt32 Bytes

/-- The file's bytes; a file that does not exist is created empty when it is opened for writing. -/
def Files.contents (files : Files) (num : UInt32) : Bytes := (files.get? num).getD []

theorem Files.get?_eq_contents {files : Files} {num : UInt32}
    (h : 0 < (files.contents num).length) : files.get? num = some (files.contents num) := by
  unfold Files.contents at h ⊢
  cases hget : files.get? num with
  | none => rw [hget] at h; cases h
  | some f => rfl

@[simp] theorem Files.contents_insert_self (files : Files) (num : UInt32) (f : Bytes) :
    Files.contents (files.insert num f) num = f := by
  simp [Files.contents, SortedMap.get?_insert]

/-- The two directories hold the same before offset `off` of file `num`. -/
structure AgreeBelow (num : UInt32) (off : Nat) (s t : Files) : Prop where
  older : ∀ n < num, t.get? n = s.get? n
  le_length : off ≤ (t.contents num).length
  same : (t.contents num).take off = (s.contents num).take off

namespace AgreeBelow
variable {num : UInt32} {off : Nat} {s t u : Files}

theorem refl (h : off ≤ (s.contents num).length) : AgreeBelow num off s s :=
  ⟨fun _ _ => rfl, h, rfl⟩

theorem trans (h : AgreeBelow num off s t) (h' : AgreeBelow num off t u) : AgreeBelow num off s u :=
  ⟨fun n hn => (h'.older n hn).trans (h.older n hn), h'.le_length, h'.same.trans h.same⟩

/-- A cursor further back asks for less. -/
theorem weaken {num' : UInt32} {off' : Nat} (h : AgreeBelow num' off' s t)
    (hle : num < num' ∨ num = num' ∧ off ≤ off') (hs : off ≤ (s.contents num).length) :
    AgreeBelow num off s t := by
  rcases hle with hlt | ⟨rfl, hoff⟩
  · have hsame : t.contents num = s.contents num := by
      rw [Files.contents, h.older num hlt]
      rfl
    exact ⟨fun n hn => h.older n (hn.trans hlt), hsame ▸ hs, by rw [hsame]⟩
  · refine ⟨h.older, hoff.trans h.le_length, ?_⟩
    have := congrArg (take off) h.same
    rwa [take_take, take_take, Nat.min_eq_left hoff] at this

/-- A change to the cursor's own file that keeps what is before the cursor. -/
theorem insert_self (hlen : off ≤ f.length) (hf : f.take off = (s.contents num).take off) :
    AgreeBelow num off s (s.insert num f) where
  older n hn := by rw [SortedMap.get?_insert, if_neg hn.ne]
  le_length := by simpa using hlen
  same := by simpa using hf

end AgreeBelow
end NogoCommons.Lib
