import NogoCommons.Lib.MerkleTree
import NogoCommons.Wire.Block

/-!
# `nogoutil/bloom/merkleblock.go` — partial Merkle trees

A merkle block has the hashes of a block's Merkle tree that are needed to compute its root and to see which transactions
matched. `traverseAndBuild` walks the tree depth first by heights and positions, and notes a bit for each node that it
comes to and a hash for each leaf and each node without a match below it.

The other side of the protocol is not in this repository. `extract` is the procedure that reads such a message, as BIP 37
has it, and `merkleBlock_extracts` says that it gets back the root and the matched transactions from what is built.

The numbers are 32 bits wide in the source. None of them comes near that width for a block of the size that `wire` allows,
which is a part of the invariant of the walk (`Fits`).
-/

namespace NogoCommons.Bloom
open Lib List
open Lib.MerkleTree
open Wire

/-- A number in 32 bits. -/
def u32 (n : Nat) : Nat := n % 2 ^ 32
theorem u32_of_lt {n : Nat} (h : n < 2 ^ 32) : u32 n = n := Nat.mod_eq_of_lt h

structure MerkleBlock where
  numTx : Nat
  allHashes : List ChainHash
  finalHashes : List ChainHash
  matchedBits : Bytes
  bits : Bytes

namespace MerkleBlock

def calcTreeWidth (m : MerkleBlock) (height : Nat) : Nat :=
  u32 (m.numTx + u32 (1 <<< height) + (2 ^ 32 - 1)) >>> height

section
variable (doubleHash : Bytes → ChainHash)

/-- `HashMerkleBranches`, for any hash of 64 bytes. -/
def hashMerkleBranches (left right : ChainHash) : ChainHash := doubleHash (left.bytes ++ right.bytes)

def calcHash (m : MerkleBlock) : Nat → Nat → Go ChainHash
  | 0, pos => elemAt m.allHashes pos
  | height + 1, pos => do
    let left ← calcHash m height (u32 (pos * 2))
    let right ← if u32 (pos * 2 + 1) < m.calcTreeWidth height then calcHash m height (u32 (pos * 2 + 1)) else pure left
    pure (hashMerkleBranches doubleHash left right)

/-- Whether a leaf below the node is matched. -/
def isParent (m : MerkleBlock) (height pos : Nat) : Go UInt8 :=
  let start := u32 (pos <<< height)
  let stop := min (u32 (u32 (pos + 1) <<< height)) m.numTx
  (range' start (stop - start)).foldlM (fun isParent i => do pure (isParent ||| (← elemAt m.matchedBits i))) 0

def traverseAndBuild (height pos : Nat) (m : MerkleBlock) : Go MerkleBlock := do
  let isParent ← m.isParent height pos
  let m := { m with bits := m.bits ++ [isParent] }
  match height with
  | 0 =>
    let hash ← m.calcHash doubleHash 0 pos
    pure { m with finalHashes := m.finalHashes ++ [hash] }
  | height + 1 =>
    if isParent = 0 then
      let hash ← m.calcHash doubleHash (height + 1) pos
      pure { m with finalHashes := m.finalHashes ++ [hash] }
    else
      let m ← traverseAndBuild height (u32 (pos * 2)) m
      if u32 (pos * 2 + 1) < m.calcTreeWidth height then traverseAndBuild height (u32 (pos * 2 + 1)) m else pure m

end

/-- The loop that counts the levels from a height on. No level above the 32nd has a node. -/
def heightFrom (m : MerkleBlock) : Nat → Nat → Nat
  | 0, height => height
  | fuel + 1, height => if 1 < m.calcTreeWidth height then heightFrom m fuel (height + 1) else height

def height (m : MerkleBlock) : Nat := m.heightFrom 33 0

end MerkleBlock

/-- `Flags[i] |= b`. -/
def orAt (flags : Bytes) (i : Nat) (b : UInt8) : Go Bytes :=
  if i < flags.length then .ok (flags.modify i (· ||| b)) else .error .sliceBounds

/-- The bits in bytes. -/
def packFlags (bits : Bytes) : Go Bytes :=
  (range (u32 bits.length)).foldlM
    (fun flags i => do orAt flags (i / 8) ((← elemAt bits i) <<< UInt8.ofNat (i % 8)))
    (replicate ((bits.length + 7) / 8) 0)

section
variable {σ τ : Type} (matchTxAndUpdate : σ → τ → Bool × σ) (txHash : τ → ChainHash)

/-- What the first loop of `NewMerkleBlock` has gathered. -/
structure Scan (σ : Type) where
  filter : σ
  allHashes : List ChainHash
  matchedBits : Bytes
  matchedIndices : List UInt32

def Scan.next (s : Scan σ) (entry : τ × Nat) : Scan σ :=
  let tx := entry.1
  let txIndex := entry.2
  match matchTxAndUpdate s.filter tx with
  | (true, filter) =>
    { filter := filter
      allHashes := s.allHashes ++ [txHash tx]
      matchedBits := s.matchedBits ++ [1]
      matchedIndices := s.matchedIndices ++ [UInt32.ofNat txIndex] }
  | (false, filter) =>
    { s with
      filter := filter
      allHashes := s.allHashes ++ [txHash tx]
      matchedBits := s.matchedBits ++ [0] }

def scanTxs (txs : List τ) (filter : σ) : Scan σ :=
  txs.zipIdx.foldl (Scan.next matchTxAndUpdate txHash) ⟨filter, [], [], []⟩

/-- `NewMerkleBlock`, for any filter: a state and what it says of a transaction and becomes. -/
def newMerkleBlock (doubleHash : Bytes → ChainHash) (header : BlockHeader) (txs : List τ) (filter : σ) :
    Go (MsgMerkleBlock × List UInt32 × σ) := do
  let numTx := u32 txs.length
  let scan := scanTxs matchTxAndUpdate txHash txs filter
  let mBlock : MerkleBlock := ⟨numTx, scan.allHashes, [], scan.matchedBits, []⟩
  let mBlock ← mBlock.traverseAndBuild doubleHash mBlock.height 0
  let flags ← packFlags mBlock.bits
  -- what `AddTxHash` refuses is left out
  let msg := mBlock.finalHashes.foldl (fun (msg : MsgMerkleBlock) hash => (msg.addTxHash hash).toOption.getD msg)
    ⟨header, UInt32.ofNat mBlock.numTx, [], []⟩
  pure ({ msg with flags := flags }, scan.matchedIndices, scan.filter)

end

/-! ## Reading a merkle block -/

/-- The bit at a place in bytes, the lowest of each byte first. -/
def flagAt (flags : Bytes) (i : Nat) : Bool := (flags.getD (i / 8) 0).toNat.testBit (i % 8)
def flagBits (flags : Bytes) : List Bool := (range (8 * flags.length)).map (flagAt flags)

/-- The procedure of BIP 37 at one node: depth first, a flag for each node, a hash for each leaf and each node without a
match, and the left hash twice where there is no right child. The result is the hash of the node, the hashes that
matched, and the flags and hashes that are left. -/
def extract {α : Type} (f : α → α → α) (n : Nat) : Nat → Nat → List Bool → List α → Option (α × List α × List Bool × List α)
  | 0, _, flag :: flags, hash :: hashes => some (hash, if flag then [hash] else [], flags, hashes)
  | _ + 1, _, false :: flags, hash :: hashes => some (hash, [], flags, hashes)
  | height + 1, pos, true :: flags, hashes => do
    let (left, matched, flags, hashes) ← extract f n height (pos * 2) flags hashes
    if pos * 2 + 1 < width n height then
      let (right, matched', flags, hashes) ← extract f n height (pos * 2 + 1) flags hashes
      some (f left right, matched ++ matched', flags, hashes)
    else some (f left left, matched, flags, hashes)
  | _, _, _, _ => none

/-- The height of the tree over `n` leaves. -/
def treeHeight (n : Nat) : Nat := Nat.clog 2 n

def extractAll (doubleHash : Bytes → ChainHash) (msg : MsgMerkleBlock) :
    Option (ChainHash × List ChainHash × List Bool × List ChainHash) :=
  extract (MerkleBlock.hashMerkleBranches doubleHash) msg.transactions.toNat (treeHeight msg.transactions.toNat) 0
    (flagBits msg.flags) msg.hashes

/-! ## The tree that is walked -/

/-- The bit that stands for a match. -/
def byteOf (b : Bool) : UInt8 := if b then 1 else 0

/-- The leaves of the tree, with their matches, are those that the block has. -/
structure MerkleBlock.Over (m : MerkleBlock) (leaves : List (ChainHash × Bool)) : Prop where
  numTx : m.numTx = leaves.length
  allHashes : m.allHashes = leaves.map Prod.fst
  matchedBits : m.matchedBits = leaves.map fun leaf => byteOf leaf.2
  small : leaves.length ≤ 2 ^ 30

/-- The numbers that belong to a node are in 32 bits. -/
def Fits (height pos : Nat) : Prop := (pos + 1) * 2 ^ height ≤ 2 ^ 31

variable {m : MerkleBlock} {height pos : Nat}

theorem Fits.pow_le (h : Fits height pos) : 2 ^ height ≤ 2 ^ 31 :=
  (Nat.le_mul_of_pos_left _ (Nat.succ_pos pos)).trans h

theorem Fits.pos_lt (h : Fits height pos) : pos < 2 ^ 31 :=
  (Nat.le_mul_of_pos_right _ (Nat.two_pow_pos height)).trans h

theorem Fits.left (h : Fits (height + 1) pos) : Fits height (pos * 2) := by
  have hpow : (pos + 1) * 2 ^ (height + 1) = (pos * 2 + 1) * 2 ^ height + 2 ^ height := by rw [pow_succ]; ring
  rw [Fits, hpow] at h
  exact (Nat.le_add_right ..).trans h

theorem Fits.right (h : Fits (height + 1) pos) : Fits height (pos * 2 + 1) := by
  have hpow : (pos + 1) * 2 ^ (height + 1) = (pos * 2 + 1 + 1) * 2 ^ height := by rw [pow_succ]; ring
  rwa [Fits, hpow] at h

namespace MerkleBlock
variable {leaves : List (ChainHash × Bool)}

theorem calcTreeWidth_eq (hm : m.numTx ≤ 2 ^ 30) (hpow : 2 ^ height ≤ 2 ^ 31) :
    m.calcTreeWidth height = width m.numTx height := by
  have hpos : 0 < 2 ^ height := Nat.two_pow_pos height
  have hone : u32 (1 <<< height) = 2 ^ height := by
    rw [Nat.one_shiftLeft]
    exact u32_of_lt (by omega)
  have hsum : u32 (m.numTx + 2 ^ height + (2 ^ 32 - 1)) = m.numTx + 2 ^ height - 1 := by
    rw [u32]
    omega
  rw [calcTreeWidth, hone, hsum, Nat.shiftRight_eq_div_pow, width]

theorem Over.calcTreeWidth_eq (h : m.Over leaves) (hpow : 2 ^ height ≤ 2 ^ 31) :
    m.calcTreeWidth height = width leaves.length height := by
  rw [MerkleBlock.calcTreeWidth_eq (h.numTx ▸ h.small) hpow, h.numTx]

/-- A right child is there, or it is not. -/
theorem lt_width_left (h : pos < width leaves.length (height + 1)) : pos * 2 < width leaves.length height := by
  rw [lt_width_iff] at h ⊢
  have hpow : pos * 2 ^ (height + 1) = pos * 2 * 2 ^ height := by rw [pow_succ]; ring
  omega

/-- **`calcHash` is the node of the tree.** -/
theorem calcHash_eq (doubleHash : Bytes → ChainHash) (h : m.Over leaves) (hfits : Fits height pos) (hpos : pos < width leaves.length height) :
    ∃ hash, m.calcHash doubleHash height pos = .ok hash ∧
      (levels (hashMerkleBranches doubleHash) (leaves.map Prod.fst) height)[pos]? = some hash := by
  induction height generalizing pos with
  | zero =>
    rw [width_zero] at hpos
    have hlt : pos < m.allHashes.length := by rw [h.allHashes, length_map]; exact hpos
    refine ⟨m.allHashes[pos], elemAt_of_lt hlt, ?_⟩
    rw [levels, ← h.allHashes]
    exact getElem?_eq_getElem hlt
  | succ height ih =>
    obtain ⟨left, hleft, hleft'⟩ := ih hfits.left (lt_width_left hpos)
    have hpos2 := hfits.right.pos_lt
    rw [calcHash, u32_of_lt (n := pos * 2) (by omega), u32_of_lt (n := pos * 2 + 1) (by omega), hleft, ok_bind,
      h.calcTreeWidth_eq hfits.left.pow_le, getElem?_levels_succ, hleft']
    split_ifs with hright
    · obtain ⟨right, hr, hr'⟩ := ih hfits.right hright
      rw [hr, hr', ok_bind]
      exact ⟨_, rfl, rfl⟩
    · have hnone : (levels (hashMerkleBranches doubleHash) (leaves.map Prod.fst) height)[pos * 2 + 1]? = none := by
        rw [getElem?_eq_none_iff, length_levels, length_map]
        omega
      rw [hnone]
      exact ⟨_, rfl, rfl⟩

theorem foldlM_elemAt (xs : Bytes) (start count : Nat) (h : start + count ≤ xs.length) (acc : UInt8) :
    (range' start count).foldlM (fun acc i => do pure (acc ||| (← elemAt xs i))) acc =
      (.ok (((xs.drop start).take count).foldl (· ||| ·) acc) : Go UInt8) := by
  induction count generalizing start acc with
  | zero => rfl
  | succ count ih =>
    have hlt : start < xs.length := by omega
    rw [range'_succ, foldlM_cons, elemAt_of_lt hlt, drop_eq_getElem_cons hlt, take_succ_cons, foldl_cons]
    exact ih (start + 1) (by omega) _

theorem foldl_or_byteOf (leaves : List (ChainHash × Bool)) (b : Bool) :
    (leaves.map fun leaf => byteOf leaf.2).foldl (· ||| ·) (byteOf b) = byteOf (b || leaves.any fun leaf => leaf.2) := by
  induction leaves generalizing b with
  | nil => rw [any_nil, Bool.or_false]; rfl
  | cons leaf leaves ih =>
    have hor : byteOf b ||| byteOf leaf.2 = byteOf (b || leaf.2) := by cases b <;> cases leaf.2 <;> rfl
    rw [map_cons, foldl_cons, hor, ih, any_cons, Bool.or_assoc]

theorem isParent_eq (h : m.Over leaves) (hfits : Fits height pos) (hpos : pos < width leaves.length height) :
    m.isParent height pos = .ok (byteOf ((below leaves height pos).any fun leaf => leaf.2)) := by
  have hsmall := h.small
  have hstart : pos * 2 ^ height < leaves.length := lt_width_iff.mp hpos
  have hpos2 := hfits.pos_lt
  have hstop : (pos + 1) * 2 ^ height = pos * 2 ^ height + 2 ^ height := by ring
  rw [Fits, hstop] at hfits
  have hlen : m.matchedBits.length = leaves.length := by rw [h.matchedBits, length_map]
  rw [isParent, Nat.shiftLeft_eq, Nat.shiftLeft_eq, u32_of_lt (n := pos * 2 ^ height) (by omega),
    u32_of_lt (n := pos + 1) (by omega), hstop, u32_of_lt (n := pos * 2 ^ height + 2 ^ height) (by omega), h.numTx]
  rw [foldlM_elemAt _ _ _ (by omega)]
  have hslice : (m.matchedBits.drop (pos * 2 ^ height)).take
      (min (pos * 2 ^ height + 2 ^ height) leaves.length - pos * 2 ^ height) =
      (below leaves height pos).map fun leaf => byteOf leaf.2 := by
    have hmin : ∀ s w n : Nat, s < n → min (s + w) n - s = min w (n - s) := by omega
    rw [below, h.matchedBits, ← map_drop, ← map_take, take_eq_take_min (i := 2 ^ height), length_drop,
      hmin _ _ _ hstart]
  rw [hslice]
  exact congrArg Except.ok (foldl_or_byteOf _ false)

end MerkleBlock

/-! ## What is built is read back -/

/-- The hashes of the matched leaves. -/
def matchedHashes (leaves : List (ChainHash × Bool)) : List ChainHash := (leaves.filter Prod.snd).map Prod.fst

theorem matchedHashes_append (leaves leaves' : List (ChainHash × Bool)) :
    matchedHashes (leaves ++ leaves') = matchedHashes leaves ++ matchedHashes leaves' := by
  rw [matchedHashes, filter_append, map_append, matchedHashes, matchedHashes]

theorem matchedHashes_eq_nil {leaves : List (ChainHash × Bool)} (h : (leaves.any fun leaf => leaf.2) = false) :
    matchedHashes leaves = [] := by
  rw [any_eq_false] at h
  rw [matchedHashes, filter_eq_nil_iff.mpr h, map_nil]

section
variable (doubleHash : Bytes → ChainHash) (leaves : List (ChainHash × Bool))

/-- The flags and hashes that the walk of a node appends, and that reading takes back from the front. -/
structure Built (height pos : Nat) (flags : List Bool) (hashes : List ChainHash) : Prop where
  traverse : ∀ m : MerkleBlock, m.Over leaves → m.traverseAndBuild doubleHash height pos =
    .ok { m with bits := m.bits ++ flags.map byteOf, finalHashes := m.finalHashes ++ hashes }
  flags_lt : flags.length < 2 ^ (height + 1)
  hashes_le : hashes.length ≤ (below leaves height pos).length
  extract : ∀ hash restFlags restHashes,
    (levels (MerkleBlock.hashMerkleBranches doubleHash) (leaves.map Prod.fst) height)[pos]? = some hash →
    extract (MerkleBlock.hashMerkleBranches doubleHash) leaves.length height pos (flags ++ restFlags)
      (hashes ++ restHashes) = some (hash, matchedHashes (below leaves height pos), restFlags, restHashes)

variable {doubleHash leaves}

theorem MerkleBlock.Over.append (h : m.Over leaves) (flags : Bytes) (hashes : List ChainHash) :
    MerkleBlock.Over { m with bits := flags, finalHashes := hashes } leaves :=
  ⟨h.numTx, h.allHashes, h.matchedBits, h.small⟩

/-- At a leaf. -/
theorem built_leaf (hfits : Fits 0 pos) (hpos : pos < width leaves.length 0) :
    ∃ flags hashes, Built doubleHash leaves 0 pos flags hashes := by
  have hlt : pos < leaves.length := by rwa [width_zero] at hpos
  have hbelow : below leaves 0 pos = [leaves[pos]] := by rw [below_zero, getElem?_eq_getElem hlt]; rfl
  refine ⟨[leaves[pos].2], [leaves[pos].1], ?_, by simp, by rw [hbelow]; rfl, ?_⟩
  · intro m hm
    have hhash : elemAt m.allHashes pos = .ok leaves[pos].1 := by
      rw [elemAt_of_lt (by rw [hm.allHashes, length_map]; exact hlt)]
      simp only [hm.allHashes, getElem_map]
    rw [MerkleBlock.traverseAndBuild, MerkleBlock.isParent_eq hm hfits hpos, ok_bind, hbelow, any_cons, any_nil,
      Bool.or_false]
    change (elemAt m.allHashes pos >>= _) = _
    rw [hhash]
    rfl
  · intro hash restFlags restHashes hhash
    rw [levels, getElem?_map, getElem?_eq_getElem hlt] at hhash
    cases hhash
    rw [hbelow]
    cases hmatch : leaves[pos].2 <;> simp [extract, matchedHashes, hmatch]

/-- At a node without a match. -/
theorem built_unmatched (hfits : Fits (height + 1) pos) (hpos : pos < width leaves.length (height + 1))
    (hnone : ((below leaves (height + 1) pos).any fun leaf => leaf.2) = false) :
    ∃ flags hashes, Built doubleHash leaves (height + 1) pos flags hashes := by
  have hlen : (levels (MerkleBlock.hashMerkleBranches doubleHash) (leaves.map Prod.fst) (height + 1)).length =
      width leaves.length (height + 1) := by rw [length_levels, length_map]
  have hlt := hlen.symm ▸ hpos
  refine ⟨[false], [(levels (MerkleBlock.hashMerkleBranches doubleHash) (leaves.map Prod.fst) (height + 1))[pos]],
    ?_, ?_, ?_, ?_⟩
  · intro m hm
    obtain ⟨hash, hhash, hnode⟩ := MerkleBlock.calcHash_eq doubleHash (hm.append (m.bits ++ [byteOf false])
      m.finalHashes) hfits hpos
    rw [getElem?_eq_getElem hlt] at hnode
    cases hnode
    rw [MerkleBlock.traverseAndBuild, MerkleBlock.isParent_eq hm hfits hpos, ok_bind, hnone]
    dsimp only
    rw [if_pos (show byteOf false = 0 from rfl), hhash]
    rfl
  · rw [length_singleton]
    exact Nat.one_lt_two_pow (by omega)
  · rwa [length_singleton, Nat.one_le_iff_ne_zero, Ne, length_eq_zero_iff, below_eq_nil, not_not]
  · intro hash restFlags restHashes hhash
    rw [getElem?_eq_getElem hlt] at hhash
    cases hhash
    rw [matchedHashes_eq_nil hnone]
    rfl

/-- At a node with a match, from what its children have. -/
theorem built_matched (hfits : Fits (height + 1) pos) (hpos : pos < width leaves.length (height + 1))
    (hsome : ((below leaves (height + 1) pos).any fun leaf => leaf.2) = true)
    (ih : ∀ pos, Fits height pos → pos < width leaves.length height →
      ∃ flags hashes, Built doubleHash leaves height pos flags hashes) :
    ∃ flags hashes, Built doubleHash leaves (height + 1) pos flags hashes := by
  obtain ⟨flags, hashes, hleft⟩ := ih (pos * 2) hfits.left (MerkleBlock.lt_width_left hpos)
  have hpos2 := hfits.right.pos_lt
  have hflags := hleft.flags_lt
  have hhashes := hleft.hashes_le
  have hbelow := below_succ leaves height pos
  have hstart : ∀ m : MerkleBlock, m.Over leaves → m.traverseAndBuild doubleHash (height + 1) pos =
      ((MerkleBlock.traverseAndBuild doubleHash height (pos * 2) { m with bits := m.bits ++ [1] }) >>= fun m =>
        if pos * 2 + 1 < m.calcTreeWidth height then m.traverseAndBuild doubleHash height (pos * 2 + 1) else pure m) := by
    intro m hm
    rw [MerkleBlock.traverseAndBuild, MerkleBlock.isParent_eq hm hfits hpos, ok_bind, hsome,
      u32_of_lt (n := pos * 2) (by omega), u32_of_lt (n := pos * 2 + 1) (by omega)]
    rfl
  by_cases hright : pos * 2 + 1 < width leaves.length height
  · obtain ⟨flags', hashes', hr⟩ := ih (pos * 2 + 1) hfits.right hright
    have hflags' := hr.flags_lt
    have hhashes' := hr.hashes_le
    refine ⟨true :: (flags ++ flags'), hashes ++ hashes', ?_, ?_, ?_, ?_⟩
    · intro m hm
      rw [hstart m hm, hleft.traverse _ (hm.append ..), ok_bind, (hm.append ..).calcTreeWidth_eq hfits.left.pow_le,
        if_pos hright, hr.traverse _ (hm.append ..)]
      simp [byteOf]
    · rw [length_cons, length_append]
      omega
    · rw [hbelow, length_append, length_append]
      omega
    · intro hash restFlags restHashes hhash
      obtain ⟨left, hl, hnode⟩ := Option.map_eq_some_iff.mp ((getElem?_levels_succ ..).symm.trans hhash)
      obtain ⟨right, hr'⟩ : ∃ right, (levels (MerkleBlock.hashMerkleBranches doubleHash) (leaves.map Prod.fst)
          height)[pos * 2 + 1]? = some right :=
        ⟨_, getElem?_eq_getElem (by rwa [length_levels, length_map])⟩
      rw [hr', Option.getD_some] at hnode
      rw [cons_append, extract, append_assoc, append_assoc, hleft.extract left _ _ hl]
      dsimp only [Option.bind_eq_bind, Option.bind_some]
      rw [if_pos hright, hr.extract right _ _ hr', hbelow, matchedHashes_append, ← hnode]
      rfl
  · -- there is no right child, and no leaf below it
    have hnil : below leaves height (pos * 2 + 1) = [] := below_eq_nil.mpr hright
    rw [hnil, append_nil] at hbelow
    refine ⟨true :: flags, hashes, ?_, ?_, ?_, ?_⟩
    · intro m hm
      rw [hstart m hm, hleft.traverse _ (hm.append ..), ok_bind, (hm.append ..).calcTreeWidth_eq hfits.left.pow_le,
        if_neg hright]
      simp [byteOf]
      rfl
    · rw [length_cons]
      omega
    · rwa [hbelow]
    · intro hash restFlags restHashes hhash
      obtain ⟨left, hl, hnode⟩ := Option.map_eq_some_iff.mp ((getElem?_levels_succ ..).symm.trans hhash)
      have hr' : (levels (MerkleBlock.hashMerkleBranches doubleHash) (leaves.map Prod.fst) height)[pos * 2 + 1]? = none :=
        getElem?_eq_none_iff.mpr (by rw [length_levels, length_map]; exact Nat.not_lt.mp hright)
      rw [hr', Option.getD_none] at hnode
      rw [cons_append, extract, hleft.extract left _ _ hl]
      dsimp only [Option.bind_eq_bind, Option.bind_some]
      rw [if_neg hright, hbelow, ← hnode]

theorem built (doubleHash : Bytes → ChainHash) (hfits : Fits height pos) (hpos : pos < width leaves.length height) :
    ∃ flags hashes, Built doubleHash leaves height pos flags hashes := by
  induction height generalizing pos with
  | zero => exact built_leaf hfits hpos
  | succ height ih =>
    cases hmatch : (below leaves (height + 1) pos).any fun leaf => leaf.2 with
    | false => exact built_unmatched hfits hpos hmatch
    | true => exact built_matched hfits hpos hmatch fun _ => ih

end

/-! ## The flags in bytes -/

theorem testBit_byteOf_shiftLeft (b : Bool) (i j : Fin 8) :
    (byteOf b <<< UInt8.ofNat i.val).toNat.testBit j.val = (b && decide (i = j)) := by
  revert b i j
  decide

theorem orAt_ok {flags : Bytes} {i : Nat} (h : i < flags.length) (b : UInt8) :
    ∃ flags', orAt flags i b = .ok flags' ∧ flags'.length = flags.length :=
  ⟨_, if_pos h, length_modify ..⟩

/-- Setting a bit. -/
theorem flagAt_orAt {flags flags' : Bytes} {k : Nat} {b : Bool}
    (h : orAt flags (k / 8) (byteOf b <<< UInt8.ofNat (k % 8)) = .ok flags') (j : Nat) :
    flagAt flags' j = (flagAt flags j || (b && decide (k = j))) := by
  rw [orAt] at h
  split_ifs at h with hlt
  cases h
  rw [flagAt, flagAt, getD_eq_getElem?_getD, getD_eq_getElem?_getD, getElem?_modify]
  by_cases hbyte : k / 8 = j / 8
  · rw [hbyte] at hlt
    have hbit := testBit_byteOf_shiftLeft b ⟨k % 8, Nat.mod_lt _ (by decide)⟩ ⟨j % 8, Nat.mod_lt _ (by decide)⟩
    have hsame : (⟨k % 8, Nat.mod_lt _ (by decide)⟩ : Fin 8) = ⟨j % 8, Nat.mod_lt _ (by decide)⟩ ↔ k = j := by
      rw [Fin.mk.injEq]
      omega
    simp only [hsame] at hbit
    simp only [hbyte, if_true, getElem?_eq_getElem hlt, Option.map_eq_map, Option.map_some, Option.getD_some,
      UInt8.toNat_or, Nat.testBit_or, hbit]
  · have hne : k ≠ j := fun h => hbyte (by rw [h])
    simp [hbyte, hne]

theorem packFlags_prefix (bits : List Bool) (k : Nat) (hk : k ≤ bits.length) : ∃ flags : Bytes, (range k).foldlM
        (fun flags i => do orAt flags (i / 8) ((← elemAt (bits.map byteOf) i) <<< UInt8.ofNat (i % 8)))
        (replicate ((bits.length + 7) / 8) 0) = (.ok flags : Go Bytes) ∧
      flags.length = (bits.length + 7) / 8 ∧ ∀ j, flagAt flags j = (bits.take k).getD j false := by
  induction k with
  | zero =>
    refine ⟨_, rfl, length_replicate, fun j => ?_⟩
    rw [flagAt, take_zero, getD_eq_getElem?_getD, getElem?_replicate]
    split_ifs <;> simp
  | succ k ih =>
    obtain ⟨flags, hflags, hlen, hbits⟩ := ih (by omega)
    have hlt : k < bits.length := by omega
    obtain ⟨flags', hor, hlen'⟩ := orAt_ok (show k / 8 < flags.length by omega) (byteOf bits[k] <<< UInt8.ofNat (k % 8))
    refine ⟨flags', ?_, hlen'.trans hlen, fun j => ?_⟩
    · rw [range_succ, foldlM_append, hflags, ok_bind, foldlM_cons,
        elemAt_of_lt (by rw [length_map]; exact hlt), getElem_map, ok_bind, hor]
      rfl
    · rw [flagAt_orAt hor j, hbits]
      simp only [getD_eq_getElem?_getD, getElem?_take]
      rcases Nat.lt_trichotomy j k with hjk | rfl | hjk
      · simp [hjk, show k ≠ j by omega, show j < k + 1 by omega]
      · simp [hlt]
      · simp [show ¬ j < k by omega, show k ≠ j by omega, show ¬ j < k + 1 by omega]

/-- **The bytes have the bits, and zeros to the end of the last byte.** -/
theorem packFlags_eq (bits : List Bool) (hlen : bits.length < 2 ^ 32) :
    ∃ flags : Bytes, packFlags (bits.map byteOf) = .ok flags ∧
      ∃ k < 8, flagBits flags = bits ++ replicate k false := by
  obtain ⟨flags, hflags, hlength, hbits⟩ := packFlags_prefix bits bits.length le_rfl
  refine ⟨flags, ?_, 8 * flags.length - bits.length, by omega, ?_⟩
  · rwa [packFlags, length_map, u32_of_lt hlen]
  · rw [take_length] at hbits
    refine ext_getElem (by simp [flagBits]; omega) fun j hj hj' => ?_
    simp only [flagBits, getElem_map, getElem_range, hbits, getD_eq_getElem?_getD, getElem_append, getElem_replicate]
    split_ifs with hlt
    · rw [getElem?_eq_getElem hlt, Option.getD_some]
    · rw [getElem?_eq_none_iff.mpr (Nat.not_lt.mp hlt), Option.getD_none]

/-! ## The whole message -/

theorem width_le_one_iff {n h : Nat} : width n h ≤ 1 ↔ treeHeight n ≤ h := by
  rw [← Nat.not_lt, lt_width_iff, one_mul, Nat.not_lt, treeHeight]
  exact (Nat.clog_le_iff_le_pow (by decide)).symm

theorem MerkleBlock.heightFrom_eq (hm : m.numTx ≤ 2 ^ 30) {fuel : Nat} (hle : height ≤ treeHeight m.numTx)
    (hfuel : treeHeight m.numTx < height + fuel) : m.heightFrom fuel height = treeHeight m.numTx := by
  induction fuel generalizing height with
  | zero => omega
  | succ fuel ih =>
    have htree : treeHeight m.numTx ≤ 30 := by
      rw [treeHeight]
      exact (Nat.clog_le_iff_le_pow (by decide)).mpr hm
    rw [heightFrom, calcTreeWidth_eq hm (Nat.pow_le_pow_right (by decide) (by omega))]
    split_ifs with hw
    · have hlt : ¬ treeHeight m.numTx ≤ height := fun h => by
        rw [← width_le_one_iff] at h
        omega
      exact ih (by omega) (by omega)
    · exact Nat.le_antisymm hle (width_le_one_iff.mp (Nat.not_lt.mp hw))

theorem MerkleBlock.height_eq (hm : m.numTx ≤ 2 ^ 30) : m.height = treeHeight m.numTx := by
  have htree : treeHeight m.numTx ≤ 30 := by
    rw [treeHeight]
    exact (Nat.clog_le_iff_le_pow (by decide)).mpr hm
  exact heightFrom_eq hm (Nat.zero_le _) (by omega)

section
variable {σ τ : Type} (matchTxAndUpdate : σ → τ → Bool × σ) (txHash : τ → ChainHash)

/-- Which transactions the filter matches, as it changes from one to the next. -/
def matchResults (filter : σ) : List τ → List Bool
  | [] => []
  | tx :: txs => (matchTxAndUpdate filter tx).1 :: matchResults (matchTxAndUpdate filter tx).2 txs

theorem scan_eq (txs : List τ) (s : Scan σ) (k : Nat) :
    ((txs.zipIdx k).foldl (Scan.next matchTxAndUpdate txHash) s).allHashes = s.allHashes ++ txs.map txHash ∧
    ((txs.zipIdx k).foldl (Scan.next matchTxAndUpdate txHash) s).matchedBits =
      s.matchedBits ++ (matchResults matchTxAndUpdate s.filter txs).map byteOf := by
  induction txs generalizing s k with
  | nil => simp [matchResults]
  | cons tx txs ih =>
    rw [zipIdx_cons, foldl_cons, matchResults]
    obtain ⟨hhashes, hbits⟩ := ih (Scan.next matchTxAndUpdate txHash s (tx, k)) (k + 1)
    rw [hhashes, hbits, Scan.next]
    rcases hmatch : matchTxAndUpdate s.filter tx with ⟨_ | _, filter⟩ <;> simp [byteOf]

theorem length_matchResults (filter : σ) (txs : List τ) : (matchResults matchTxAndUpdate filter txs).length = txs.length := by
  induction txs generalizing filter with
  | nil => rfl
  | cons tx txs ih => rw [matchResults, length_cons, ih, length_cons]

theorem foldl_addTxHash (hashes : List ChainHash) (msg : MsgMerkleBlock)
    (h : msg.hashes.length + hashes.length ≤ maxTxPerBlock) :
    hashes.foldl (fun msg hash => (msg.addTxHash hash).toOption.getD msg) msg =
      { msg with hashes := msg.hashes ++ hashes } := by
  induction hashes generalizing msg with
  | nil => rw [append_nil]; rfl
  | cons hash hashes ih =>
    rw [length_cons] at h
    have hadd : msg.addTxHash hash = .ok { msg with hashes := msg.hashes ++ [hash] } := by
      rw [MsgMerkleBlock.addTxHash, failIf, if_neg (by omega)]
      rfl
    rw [foldl_cons, hadd]
    rw [show (Except.ok { msg with hashes := msg.hashes ++ [hash] } : Except WireError MsgMerkleBlock).toOption.getD msg =
      { msg with hashes := msg.hashes ++ [hash] } from rfl, ih _ (by rw [length_append, length_singleton]; omega)]
    simp

/-- The transactions with what the filter says of them. -/
def leavesOf (filter : σ) (txs : List τ) : List (ChainHash × Bool) :=
  (txs.map txHash).zip (matchResults matchTxAndUpdate filter txs)

theorem length_leavesOf (filter : σ) (txs : List τ) :
    (leavesOf matchTxAndUpdate txHash filter txs).length = txs.length := by
  rw [leavesOf, length_zip, length_map, length_matchResults, Nat.min_self]

theorem map_fst_leavesOf (filter : σ) (txs : List τ) :
    (leavesOf matchTxAndUpdate txHash filter txs).map Prod.fst = txs.map txHash :=
  map_fst_zip (by rw [length_map, length_matchResults])

theorem map_snd_leavesOf (filter : σ) (txs : List τ) :
    (leavesOf matchTxAndUpdate txHash filter txs).map Prod.snd = matchResults matchTxAndUpdate filter txs :=
  map_snd_zip (by rw [length_map, length_matchResults])

/-- The message that has what the walk from the root appends. -/
theorem newMerkleBlock_eq {doubleHash : Bytes → ChainHash} (header : BlockHeader) {txs : List τ} {filter : σ}
    (hmax : txs.length ≤ 2 ^ 30) {flags : List Bool} {hashes : List ChainHash} {packed : Bytes}
    (hbuilt : Built doubleHash (leavesOf matchTxAndUpdate txHash filter txs) (treeHeight txs.length) 0 flags hashes)
    (hhashes : hashes.length ≤ maxTxPerBlock) (hpacked : packFlags (flags.map byteOf) = .ok packed) :
    newMerkleBlock matchTxAndUpdate txHash doubleHash header txs filter =
      .ok (⟨header, UInt32.ofNat txs.length, hashes, packed⟩, (scanTxs matchTxAndUpdate txHash txs filter).matchedIndices,
        (scanTxs matchTxAndUpdate txHash txs filter).filter) := by
  obtain ⟨hscanHashes, hscanBits⟩ := scan_eq matchTxAndUpdate txHash txs ⟨filter, [], [], []⟩ 0
  rw [nil_append] at hscanHashes hscanBits
  have hover : MerkleBlock.Over ⟨txs.length, txs.map txHash, [],
      (matchResults matchTxAndUpdate filter txs).map byteOf, []⟩ (leavesOf matchTxAndUpdate txHash filter txs) := by
    refine ⟨(length_leavesOf ..).symm, (map_fst_leavesOf ..).symm, ?_, by rwa [length_leavesOf]⟩
    rw [← map_snd_leavesOf matchTxAndUpdate txHash, map_map]
    rfl
  rw [newMerkleBlock, u32_of_lt (by omega)]
  rw [scanTxs, hscanHashes, hscanBits, MerkleBlock.height_eq hmax, hbuilt.traverse _ hover, ok_bind]
  dsimp only [nil_append]
  rw [hpacked, ok_bind, foldl_addTxHash _ _ (by simpa using hhashes), nil_append]
  rfl

/-- **What `NewMerkleBlock` builds is read back whole**: all hashes and flags are used, but for the zeros to the end of the
last byte, and what comes out is the root of all transactions and those that matched, in their order. -/
theorem newMerkleBlock_extracts (doubleHash : Bytes → ChainHash) (header : BlockHeader) (txs : List τ) (filter : σ)
    (hpos : 1 ≤ txs.length) (hmax : txs.length ≤ maxTxPerBlock) :
    ∃ msg indices filter', newMerkleBlock matchTxAndUpdate txHash doubleHash header txs filter = .ok (msg, indices, filter') ∧
      msg.transactions.toNat = txs.length ∧
      ∃ root, MerkleTree.root (MerkleBlock.hashMerkleBranches doubleHash) (txs.map txHash) = some root ∧
        ∃ k < 8, extractAll doubleHash msg =
          some (root, matchedHashes ((txs.map txHash).zip (matchResults matchTxAndUpdate filter txs)),
            replicate k false, []) := by
  have hlen := length_leavesOf matchTxAndUpdate txHash filter txs
  have hsmall : txs.length ≤ 2 ^ 19 := hmax.trans (by decide)
  have htree : treeHeight txs.length ≤ 19 := (Nat.clog_le_iff_le_pow (by decide)).mpr hsmall
  have hpow : 2 ^ treeHeight txs.length ≤ 2 ^ 19 := Nat.pow_le_pow_right (by decide) htree
  have hfits : Fits (treeHeight txs.length) 0 := by
    rw [Fits, Nat.zero_add, one_mul]
    omega
  have hnode : 0 < width (leavesOf matchTxAndUpdate txHash filter txs).length (treeHeight txs.length) := by
    rw [lt_width_iff, Nat.zero_mul]
    omega
  -- all leaves are below the root
  have hbelow : below (leavesOf matchTxAndUpdate txHash filter txs) (treeHeight txs.length) 0 =
      leavesOf matchTxAndUpdate txHash filter txs := by
    rw [below, Nat.zero_mul, drop_zero]
    refine take_of_length_le ?_
    rw [hlen]
    exact Nat.le_pow_clog (by decide) _
  obtain ⟨flags, hashes, hbuilt⟩ := built doubleHash hfits hnode
  have hhashes := hbuilt.hashes_le
  rw [hbelow, hlen] at hhashes
  have hflags := hbuilt.flags_lt
  rw [pow_succ] at hflags
  obtain ⟨packed, hpacked, k, hk, hread⟩ := packFlags_eq flags (by omega)
  have hmsg := newMerkleBlock_eq matchTxAndUpdate txHash header (by omega) hbuilt (by omega) hpacked
  have hn : (UInt32.ofNat txs.length).toNat = txs.length := by
    rw [UInt32.toNat_ofNat']
    omega
  obtain ⟨root, hroot⟩ : ∃ root, (levels (MerkleBlock.hashMerkleBranches doubleHash)
      ((leavesOf matchTxAndUpdate txHash filter txs).map Prod.fst) (treeHeight txs.length))[0]? = some root :=
    ⟨_, getElem?_eq_getElem (by rwa [length_levels, length_map])⟩
  refine ⟨_, _, _, hmsg, hn, root, ?_, k, hk, ?_⟩
  · rw [← map_fst_leavesOf matchTxAndUpdate txHash filter]
    refine root_levels _ (fun k hk => ?_) ?_ hroot
    · rw [length_map, hlen, ← Nat.not_le, width_le_one_iff]
      omega
    · rw [length_map]
      refine Nat.le_antisymm ?_ hnode
      rw [hlen, width_le_one_iff]
  · have hextract := hbuilt.extract root (replicate k false) [] hroot
    rw [hbelow, hlen, append_nil] at hextract
    rwa [extractAll, hn, hread]

end

/-- Three transactions, of which the second matches. -/
def threeTxs : List (ChainHash × Bool) := [(.zero 32, false), (.copy 32 [1], true), (.copy 32 [2], false)]

theorem newMerkleBlock_extracts_three : 1 ≤ threeTxs.length ∧ threeTxs.length ≤ maxTxPerBlock ∧
    ∃ msg indices filter', newMerkleBlock (fun (_ : Unit) tx => (tx.2, ())) Prod.fst (FixedBytes.copy 32)
        ⟨1, .zero 32, .zero 32, ⟨0⟩, 0, 0⟩ threeTxs () = .ok (msg, indices, filter') ∧
      msg.transactions.toNat = threeTxs.length ∧
      ∃ root, MerkleTree.root (MerkleBlock.hashMerkleBranches (FixedBytes.copy 32)) (threeTxs.map Prod.fst) = some root ∧
        ∃ k < 8, extractAll (FixedBytes.copy 32) msg =
          some (root, matchedHashes ((threeTxs.map Prod.fst).zip
            (matchResults (fun (_ : Unit) tx => (tx.2, ())) () threeTxs)), replicate k false, []) :=
  ⟨by decide, by decide, newMerkleBlock_extracts _ _ _ _ _ _ (by decide) (by decide)⟩

end NogoCommons.Bloom
