import NogoCommons.Nogopow.Types

/-!
# What `SealHash` commits to

`rlpEncode` writes a header's ten fields one after the other and nothing between them. Four
leading fields are fixed, so they can be read back; the six that follow are

    Number ‖ GasLimit (8) ‖ Time (8) ‖ Extra ‖ Nonce (32) ‖ Difficulty

with three fields of no fixed length, and a byte string of that shape can be cut in several
ways. A cut is a pair `(n, d)`: `n` bytes of `Number` in front, `d` bytes of `Difficulty` at
the end, and `Extra` takes what is left. It is a header's own encoding as soon as neither
number starts with a zero byte (`rlpEncode_resplit`).

The cut `(0, 0)` satisfies that condition on *every* byte string. So a header whose `Number`
or `Difficulty` is not zero always shares its encoding with another header, and a header
where both are zero is alone exactly when the zero bytes around `Extra` leave no second cut.
`sealBinding_iff` is that characterisation, in both directions.
-/

namespace NogoCommons.Nogopow
open Lib List

/-- The seal preimage of `h` is `h`'s alone: no other header with non-negative numbers writes
the same bytes. -/
def SealBinding (h : Header) : Prop :=
  ∀ h' : Header, h'.NonNeg → rlpEncode h' = rlpEncode h → h' = h

/-- `Number` and `Difficulty` are zero, and `Extra` is empty or stands between zero bytes: the
first byte of `GasLimit` and the last `len(Extra)` bytes of `Extra ‖ Nonce`. -/
def NoSecondCut (h : Header) : Prop :=
  h.number = some 0 ∧ h.difficulty = some 0 ∧
    (h.extra = [] ∨ h.gasLimit.toNat < 2 ^ 56 ∧ ∀ b ∈ (h.extra ++ h.nonce.bytes).drop 32, b = 0)

/-! ## Cutting a byte string into a header -/

/-- The header with the four leading fields of `h` and the six others cut from `T`. -/
def resplit (h : Header) (T : Bytes) (n d : Nat) : Header :=
  let e := T.length - n - d - 48
  { h with
    number := some (bigSetBytes (T.take n))
    gasLimit := uint64 ((T.drop n).take 8)
    time := uint64 ((T.drop (n + 8)).take 8)
    extra := (T.drop (n + 16)).take e
    nonce := .copy 32 ((T.drop (n + 16 + e)).take 32)
    difficulty := some (bigSetBytes (T.drop (n + 16 + e + 32))) }

theorem resplit_nonNeg (h : Header) (T : Bytes) (n d : Nat) : (resplit h T n d).NonNeg :=
  ⟨⟨_, rfl⟩, ⟨_, rfl⟩⟩

variable {h : Header}

/-- **A cut that leaves no leading zero is an encoding.** Each piece is a `take` of a `drop`,
and gluing them back is `List.take_append_drop` five times. -/
theorem rlpEncode_resplit {T : Bytes} {n d : Nat} (hlen : n + d + 48 ≤ T.length) (hn : (T.take n).head? ≠ some 0)
    (hd : (T.drop (T.length - d)).head? ≠ some 0) : rlpEncode (resplit h T n d) = rlpFixed h ++ T := by
  obtain ⟨e, he⟩ : ∃ e, T.length = n + d + 48 + e := ⟨_, (Nat.add_sub_cancel' hlen).symm⟩
  have hsub : T.length - n - d - 48 = e := by omega
  have hdrop : T.length - d = n + 16 + e + 32 := by omega
  rw [hdrop] at hd
  have hg : putUint64 (uint64 ((T.drop n).take 8)) = (T.drop n).take 8 :=
    putUint64_uint64 (by simp; omega)
  have ht : putUint64 (uint64 ((T.drop (n + 8)).take 8)) = (T.drop (n + 8)).take 8 :=
    putUint64_uint64 (by simp; omega)
  have hc : (FixedBytes.copy 32 ((T.drop (n + 16 + e)).take 32)).bytes
      = (T.drop (n + 16 + e)).take 32 := FixedBytes.copy_bytes (by simp; omega)
  have hglue : ∀ i j, (T.drop i).take j ++ T.drop (i + j) = T.drop i := fun i j => by
    rw [← drop_drop, take_append_drop]
  rw [rlpEncode_eq]
  congr 1
  simp only [rlpTail, resplit, hsub, optBytes, bigBytes_setBytes, natBytes_beNat hn,
    natBytes_beNat hd, hg, ht, hc, hglue, show n + 16 = n + 8 + 8 from rfl]
  exact take_append_drop n T

/-- A number cut from a byte string is zero only if nothing was cut. -/
theorem bigSetBytes_ne_zero {bs : Bytes} (hne : bs ≠ []) (hz : bs.head? ≠ some 0) : bigSetBytes bs ≠ 0 := by
  intro h
  have hb : beNat bs = 0 := Int.natCast_eq_zero.mp h
  have hnil := natBytes_beNat hz
  rw [hb, natBytes_zero] at hnil
  exact hne hnil.symm

/-! ## A second cut -/

/-- A second header with the encoding of `h`, from any admissible cut whose `Number` or
`Difficulty` is not that of `h`. -/
theorem not_sealBinding_of_cut {n d : Nat} (hlen : n + d + 48 ≤ (rlpTail h).length)
    (hn : ((rlpTail h).take n).head? ≠ some 0) (hd : ((rlpTail h).drop ((rlpTail h).length - d)).head? ≠ some 0)
    (hne : h.number ≠ some (bigSetBytes ((rlpTail h).take n)) ∨
      h.difficulty ≠ some (bigSetBytes ((rlpTail h).drop ((rlpTail h).length - d)))) : ¬ SealBinding h := by
  intro hb
  have hsame := hb (resplit h (rlpTail h) n d) (resplit_nonNeg ..) (by
    rw [rlpEncode_resplit hlen hn hd, rlpEncode_eq])
  rcases hne with hne | hne
  · exact hne (congrArg Header.number hsame).symm
  · refine hne ?_
    have hdrop : (rlpTail h).length - d
        = n + 16 + ((rlpTail h).length - n - d - 48) + 32 := by omega
    rw [hdrop]
    exact (congrArg Header.difficulty hsame).symm

/-- The cut that gives every byte to `Extra`. -/
theorem not_sealBinding_of_ne_zero (hne : h.number ≠ some 0 ∨ h.difficulty ≠ some 0) : ¬ SealBinding h := by
  have hlen := rlpTail_length h
  refine not_sealBinding_of_cut (n := 0) (d := 0) (by omega) (by simp) (by simp) ?_
  simpa [bigSetBytes] using hne

/-- With no `Number` and no `Difficulty` to write, the tail is the four fields between. -/
theorem rlpTail_of_zero (hn : h.number = some 0) (hd : h.difficulty = some 0) :
    rlpTail h = putUint64 h.gasLimit ++ (putUint64 h.time ++ (h.extra ++ h.nonce.bytes)) := by
  have hz : optBytes (some 0) = [] := optBytes_some_nat 0 |>.trans natBytes_zero
  simp [rlpTail, hn, hd, hz]

/-- The first byte of an 8-byte number is zero exactly when the number is below `2 ^ 56`. -/
theorem putUint64_head_eq_zero {x : UInt64} : (putUint64 x).head? = some 0 ↔ x.toNat < 2 ^ 56 := by
  have hval : beNat (putUint64 x) = x.toNat := beNat_beBytes_of_lt (by
    have := x.toNat_lt; norm_num at *; omega)
  have hlen := putUint64_length x
  cases hx : putUint64 x with
  | nil => rw [hx] at hlen; simp at hlen
  | cons b bs =>
    rw [hx] at hlen hval
    have hbs : bs.length = 7 := by simpa using hlen
    rw [beNat_cons, hbs] at hval
    have hlt := beNat_lt bs
    rw [hbs] at hlt
    simp only [head?_cons, Option.some.injEq]
    constructor
    · rintro rfl
      simp only [UInt8.toNat_zero] at hval
      norm_num at *
      omega
    · intro hlt'
      apply UInt8.toNat_inj.mp
      norm_num at *
      omega

/-- Where `Extra` is not empty and one of the bytes beside it is not zero, that byte starts a
`Number` or a `Difficulty` of its own. -/
theorem not_sealBinding_of_slack (hn : h.number = some 0) (hd : h.difficulty = some 0) (he : h.extra ≠ [])
    (hs : 2 ^ 56 ≤ h.gasLimit.toNat ∨ ∃ b ∈ (h.extra ++ h.nonce.bytes).drop 32, b ≠ 0) : ¬ SealBinding h := by
  have htail := rlpTail_of_zero hn hd
  have hpos : 0 < h.extra.length := length_pos_iff.mpr he
  have hlen : (rlpTail h).length = h.extra.length + 48 := by
    rw [htail]
    simp
    omega
  rcases hs with hgas | ⟨b, hb, hb0⟩
  · -- One byte of `GasLimit` becomes `Number`.
    have hhead : (putUint64 h.gasLimit).head? ≠ some 0 := fun hh => by
      have := putUint64_head_eq_zero.mp hh
      omega
    have htake : (rlpTail h).take 1 = (putUint64 h.gasLimit).take 1 := by
      rw [htail, take_append_of_le_length (by simp)]
    have hne : (putUint64 h.gasLimit).take 1 ≠ [] := fun hh => by
      have := congrArg length hh
      simp at this
    have hhead' : ((putUint64 h.gasLimit).take 1).head? ≠ some 0 := by
      simpa [head?_take] using hhead
    refine not_sealBinding_of_cut (n := 1) (d := 0) (by omega) (by rwa [htake]) (by simp) (.inl ?_)
    rw [hn, htake]
    simpa using (bigSetBytes_ne_zero hne hhead').symm
  · -- The bytes from `b` on become `Difficulty`.
    obtain ⟨pre, post, hsplit⟩ := append_of_mem hb
    have hk : pre.length + (post.length + 1) = h.extra.length := by
      have := congrArg length hsplit
      simp at this
      omega
    have hdrop : (rlpTail h).drop ((rlpTail h).length - (post.length + 1)) = b :: post := by
      have hcat : rlpTail h = (putUint64 h.gasLimit ++ putUint64 h.time ++
          (h.extra ++ h.nonce.bytes).take 32 ++ pre) ++ (b :: post) := by
        rw [htail]
        simp only [append_assoc]
        rw [← hsplit, take_append_drop]
      rw [hcat]
      refine drop_left' ?_
      simp
      omega
    refine not_sealBinding_of_cut (n := 0) (d := post.length + 1) (by omega) (by simp)
      (by rw [hdrop]; simpa using hb0) (.inr ?_)
    rw [hd, hdrop]
    have hne := bigSetBytes_ne_zero (cons_ne_nil b post) (by simpa using hb0)
    simpa using hne.symm

/-! ## No second cut -/

/-- Two headers that write the same tail and spend as many bytes on `Number` and on
`Difficulty` are one header: nothing is left to slide. -/
theorem rlpEncode_inj_of_lengths {h' : Header} (hh : h.NonNeg) (hh' : h'.NonNeg)
    (hn : (optBytes h'.number).length = (optBytes h.number).length)
    (hd : (optBytes h'.difficulty).length = (optBytes h.difficulty).length) (he : rlpEncode h' = rlpEncode h) :
    h' = h := by
  have hlen := congrArg length he
  rw [rlpEncode_eq, rlpEncode_eq, length_append, length_append, rlpTail_length,
    rlpTail_length, rlpFixed_length, rlpFixed_length] at hlen
  obtain ⟨⟨h1, h2, h3, h4⟩, hnum, hgas, htime, hextra, hnonce, hdiff⟩ :=
    rlpEncode_fields hn (by omega) he
  obtain ⟨⟨a, ha⟩, ⟨b, hb⟩⟩ := hh
  obtain ⟨⟨a', ha'⟩, ⟨b', hb'⟩⟩ := hh'
  rw [ha, ha', optBytes_some_nat, optBytes_some_nat] at hnum
  rw [hb, hb', optBytes_some_nat, optBytes_some_nat] at hdiff
  have hab := natBytes_injective hnum
  have hbb := natBytes_injective hdiff
  cases h
  cases h'
  simp only at *
  subst h1 h2 h3 h4 ha ha' hb hb' hab hbb hextra hgas htime hnonce
  rfl

theorem sealBinding_of_noSecondCut (hh : h.NonNeg) (hc : NoSecondCut h) : SealBinding h := by
  obtain ⟨hn, hd, hz⟩ := hc
  intro h' hh' he
  have htail : rlpTail h' = rlpTail h := by
    rw [rlpEncode_eq, rlpEncode_eq] at he
    exact (append_inj he (by simp)).2
  have hzero : optBytes (some 0) = [] := optBytes_some_nat 0 |>.trans natBytes_zero
  have hlen := congrArg length htail
  rw [rlpTail_length, rlpTail_length, hn, hd, hzero] at hlen
  simp only [length_nil] at hlen
  suffices hs : optBytes h'.number = [] ∧ optBytes h'.difficulty = [] by
    refine rlpEncode_inj_of_lengths hh hh' ?_ ?_ he
    · rw [hs.1, hn, hzero]
    · rw [hs.2, hd, hzero]
  obtain ⟨⟨a, ha⟩, ⟨b, hb⟩⟩ := hh'
  have hna : optBytes h'.number = natBytes a := by rw [ha, optBytes_some_nat]
  have hdb : optBytes h'.difficulty = natBytes b := by rw [hb, optBytes_some_nat]
  rcases hz with hempty | ⟨hgas, hzeros⟩
  · rw [hempty] at hlen
    simp only [length_nil] at hlen
    exact ⟨length_eq_zero_iff.mp (by omega), length_eq_zero_iff.mp (by omega)⟩
  · rw [rlpTail_of_zero hn hd] at htail
    unfold rlpTail at htail
    rw [hna, hdb] at htail hlen ⊢
    constructor
    · -- The first byte of the tail is zero, and a `Number` cannot start with it.
      by_contra hne
      refine natBytes_head a ?_
      have hhead := congrArg head? htail
      rw [head?_append_of_ne_nil _ hne, head?_append_of_ne_nil _ (by
        intro hh
        have := congrArg length hh
        simp at this)] at hhead
      rw [hhead]
      exact putUint64_head_eq_zero.mpr hgas
    · -- `Difficulty` is a suffix no longer than `Extra`, so it lies within the zero bytes.
      by_contra hne
      refine natBytes_head b ?_
      rw [head?_eq_some_head hne]
      refine congrArg some (hzeros _ ?_)
      have hdiff : natBytes b <:+ putUint64 h.gasLimit ++ (putUint64 h.time ++ (h.extra ++ h.nonce.bytes)) := by
        rw [← htail]
        simp only [← append_assoc]
        exact suffix_append ..
      have hslack : (h.extra ++ h.nonce.bytes).drop 32 <:+ putUint64 h.gasLimit ++
          (putUint64 h.time ++ (h.extra ++ h.nonce.bytes)) :=
        (drop_suffix ..).trans ((suffix_append ..).trans (suffix_append ..))
      have hle : (natBytes b).length ≤ ((h.extra ++ h.nonce.bytes).drop 32).length := by
        rw [length_drop, length_append, FixedBytes.bytes_length]
        omega
      exact (suffix_of_suffix_length_le hdiff hslack hle).subset (head_mem hne)

/-- **The seal binds a header exactly when its bytes have one cut.** Every header with a
non-zero `Number` or `Difficulty` fails: its bytes are also those of a header where both
are zero. -/
theorem sealBinding_iff {h : Header} (hh : h.NonNeg) : SealBinding h ↔ NoSecondCut h := by
  refine ⟨fun hb => ?_, sealBinding_of_noSecondCut hh⟩
  have hz : h.number = some 0 ∧ h.difficulty = some 0 := by
    by_contra hne
    rw [not_and_or] at hne
    exact not_sealBinding_of_ne_zero hne hb
  refine ⟨hz.1, hz.2, ?_⟩
  by_contra hne
  simp only [not_or, not_and_or, not_lt, not_forall] at hne
  obtain ⟨he, hs⟩ := hne
  refine not_sealBinding_of_slack hz.1 hz.2 he (hs.imp_right ?_) hb
  rintro ⟨b, hb, hb0⟩
  exact ⟨b, hb, hb0⟩

/-- The condition is not empty: the all-zero header is bound by its seal. -/
theorem sealBinding_zero : SealBinding { Header.zero with number := some 0, difficulty := some 0 } :=
  (sealBinding_iff ⟨⟨0, rfl⟩, ⟨0, rfl⟩⟩).mpr ⟨rfl, rfl, .inl rfl⟩

/-- Block 1 at difficulty 1, with one byte of `Extra` and a nonce that ends in 5. -/
def easyHeader : Header :=
  { Header.zero with
    number := some 1
    extra := [2]
    nonce := .copyAt 32 31 [5]
    difficulty := some 1 }

/-- Block 1 at difficulty 1281: the byte of `Extra` has moved into the nonce, and the last byte
of the nonce into `Difficulty`. -/
def hardHeader : Header :=
  { Header.zero with
    number := some 1
    nonce := .copy 32 [2]
    difficulty := some 1281 }

/-- **Two headers, one seal preimage** — and so one `SealHash` and one proof of work, at
difficulty 1 and at difficulty 1281. -/
theorem rlpEncode_collision : ¬ ∀ h₁ h₂ : Header, h₁.NonNeg → h₂.NonNeg → rlpEncode h₁ = rlpEncode h₂ → h₁ = h₂ := by
  intro hall
  have hsame := hall easyHeader hardHeader ⟨⟨1, rfl⟩, ⟨1, rfl⟩⟩ ⟨⟨1, rfl⟩, ⟨1281, rfl⟩⟩
    (by rfl)
  cases hsame

end NogoCommons.Nogopow
