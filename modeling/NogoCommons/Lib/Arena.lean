import NogoCommons.Lib.Go
import Mathlib.Data.List.Forall2

/-!
# Slices of a buffer that is filled from the front

A buffer is filled from the front, and what was put into it is known by the slice it takes up. Filling goes on, so what
matters of a later state is only that it keeps what was there (`Keeps`); a slice that holds some bytes then holds them for
good (`Holds.mono`).

`threadMap` runs through a list and takes a state along. If every element is put into the buffer in its own way, and there
is room for all, then in the end all of them are there (`threadMap_placed`).
-/

namespace NogoCommons.Lib
open List

structure Slice where
  start : Nat
  len : Nat
deriving DecidableEq, Repr

def Slice.get (s : Slice) (mem : Bytes) : Bytes := (mem.drop s.start).take s.len

structure Arena where
  mem : Bytes
  used : Nat

namespace Arena

/-- The bytes go behind what is there. -/
def put (a : Arena) (bs : Bytes) : Slice × Arena :=
  (⟨a.used, bs.length⟩, ⟨copySlice a.mem a.used bs, a.used + bs.length⟩)

structure Keeps (a b : Arena) : Prop where
  used_le : a.used ≤ b.used
  size : b.mem.length = a.mem.length
  front : b.mem.take a.used = a.mem.take a.used

def Holds (a : Arena) (s : Slice) (bs : Bytes) : Prop := s.start + s.len ≤ a.used ∧ s.get a.mem = bs
theorem Keeps.refl (a : Arena) : Keeps a a := ⟨le_rfl, rfl, rfl⟩

theorem Keeps.trans {a b c : Arena} (h : Keeps a b) (h' : Keeps b c) : Keeps a c := by
  refine ⟨h.used_le.trans h'.used_le, h'.size.trans h.size, ?_⟩
  have hfront := congrArg (take a.used) h'.front
  rw [take_take, take_take, Nat.min_eq_left h.used_le] at hfront
  rw [hfront, h.front]

variable {bs : Bytes}

theorem Holds.mono {a b : Arena} {s : Slice} (h : a.Holds s bs) (hk : Keeps a b) : b.Holds s bs := by
  obtain ⟨hle, rfl⟩ := h
  refine ⟨hle.trans hk.used_le, ?_⟩
  have hget : ∀ mem : Bytes, s.get mem = s.get (mem.take a.used) := by
    intro mem
    rw [Slice.get, Slice.get, drop_take, take_take, Nat.min_eq_left (by omega)]
  rw [hget b.mem, hk.front, ← hget]

theorem keeps_put (a : Arena) (h : a.used + bs.length ≤ a.mem.length) : Keeps a (a.put bs).2 := by
  refine ⟨Nat.le_add_right .., length_copySlice .., ?_⟩
  show (a.mem.take a.used ++ bs.take (a.mem.length - a.used) ++ a.mem.drop (a.used + bs.length)).take a.used = _
  have hlen : (a.mem.take a.used).length = a.used := length_take_of_le (by omega)
  rw [append_assoc, take_left' hlen]

theorem holds_put (a : Arena) (h : a.used + bs.length ≤ a.mem.length) : (a.put bs).2.Holds (a.put bs).1 bs := by
  refine ⟨le_rfl, ?_⟩
  have hlen : (a.mem.take a.used).length = a.used := length_take_of_le (by omega)
  have hall : bs.take (a.mem.length - a.used) = bs := take_of_length_le (by omega)
  show ((a.mem.take a.used ++ bs.take (a.mem.length - a.used) ++ a.mem.drop (a.used + bs.length)).drop a.used).take
    bs.length = bs
  rw [append_assoc, drop_left' hlen, hall, take_left' rfl]

end Arena

/-! ## Taking a state along -/

section Thread
variable {S α β : Type}

def threadMap (f : S → α → β × S) : S → List α → List β × S
  | s, [] => ([], s)
  | s, x :: xs =>
    let y := f s x
    let ys := threadMap f y.2 xs
    (y.1 :: ys.1, ys.2)

/-- Something of a size was put into the arena, and the arena has it. -/
structure Arena.Placed (Q : Arena → α → β → Prop) (a : Arena) (x : α) (size : Nat) (r : β × Arena) : Prop where
  keeps : Arena.Keeps a r.2
  used_eq : r.2.used = a.used + size
  rel : Q r.2 x r.1

theorem threadMap_placed {Q : Arena → α → β → Prop} {size : α → Nat} {f : Arena → α → β × Arena}
    (hQ : ∀ {a b x y}, Arena.Keeps a b → Q a x y → Q b x y)
    (hf : ∀ a x, a.used + size x ≤ a.mem.length → Arena.Placed Q a x (size x) (f a x)) (xs : List α) :
    ∀ a : Arena, a.used + (xs.map size).sum ≤ a.mem.length →
      Arena.Placed (fun b xs ys => Forall₂ (Q b) xs ys) a xs (xs.map size).sum (threadMap f a xs) := by
  induction xs with
  | nil =>
    intro a _
    exact ⟨Arena.Keeps.refl a, rfl, Forall₂.nil⟩
  | cons x xs ih =>
    intro a hroom
    rw [map_cons, sum_cons] at hroom
    have hx := hf a x (by omega)
    have hxs := ih (f a x).2 (by rw [hx.used_eq, hx.keeps.size]; omega)
    refine ⟨hx.keeps.trans hxs.keeps, ?_, Forall₂.cons (hQ hxs.keeps hx.rel) hxs.rel⟩
    show (threadMap f (f a x).2 xs).2.used = _
    rw [hxs.used_eq, hx.used_eq, map_cons, sum_cons, Nat.add_assoc]

end Thread
end NogoCommons.Lib
