import NogoCommons.Lib.Go
import Mathlib.Data.List.Forall2

/-!
# Readers and formats

A reader takes bytes from the front of a stream. What makes readers compose is that they are *local*: a reader that
succeeds has looked at nothing but the bytes it has taken, and would have taken the same bytes and given the same value
whatever came after them. Locality is a field of `Reader`, so that a reader put together from readers is local with
nothing to prove, and `Reads p u a` (on exactly the bytes `u`, the reader gives `a`) says all there is to say about a
success (`run_eq_ok`).

A reader has a *format* if the bytes it accepts for a value are given by a function (`Format`). One direction of a
format is that what was written is read back; the other is that nothing else is accepted, so that a value has one
spelling. Most formats are sequences, and a sequence is taken apart one field at a time (`Format.reads_bind`); those of
records are put together from the formats of their fields (`Format.field`).

Two readers can be compared on all streams (`Sim`); this is how a reader that keeps what it reads in a buffer is compared
with one that simply returns it.

A reader that asks how much is left is not local, and has to be written as a function on streams.
-/

namespace NogoCommons.Lib
open List

/-- The two errors of `io.ReadFull`. -/
class ReadError (ε : Type) where
  eof : ε
  unexpectedEOF : ε

structure Reader (ε α : Type) where
  run : Bytes → Except ε (α × Bytes)
  consumes : ∀ {s a rest}, run s = .ok (a, rest) →
    ∃ u, s = u ++ rest ∧ ∀ rest', run (u ++ rest') = .ok (a, rest')

namespace Reader
variable {ε α β : Type}

instance monad : Monad (Reader ε) where
  pure a :=
    { run := fun s => .ok (a, s)
      consumes := by
        intro s b rest h
        cases h
        exact ⟨[], rfl, fun _ => rfl⟩ }
  bind p f :=
    { run := fun s =>
        match p.run s with
        | .error e => .error e
        | .ok r => (f r.1).run r.2
      consumes := by
        intro s b rest h
        cases hp : p.run s with
        | error e =>
          rw [hp] at h
          cases h
        | ok r =>
          rw [hp] at h
          obtain ⟨u, rfl, hu⟩ := p.consumes hp
          obtain ⟨v, hv, hrun⟩ := (f r.1).consumes h
          refine ⟨u ++ v, by rw [hv, append_assoc], fun rest' => ?_⟩
          rw [append_assoc, hu]
          exact hrun rest' }

variable {s : Bytes} {c : Prop}

theorem run_bind_ok {p : Reader ε α} {f : α → Reader ε β} {s' : Bytes} {a : α} (h : p.run s = .ok (a, s')) :
    (p >>= f).run s = (f a).run s' := by
  show (match p.run s with
    | .error e => (.error e : Except ε (β × Bytes))
    | .ok r => (f r.1).run r.2) = _
  rw [h]

theorem run_bind_error {p : Reader ε α} {f : α → Reader ε β} {e : ε} (h : p.run s = .error e) :
    (p >>= f).run s = .error e := by
  show (match p.run s with
    | .error e => (.error e : Except ε (β × Bytes))
    | .ok r => (f r.1).run r.2) = _
  rw [h]

/-- Give up. -/
def fail (e : ε) : Reader ε α where
  run _ := .error e
  consumes h := by cases h

/-- Give up under a condition. -/
def refuse (c : Prop) [Decidable c] (e : ε) : Reader ε Unit := if c then fail e else pure ()

/-- `io.ReadFull` into a buffer of a length. -/
def readFull [ReadError ε] (n : Nat) : Reader ε Bytes where
  run s :=
    if n ≤ s.length then .ok (s.take n, s.drop n)
    else if s = [] then .error ReadError.eof else .error ReadError.unexpectedEOF
  consumes := by
    intro s u rest h
    split_ifs at h with hn
    cases h
    refine ⟨s.take n, (take_append_drop n s).symm, fun rest' => ?_⟩
    have hlen : (s.take n).length = n := length_take_of_le hn
    rw [if_pos (by rw [length_append, hlen]; exact Nat.le_add_right ..), take_left' hlen, drop_left' hlen]

/-- The same reader a number of times. -/
def times : Nat → Reader ε α → Reader ε (List α)
  | 0, _ => pure []
  | n + 1, p => do
    let a ← p
    let as ← times n p
    return a :: as

/-- A reader a number of times, with a state that goes from one to the next. -/
def iterate {S : Type} (p : S → Reader ε (α × S)) : Nat → S → Reader ε (List α × S)
  | 0, s => pure ([], s)
  | n + 1, s => do
    let x ← p s
    let xs ← iterate p n x.2
    return (x.1 :: xs.1, xs.2)

/-- On exactly these bytes, whatever comes after them, the reader gives this value. -/
def Reads (p : Reader ε α) (u : Bytes) (a : α) : Prop := ∀ rest, p.run (u ++ rest) = .ok (a, rest)

/-- What a reader accepts: the values that are right, each in one spelling. -/
def Format (p : Reader ε α) (ok : α → Prop) (w : α → Bytes) : Prop := ∀ u a, Reads p u a ↔ ok a ∧ u = w a

section Reads
variable {p : Reader ε α} {u : Bytes} {a : α}

theorem run_eq_ok {rest : Bytes} : p.run s = .ok (a, rest) ↔ ∃ u, s = u ++ rest ∧ p.Reads u a := by
  constructor
  · intro h
    exact p.consumes h
  · rintro ⟨u, rfl, h⟩
    exact h rest

theorem Reads.run_all (h : p.Reads u a) : p.run u = .ok (a, []) := by
  have hrun := h []
  rwa [append_nil] at hrun

variable {v : Bytes} {e : ε} {b : β}

/-- Of two prefixes of a stream, the reader takes only one. -/
theorem Reads.unique {rest rest' : Bytes} {b : α} (h : p.Reads u a) (h' : p.Reads v b) (hs : u ++ rest = v ++ rest') :
    a = b ∧ u = v := by
  have hrun := h rest
  rw [hs, h' rest'] at hrun
  cases hrun
  exact ⟨rfl, append_cancel_right hs⟩

theorem reads_pure {b : α} : (pure b : Reader ε α).Reads u a ↔ u = [] ∧ b = a := by
  constructor
  · intro h
    obtain ⟨rfl, hu⟩ := Prod.mk.inj (Except.ok.inj (h []))
    exact ⟨by simpa using hu, rfl⟩
  · rintro ⟨rfl, rfl⟩ rest
    rfl

theorem not_reads_fail : ¬ (fail e : Reader ε α).Reads u a := by
  intro h
  cases h []

theorem reads_bind {f : α → Reader ε β} :
    (p >>= f).Reads u b ↔ ∃ a v w, u = v ++ w ∧ p.Reads v a ∧ (f a).Reads w b := by
  constructor
  · intro h
    have hrun := h.run_all
    cases hp : p.run u with
    | error e =>
      rw [run_bind_error hp] at hrun
      cases hrun
    | ok r =>
      rw [run_bind_ok hp] at hrun
      obtain ⟨v, hv, hreads⟩ := p.consumes hp
      obtain ⟨w, hw, hrest⟩ := (f r.1).consumes hrun
      refine ⟨r.1, v, w, ?_, hreads, hrest⟩
      rw [hv, hw, append_nil]
  · rintro ⟨a, v, w, rfl, hv, hw⟩ rest
    rw [append_assoc, run_bind_ok (hv (w ++ rest))]
    exact hw rest

/-- The rule of sequence for what was written. -/
theorem Reads.bind {f : α → Reader ε β} (h : p.Reads u a) (hf : (f a).Reads v b) : (p >>= f).Reads (u ++ v) b :=
  reads_bind.mpr ⟨a, u, v, rfl, h, hf⟩

theorem Reads.map {f : α → β} (h : p.Reads u a) : (f <$> p).Reads u (f a) := by
  have hbind : (p >>= fun a => pure (f a)).Reads (u ++ []) (f a) := h.bind (reads_pure.mpr ⟨rfl, rfl⟩)
  rwa [append_nil] at hbind

theorem reads_map {f : α → β} : (f <$> p).Reads u b ↔ ∃ a, p.Reads u a ∧ f a = b := by
  constructor
  · intro h
    obtain ⟨a, v, w, rfl, hv, hw⟩ := reads_bind.mp (show (p >>= fun a => pure (f a)).Reads u b from h)
    obtain ⟨rfl, rfl⟩ := reads_pure.mp hw
    exact ⟨a, by rwa [append_nil], rfl⟩
  · rintro ⟨a, h, rfl⟩
    exact h.map

theorem reads_refuse [Decidable c] {x : Unit} : (refuse c e).Reads u x ↔ ¬ c ∧ u = [] := by
  unfold refuse
  split_ifs with hc
  · exact iff_of_false not_reads_fail fun h => h.1 hc
  · rw [reads_pure]
    exact ⟨fun h => ⟨hc, h.1⟩, fun h => ⟨h.2, rfl⟩⟩

/-- A check that is passed takes nothing. -/
theorem reads_refuse_bind [Decidable c] {f : Unit → Reader ε β} :
    (refuse c e >>= f).Reads u b ↔ ¬ c ∧ (f ()).Reads u b := by
  rw [reads_bind]
  constructor
  · rintro ⟨x, v, w, rfl, hv, hw⟩
    obtain ⟨hc, rfl⟩ := reads_refuse.mp hv
    exact ⟨hc, hw⟩
  · rintro ⟨hc, h⟩
    exact ⟨(), [], u, rfl, reads_refuse.mpr ⟨hc, rfl⟩, h⟩

theorem reads_readFull [ReadError ε] {n : Nat} : (readFull n : Reader ε Bytes).Reads u v ↔ u.length = n ∧ u = v := by
  constructor
  · intro h
    have hrun := h.run_all
    simp only [readFull] at hrun
    split_ifs at hrun with hn
    obtain ⟨rfl, hrest⟩ := Prod.mk.inj (Except.ok.inj hrun)
    have hlen : u.length ≤ n := drop_eq_nil_iff.mp hrest
    exact ⟨le_antisymm hlen hn, (take_of_length_le hlen).symm⟩
  · rintro ⟨rfl, rfl⟩ rest
    simp [readFull]

end Reads

namespace Format
variable {p : Reader ε α} {ok : α → Prop} {w : α → Bytes}
variable (h : Format p ok w)
include h

theorem reads {a : α} (ha : ok a) : p.Reads (w a) a := (h ..).mpr ⟨ha, rfl⟩

/-- The first field of a sequence. -/
theorem reads_bind {f : α → Reader ε β} {u : Bytes} {b : β} :
    (p >>= f).Reads u b ↔ ∃ a, ok a ∧ ∃ v, u = w a ++ v ∧ (f a).Reads v b := by
  rw [Reader.reads_bind]
  constructor
  · rintro ⟨a, v, v', rfl, hv, hv'⟩
    obtain ⟨ha, rfl⟩ := (h v a).mp hv
    exact ⟨a, ha, v', rfl, hv'⟩
  · rintro ⟨a, ha, v, rfl, hv⟩
    exact ⟨a, w a, v, rfl, h.reads ha, hv⟩

/-- The same bytes, read as a value of another type. -/
theorem map {f : α → β} {g : β → α} (hgf : ∀ a, ok a → g (f a) = a) (hfg : ∀ b, ok (g b) → f (g b) = b) :
    Format (f <$> p) (fun b => ok (g b)) (fun b => w (g b)) := by
  intro u b
  rw [reads_map]
  constructor
  · rintro ⟨a, ha, rfl⟩
    obtain ⟨hok, rfl⟩ := (h u a).mp ha
    show ok (g (f a)) ∧ w a = w (g (f a))
    rw [hgf a hok]
    exact ⟨hok, rfl⟩
  · rintro ⟨hok, rfl⟩
    exact ⟨g b, h.reads hok, hfg b hok⟩

theorem times : ∀ n, Format (times n p) (fun as => as.length = n ∧ ∀ a ∈ as, ok a)
    fun as => (as.map w).flatten := by
  intro n
  induction n with
  | zero =>
    intro u as
    rw [Reader.times, reads_pure]
    constructor
    · rintro ⟨rfl, rfl⟩
      simp
    · rintro ⟨⟨hlen, -⟩, rfl⟩
      obtain rfl := length_eq_zero_iff.mp hlen
      exact ⟨rfl, rfl⟩
  | succ n ih =>
    intro u as
    rw [Reader.times, h.reads_bind]
    constructor
    · rintro ⟨a, ha, v, rfl, hv⟩
      obtain ⟨as', ⟨hlen, hall⟩, v', rfl, hv'⟩ := ih.reads_bind.mp hv
      obtain ⟨rfl, rfl⟩ := reads_pure.mp hv'
      refine ⟨⟨by rw [length_cons, hlen], ?_⟩, by simp⟩
      intro b hb
      rcases mem_cons.mp hb with rfl | hb
      · exact ha
      · exact hall b hb
    · rintro ⟨⟨hlen, hall⟩, rfl⟩
      cases as with
      | nil => cases hlen
      | cons a as =>
        refine ⟨a, hall a mem_cons_self, (as.map w).flatten, rfl, ih.reads_bind.mpr ?_⟩
        refine ⟨as, ⟨Nat.succ.inj hlen, fun b hb => hall b (mem_cons_of_mem _ hb)⟩, [], by simp, ?_⟩
        exact reads_pure.mpr ⟨rfl, rfl⟩

theorem congr_ok {ok' : α → Prop} (hok : ∀ a, ok a ↔ ok' a) : Format p ok' w := by
  intro u a
  rw [h u a, hok a]

theorem congr_bytes {w' : α → Bytes} (hw : ∀ a, w a = w' a) : Format p ok w' := by
  intro u a
  rw [h u a, hw a]

end Format

/-! ## Formats of records -/

section Records
variable {known ok : β → Prop} {w : β → Bytes}

/-- Of the values of which this is known, the reader accepts those that are right, each in one spelling. -/
def FormatOf (known : β → Prop) (p : Reader ε β) (ok : β → Prop) (w : β → Bytes) : Prop :=
  ∀ u b, p.Reads u b ↔ known b ∧ ok b ∧ u = w b

/-- A field, which is known to those that come after it. -/
theorem Format.field {p : Reader ε α} {okp : α → Prop} {wp : α → Bytes} (h : Format p okp wp) (get : β → α)
    {f : α → Reader ε β} (hf : ∀ a, FormatOf (fun b => known b ∧ a = get b) (f a) ok w) :
    FormatOf known (p >>= f) (fun b => okp (get b) ∧ ok b) (fun b => wp (get b) ++ w b) := by
  intro u b
  rw [h.reads_bind]
  constructor
  · rintro ⟨a, ha, v, rfl, hv⟩
    obtain ⟨⟨hknown, rfl⟩, hok, rfl⟩ := (hf a v b).mp hv
    exact ⟨hknown, ⟨ha, hok⟩, rfl⟩
  · rintro ⟨hknown, ⟨ha, hok⟩, rfl⟩
    exact ⟨get b, ha, w b, rfl, (hf _ _ b).mpr ⟨⟨hknown, rfl⟩, hok, rfl⟩⟩

/-- A check of what is known. -/
theorem FormatOf.check [Decidable c] {e : ε} {f : Unit → Reader ε β} (h : ∀ x, FormatOf known (f x) ok w)
    (bad : β → Prop) (hc : ∀ b, known b → (c ↔ bad b)) :
    FormatOf known (refuse c e >>= f) (fun b => ¬ bad b ∧ ok b) w := by
  intro u b
  rw [reads_refuse_bind, h () u b, and_left_comm, and_assoc]
  exact and_congr_right fun hknown => by rw [hc b hknown]

/-- The record, of which everything is known. -/
theorem formatOf_pure {x : β} (h : ∀ b, known b ↔ x = b) :
    FormatOf known (pure x : Reader ε β) (fun _ => True) fun _ => [] := by
  intro u b
  rw [reads_pure, h, true_and, and_comm]

theorem FormatOf.format {p : Reader ε β} {ok' : β → Prop} {w' : β → Bytes} (h : FormatOf (fun _ => True) p ok w)
    (hok : ∀ b, ok b ↔ ok' b) (hw : ∀ b, w b = w' b) : Format p ok' w' := by
  intro u b
  rw [h u b, true_and, hok, hw]

end Records

/-! ## Readers with a state -/

section Iterate
variable {S : Type}

/-- Every element of a list is right in the state in which its turn comes. -/
def AllFrom (ok : S → α → Prop) (next : S → α → S) : S → List α → Prop
  | _, [] => True
  | s, a :: as => ok s a ∧ AllFrom ok next (next s a) as

theorem reads_iterate {p : S → Reader ε (α × S)} {ok : S → α → Prop} {next : S → α → S} {w : α → Bytes}
    (hp : ∀ s u a s', (p s).Reads u (a, s') ↔ ok s a ∧ s' = next s a ∧ u = w a) :
    ∀ n s u as s', (iterate p n s).Reads u (as, s') ↔
      as.length = n ∧ AllFrom ok next s as ∧ s' = as.foldl next s ∧ u = (as.map w).flatten := by
  intro n
  induction n with
  | zero =>
    intro s u as s'
    rw [iterate, reads_pure]
    constructor
    · rintro ⟨rfl, h⟩
      cases h
      exact ⟨rfl, trivial, rfl, rfl⟩
    · rintro ⟨hlen, -, rfl, rfl⟩
      obtain rfl := length_eq_zero_iff.mp hlen
      exact ⟨rfl, rfl⟩
  | succ n ih =>
    intro s u as s'
    rw [iterate, reads_bind]
    constructor
    · rintro ⟨⟨a, s₁⟩, v, v', rfl, hv, hv'⟩
      obtain ⟨⟨as₁, s₂⟩, z, z', rfl, hz, hz'⟩ := reads_bind.mp hv'
      obtain ⟨rfl, h⟩ := reads_pure.mp hz'
      cases h
      obtain ⟨hok, rfl, rfl⟩ := (hp s v a s₁).mp hv
      obtain ⟨hlen, hall, rfl, rfl⟩ := (ih _ z as₁ _).mp hz
      exact ⟨congrArg Nat.succ hlen, ⟨hok, hall⟩, rfl, by simp⟩
    · rintro ⟨hlen, hall, rfl, rfl⟩
      cases as with
      | nil => cases hlen
      | cons a as =>
        have hx : (p s).Reads (w a) (a, next s a) := (hp s ..).mpr ⟨hall.1, rfl, rfl⟩
        have hxs := (ih (next s a) _ as _).mpr ⟨Nat.succ.inj hlen, hall.2, rfl, rfl⟩
        refine ⟨_, w a, (as.map w).flatten, rfl, hx, ?_⟩
        exact reads_bind.mpr ⟨_, _, [], by simp, hxs, reads_pure.mpr ⟨rfl, rfl⟩⟩

end Iterate

/-! ## Two readers that do the same -/

section Sim
variable {γ δ : Type} {R : α → β → Prop} {R' : γ → δ → Prop}

/-- On every stream both fail with the same error, or both take the same bytes and give related values. -/
def Sim (R : α → β → Prop) (p : Reader ε α) (q : Reader ε β) : Prop :=
  ∀ s, (∃ e, p.run s = .error e ∧ q.run s = .error e) ∨
    ∃ a b rest, p.run s = .ok (a, rest) ∧ q.run s = .ok (b, rest) ∧ R a b

theorem sim_pure {a : α} {b : β} (h : R a b) : Sim R (pure a : Reader ε α) (pure b) :=
  fun s => .inr ⟨a, b, s, rfl, rfl, h⟩

variable {p : Reader ε α} {q : Reader ε β}

theorem Sim.bind {f : α → Reader ε γ} {g : β → Reader ε δ} (h : Sim R p q) (hf : ∀ a b, R a b → Sim R' (f a) (g b)) :
    Sim R' (p >>= f) (q >>= g) := by
  intro s
  rcases h s with ⟨e, hp, hq⟩ | ⟨a, b, rest, hp, hq, hR⟩
  · exact .inl ⟨e, run_bind_error hp, run_bind_error hq⟩
  · rw [run_bind_ok hp, run_bind_ok hq]
    exact hf a b hR rest

/-- Both begin with the same reader. -/
theorem sim_after {f : α → Reader ε γ} {g : α → Reader ε δ} (p : Reader ε α)
    (h : ∀ u a, p.Reads u a → Sim R' (f a) (g a)) : Sim R' (p >>= f) (p >>= g) := by
  intro s
  cases hrun : p.run s with
  | error e => exact .inl ⟨e, run_bind_error hrun, run_bind_error hrun⟩
  | ok r =>
    obtain ⟨u, -, hu⟩ := run_eq_ok.mp hrun
    rw [run_bind_ok hrun, run_bind_ok hrun]
    exact h u r.1 hu r.2

/-- Both begin with the same check. -/
theorem sim_refuse [Decidable c] {e : ε} {f : Unit → Reader ε γ} {g : Unit → Reader ε δ}
    (h : ¬ c → Sim R' (f ()) (g ())) : Sim R' (refuse c e >>= f) (refuse c e >>= g) := by
  apply sim_after
  intro u _ hu
  exact h (reads_refuse.mp hu).1

/-- The value on the right was read from something. -/
theorem Sim.reads_right (h : Sim R p q) : Sim (fun a b => R a b ∧ ∃ u, q.Reads u b) p q := by
  intro s
  rcases h s with herror | ⟨a, b, rest, hp, hq, hR⟩
  · exact .inl herror
  · obtain ⟨u, -, hu⟩ := run_eq_ok.mp hq
    exact .inr ⟨a, b, rest, hp, hq, hR, u, hu⟩

/-- One of the two returns only a part of what it has read. -/
theorem Sim.map_left {f : α → γ} {R' : γ → β → Prop} (h : Sim R p q) (hf : ∀ a b, R a b → R' (f a) b) :
    Sim R' (p >>= fun a => pure (f a)) q := by
  intro s
  rcases h s with ⟨e, hp, hq⟩ | ⟨a, b, rest, hp, hq, hR⟩
  · exact .inl ⟨e, run_bind_error hp, hq⟩
  · exact .inr ⟨f a, b, rest, run_bind_ok hp, hq, hf a b hR⟩

theorem Sim.eq {q : Reader ε α} (h : Sim Eq p q) : p = q := by
  have hrun : p.run = q.run := by
    funext s
    rcases h s with ⟨e, hp, hq⟩ | ⟨a, b, rest, hp, hq, rfl⟩
    · rw [hp, hq]
    · rw [hp, hq]
  cases p
  cases q
  congr

/-- Related states go on as related states, and results that are related in one stay related in all later ones. -/
theorem sim_iterate {S T : Type} {RS : S → T → Prop} {le : S → S → Prop} {Q : S → α → β → Prop}
    {p : S → Reader ε (α × S)} {q : T → Reader ε (β × T)} (hrefl : ∀ s, le s s)
    (htrans : ∀ {s s' s''}, le s s' → le s' s'' → le s s'')
    (hQ : ∀ {s s' a b}, le s s' → Q s a b → Q s' a b)
    (hp : ∀ s t, RS s t → Sim (fun x y => RS x.2 y.2 ∧ le s x.2 ∧ Q x.2 x.1 y.1) (p s) (q t)) :
    ∀ n s t, RS s t →
      Sim (fun x y => RS x.2 y.2 ∧ le s x.2 ∧ Forall₂ (Q x.2) x.1 y.1) (iterate p n s) (iterate q n t) := by
  intro n
  induction n with
  | zero =>
    intro s t hst
    exact sim_pure ⟨hst, hrefl s, Forall₂.nil⟩
  | succ n ih =>
    intro s t hst
    apply (hp s t hst).bind
    rintro x y ⟨hxy, hle, hq⟩
    apply (ih x.2 y.2 hxy).bind
    rintro xs ys ⟨hxys, hles, hqs⟩
    exact sim_pure ⟨hxys, htrans hle hles, Forall₂.cons (hQ hles hq) hqs⟩

/-- A state that makes no difference to what is read. -/
theorem sim_iterate_times {S : Type} {I : S → Prop} {p : S → Reader ε (α × S)} {q : Reader ε α}
    (hp : ∀ s, I s → Sim (fun x a => x.1 = a ∧ I x.2) (p s) q) :
    ∀ n s, I s → Sim (fun x as => x.1 = as ∧ I x.2) (iterate p n s) (times n q) := by
  intro n
  induction n with
  | zero =>
    intro s hs
    exact sim_pure ⟨rfl, hs⟩
  | succ n ih =>
    intro s hs
    apply (hp s hs).bind
    rintro x a ⟨rfl, hx⟩
    apply (ih x.2 hx).bind
    rintro xs as ⟨rfl, hxs⟩
    exact sim_pure ⟨rfl, hxs⟩

end Sim

/-! ## Fixed widths -/

section Fixed
variable [ReadError ε]

/-- A byte array. -/
def readArray (n : Nat) : Reader ε (FixedBytes n) := FixedBytes.copy n <$> readFull n

theorem format_readArray (n : Nat) :
    Format (readArray n : Reader ε (FixedBytes n)) (fun _ => True) FixedBytes.bytes := by
  intro u a
  rw [readArray, reads_map]
  constructor
  · rintro ⟨v, hv, rfl⟩
    obtain ⟨hlen, rfl⟩ := reads_readFull.mp hv
    exact ⟨trivial, (FixedBytes.copy_bytes hlen).symm⟩
  · rintro ⟨-, rfl⟩
    exact ⟨a.bytes, reads_readFull.mpr ⟨a.length_eq, rfl⟩, FixedBytes.copy_self a⟩

/-- A number of a width, least significant byte first. -/
def readLE (w : Nat) : Reader ε Nat := (fun u => beNat u.reverse) <$> readFull w
def leBytes (w n : Nat) : Bytes := (beBytes w n).reverse

@[simp] theorem length_leBytes (w n : Nat) : (leBytes w n).length = w := by
  rw [leBytes, length_reverse, beBytes_length]

theorem format_readLE (w : Nat) : Format (readLE w : Reader ε Nat) (· < 256 ^ w) (leBytes w) := by
  intro u n
  rw [readLE, reads_map]
  constructor
  · rintro ⟨v, hv, rfl⟩
    obtain ⟨rfl, rfl⟩ := reads_readFull.mp hv
    have hlt := beNat_lt u.reverse
    have hback := beBytes_beNat u.reverse
    rw [length_reverse] at hlt hback
    exact ⟨hlt, by rw [leBytes, hback, reverse_reverse]⟩
  · rintro ⟨hlt, rfl⟩
    refine ⟨leBytes w n, reads_readFull.mpr ⟨length_leBytes w n, rfl⟩, ?_⟩
    rw [leBytes, reverse_reverse, beNat_beBytes_of_lt hlt]

/-- A number of a width, most significant byte first. -/
def readBE (w : Nat) : Reader ε Nat := beNat <$> readFull w

theorem format_readBE (w : Nat) : Format (readBE w : Reader ε Nat) (· < 256 ^ w) (beBytes w) := by
  intro u n
  rw [readBE, reads_map]
  constructor
  · rintro ⟨v, hv, rfl⟩
    obtain ⟨rfl, rfl⟩ := reads_readFull.mp hv
    exact ⟨beNat_lt u, (beBytes_beNat u).symm⟩
  · rintro ⟨hlt, rfl⟩
    exact ⟨beBytes w n, reads_readFull.mpr ⟨beBytes_length w n, rfl⟩, beNat_beBytes_of_lt hlt⟩

/-! ### Go's number types -/

def readUint8 : Reader ε UInt8 := UInt8.ofNat <$> readLE 1
def readUint16LE : Reader ε UInt16 := UInt16.ofNat <$> readLE 2
def readUint16BE : Reader ε UInt16 := UInt16.ofNat <$> readBE 2
def readUint32LE : Reader ε UInt32 := UInt32.ofNat <$> readLE 4
def readUint64LE : Reader ε UInt64 := UInt64.ofNat <$> readLE 8
def readInt32LE : Reader ε Int32 := UInt32.toInt32 <$> readUint32LE
def readInt64LE : Reader ε Int64 := UInt64.toInt64 <$> readUint64LE

theorem format_readUint8 : Format (readUint8 : Reader ε UInt8) (fun _ => True) fun x => [x] := by
  have h := (format_readLE (ε := ε) 1).map (f := UInt8.ofNat) (g := UInt8.toNat)
    (fun a ha => UInt8.toNat_ofNat_of_lt' ha) fun b _ => UInt8.ofNat_toNat
  refine (h.congr_ok fun x => iff_of_true x.toNat_lt trivial).congr_bytes fun x => ?_
  simp [leBytes, beBytes]

theorem format_readUint16LE : Format (readUint16LE : Reader ε UInt16) (fun _ => True) fun x => leBytes 2 x.toNat :=
  ((format_readLE 2).map (fun _ ha => UInt16.toNat_ofNat_of_lt' ha) fun _ _ => UInt16.ofNat_toNat).congr_ok
    fun x => iff_of_true x.toNat_lt trivial

theorem format_readUint16BE : Format (readUint16BE : Reader ε UInt16) (fun _ => True) fun x => beBytes 2 x.toNat :=
  ((format_readBE 2).map (fun _ ha => UInt16.toNat_ofNat_of_lt' ha) fun _ _ => UInt16.ofNat_toNat).congr_ok
    fun x => iff_of_true x.toNat_lt trivial

theorem format_readUint32LE : Format (readUint32LE : Reader ε UInt32) (fun _ => True) putUint32LE :=
  ((format_readLE 4).map (fun _ ha => UInt32.toNat_ofNat_of_lt' ha) fun _ _ => UInt32.ofNat_toNat).congr_ok
    fun x => iff_of_true x.toNat_lt trivial

theorem format_readUint64LE : Format (readUint64LE : Reader ε UInt64) (fun _ => True) fun x => leBytes 8 x.toNat :=
  ((format_readLE 8).map (fun _ ha => UInt64.toNat_ofNat_of_lt' ha) fun _ _ => UInt64.ofNat_toNat).congr_ok
    fun x => iff_of_true x.toNat_lt trivial

theorem format_readInt32LE : Format (readInt32LE : Reader ε Int32) (fun _ => True) fun x => putUint32LE x.toUInt32 :=
  format_readUint32LE.map (fun _ _ => rfl) fun _ _ => rfl

theorem format_readInt64LE :
    Format (readInt64LE : Reader ε Int64) (fun _ => True) fun x => leBytes 8 x.toUInt64.toNat :=
  format_readUint64LE.map (fun _ _ => rfl) fun _ _ => rfl

end Fixed
end Reader
end NogoCommons.Lib
