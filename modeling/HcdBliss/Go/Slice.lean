import HcdBliss.Go.Basic

/-!
# Byte slices that share one backing array

Each constructor of the adapter makes one byte array `ret` and writes it through sub-slices of
it (`s1part := ret[1 : 1+n]`, `z2left := z2part[:n]`, ...). A slice is a window of the backing
array; a store through it is bounds-checked against the window and writes the array.

* `Buf`: the backing array, and the positions its stores have written, in order. The record of
  positions is ghost state: no code reads it; the theorems about which positions a run writes
  are stated over it.
* `make`, `Slice.sub` and `store` are `make([]byte, size)`, `s[lo:hi]` and `s[i] = v`, with
  their spec lemmas (`sub_ok`, `store_ok`).
* `writeAt bs off vs`: the array after consecutive stores of `vs` from `off` on.
  `forRange_fill` is the run lemma of a loop that writes a region chunk by chunk, in order:
  it leaves the region holding its bytes and records its positions once each.
-/

namespace HcdBliss

/-- The backing array of `ret`, and the positions its stores have written, in order. -/
structure Buf where
  bytes : List UInt8
  written : List Nat
  deriving DecidableEq, Repr

/-- A `[]byte` over the buffer: the window `[off, off + len)`, which a slice expression can
extend up to `off + cap`. -/
structure Slice where
  off : Nat
  len : Nat
  cap : Nat
  deriving DecidableEq, Repr

/-- `ret := make([]byte, size)`: a zeroed array, and the slice of all of it. -/
def make (size : Nat) : Buf × Slice :=
  (⟨List.replicate size 0, []⟩, ⟨0, size, size⟩)

/-- The slice expression `s[lo:hi]`; it panics unless `lo ≤ hi ≤ cap(s)`. `s[lo:]` is
`s.sub lo s.len` and `s[:hi]` is `s.sub 0 hi`. -/
def Slice.sub (s : Slice) (lo hi : Nat) : Except Panic Slice :=
  if lo ≤ hi ∧ hi ≤ s.cap then pure ⟨s.off + lo, hi - lo, s.cap - lo⟩
  else throw .sliceBoundsOutOfRange

/-- `s[i] = v`; it panics unless `i < len(s)`. -/
def store (b : Buf) (s : Slice) (i : Nat) (v : UInt8) : Except Panic Buf :=
  if i < s.len then pure ⟨b.bytes.set (s.off + i) v, b.written ++ [s.off + i]⟩
  else throw .indexOutOfRange

section Lemmas

variable {b : Buf} {s : Slice} {i lo hi : Nat} {v : UInt8}

theorem sub_ok (h₁ : lo ≤ hi) (h₂ : hi ≤ s.cap) :
    s.sub lo hi = .ok ⟨s.off + lo, hi - lo, s.cap - lo⟩ := by
  simp [Slice.sub, h₁, h₂]; rfl

/-- `sub_ok` with the window's bounds given in any form. -/
theorem sub_eq {off len cap : Nat} (h₁ : lo ≤ hi) (h₂ : hi ≤ s.cap) (ho : off = s.off + lo)
    (hl : len = hi - lo) (hc : cap = s.cap - lo) : s.sub lo hi = .ok ⟨off, len, cap⟩ := by
  subst ho hl hc; exact sub_ok h₁ h₂

theorem store_ok (h : i < s.len) :
    store b s i v = .ok ⟨b.bytes.set (s.off + i) v, b.written ++ [s.off + i]⟩ := by
  simp [store, h]; rfl

theorem store_panic (h : s.len ≤ i) : store b s i v = .error .indexOutOfRange := by
  simp [store, Nat.not_lt.mpr h]; rfl

theorem sub_panic (h : ¬ (lo ≤ hi ∧ hi ≤ s.cap)) : s.sub lo hi = .error .sliceBoundsOutOfRange := by
  simp only [Slice.sub, h, if_false]; rfl

end Lemmas

/-- Two more stores in order extend the positions written `0, 1, …`. -/
theorem range_add_two (m : Nat) : List.range (m + 2) = List.range m ++ [m, m + 1] := by
  simp [List.range_succ]

/-- Two runs of positions, the second starting where the first stops, are one run. -/
theorem range'_chain {s s' m k : Nat} (h : s' = s + m) :
    List.range' s m ++ List.range' s' k = List.range' s (m + k) := by
  rw [h, List.range'_append_1, Nat.add_comm]

@[simp] theorem make_bytes (size : Nat) : (make size).1.bytes = List.replicate size 0 := rfl
@[simp] theorem make_written (size : Nat) : (make size).1.written = [] := rfl
@[simp] theorem make_slice (size : Nat) : (make size).2 = ⟨0, size, size⟩ := rfl

/-! ## Consecutive stores -/

/-- `bs` with `vs` written from position `off` on. -/
def writeAt (bs : List UInt8) (off : Nat) (vs : List UInt8) : List UInt8 :=
  bs.take off ++ vs ++ bs.drop (off + vs.length)

section WriteAt

variable {bs vs xs ys : List UInt8} {off : Nat}

theorem length_writeAt (h : off + vs.length ≤ bs.length) :
    (writeAt bs off vs).length = bs.length := by
  simp [writeAt]; omega

theorem getElem?_writeAt (h : off ≤ bs.length) (p : Nat) :
    (writeAt bs off vs)[p]? = if off ≤ p ∧ p < off + vs.length then vs[p - off]? else bs[p]? := by
  have ht : (bs.take off).length = off := by simp; omega
  unfold writeAt
  rw [List.append_assoc]
  by_cases h1 : p < off
  · rw [List.getElem?_append_left (by omega), List.getElem?_take_of_lt h1, if_neg (by omega)]
  · rw [List.getElem?_append_right (by omega), ht]
    by_cases h2 : p < off + vs.length
    · rw [List.getElem?_append_left (by omega), if_pos ⟨by omega, h2⟩]
    · rw [List.getElem?_append_right (by omega), List.getElem?_drop, if_neg (by omega)]
      congr 1; omega

/-- Writing `xs` and then `ys` right after it is writing `xs ++ ys`. -/
theorem writeAt_append (h : off + xs.length + ys.length ≤ bs.length) :
    writeAt (writeAt bs off xs) (off + xs.length) ys = writeAt bs off (xs ++ ys) := by
  apply List.ext_getElem?
  intro p
  rw [getElem?_writeAt (by rw [length_writeAt (by omega)]; omega), getElem?_writeAt (by omega),
    getElem?_writeAt (by omega), List.length_append]
  by_cases h1 : off + xs.length ≤ p ∧ p < off + xs.length + ys.length
  · rw [if_pos h1, if_pos ⟨by omega, by omega⟩, List.getElem?_append_right (by omega)]
    congr 1; omega
  · rw [if_neg h1]
    by_cases h2 : off ≤ p ∧ p < off + xs.length
    · rw [if_pos h2, if_pos ⟨h2.1, by omega⟩, List.getElem?_append_left (by omega)]
    · rw [if_neg h2, if_neg (by omega)]

/-- A write at the front keeps the rest of the array. -/
theorem writeAt_zero : writeAt bs 0 vs = vs ++ bs.drop vs.length := by
  simp [writeAt]

/-- A write just after a prefix keeps the prefix and the rest of the array. -/
theorem writeAt_length_append : writeAt (xs ++ ys) xs.length vs = xs ++ vs ++ ys.drop vs.length := by
  simp [writeAt, List.drop_append_eq_append_drop]

/-- One store is a write of one byte. -/
theorem set_eq_writeAt {p : Nat} {v : UInt8} (h : p < bs.length) : bs.set p v = writeAt bs p [v] := by
  apply List.ext_getElem?
  intro q
  rw [List.getElem?_set, getElem?_writeAt (by omega)]
  by_cases hq : p = q
  · subst hq; simp [h]
  · rw [if_neg hq, if_neg (by simp; omega)]

end WriteAt

/-- A store as a write of one byte. -/
theorem store_writeAt {b : Buf} {s : Slice} {i : Nat} {v : UInt8} (hi : i < s.len)
    (hb : s.off + i < b.bytes.length) :
    store b s i v = .ok ⟨writeAt b.bytes (s.off + i) [v], b.written ++ List.range' (s.off + i) 1⟩ := by
  rw [store_ok hi, set_eq_writeAt hb]; rfl

/-- Two stores to consecutive positions as a write of two bytes. -/
theorem store_store_writeAt {b : Buf} {s : Slice} {i : Nat} {v w : UInt8} (hi : i + 1 < s.len)
    (hb : s.off + i + 1 < b.bytes.length) :
    (store b s i v >>= fun b => store b s (i + 1) w) =
      .ok ⟨writeAt b.bytes (s.off + i) [v, w], b.written ++ List.range' (s.off + i) 2⟩ := by
  have e := @writeAt_append b.bytes [v] [w] (s.off + i) (by simp; omega)
  rw [store_writeAt (by omega) (by omega), ok_bind,
    store_writeAt hi (by rw [length_writeAt (by simp; omega)]; omega)]
  simp only [List.length_singleton, List.singleton_append, ← Nat.add_assoc] at e
  simp [← Nat.add_assoc, e, List.range'_succ]

/-- A chunk of a `flatMap` whose pieces all have `w` elements is the piece of its element. -/
theorem flatMap_chunk {α β : Type} {g : α → List β} {w : Nat} (hw : ∀ x, (g x).length = w) :
    ∀ (xs : List α) (i : Nat) (hi : i < xs.length), ((xs.flatMap g).drop (w * i)).take w = g xs[i]
  | x :: _, 0, _ => by simp [List.take_left' (hw x)]
  | x :: xs, i + 1, hi => by
    rw [List.flatMap_cons, show w * (i + 1) = (g x).length + w * i by rw [hw, Nat.mul_succ]; omega,
      List.drop_append]
    exact flatMap_chunk hw xs i (by simpa using hi)

/-- A chunk of one element of a `map`. -/
theorem map_chunk {α β : Type} (g : α → β) (xs : List α) {i : Nat} (hi : i < xs.length) :
    ((xs.map g).drop i).take 1 = [g xs[i]] := by
  rw [List.drop_eq_getElem_cons (by simpa using hi)]
  simp

/-- An element of a chunk, read in the whole list. -/
theorem getElem?_of_chunk {α : Type} {L u : List α} {off w j : Nat} (h : (L.drop off).take w = u)
    (hj : j < w) : L[off + j]? = u[j]? := by
  rw [← h, List.getElem?_take_of_lt hj, List.getElem?_drop]

/-- A chunk inside the first of two lists. -/
theorem chunk_append {α : Type} {A R : List α} {off w : Nat} (h : off + w ≤ A.length) :
    ((A ++ R).drop off).take w = (A.drop off).take w := by
  rw [List.drop_append_of_le_length (by omega), List.take_append_of_le_length (by simp; omega)]

/-- Two concatenations whose first parts have one length are equal exactly when the parts are. -/
theorem append_eq_append_iff_of_length {α : Type} {s₁ s₂ t₁ t₂ : List α}
    (h : s₁.length = s₂.length) : s₁ ++ t₁ = s₂ ++ t₂ ↔ s₁ = s₂ ∧ t₁ = t₂ :=
  ⟨fun e => List.append_inj e h, fun ⟨e₁, e₂⟩ => e₁ ▸ e₂ ▸ rfl⟩

theorem drop_append_of_eq {α : Type} {A R : List α} {k : Nat} (h : k = A.length) :
    (A ++ R).drop k = R := by
  subst h
  exact List.drop_left A R

theorem drop_append_add {α : Type} {A R : List α} {k m : Nat} (h : k = A.length) :
    (A ++ R).drop (k + m) = R.drop m := by
  subst h
  exact List.drop_append m

theorem length_flatMap_const {α β : Type} {g : α → List β} {w : Nat} (hw : ∀ x, (g x).length = w) :
    ∀ xs : List α, (xs.flatMap g).length = w * xs.length
  | [] => rfl
  | x :: xs => by simp [hw x, length_flatMap_const hw xs, Nat.mul_succ]; omega

/-- The run lemma of a loop that fills the region `[off, off + w*n)` of the array with `vals`,
`w` bytes an iteration, in order: it returns the array with the region written, and each
position of the region recorded once, in order. -/
theorem forRange_fill {body : Nat → Buf → Except Panic Buf} {n w off : Nat} {vals : List UInt8}
    {b₀ : Buf} (hlen : vals.length = w * n) (hfit : off + w * n ≤ b₀.bytes.length)
    (step : ∀ i (b : Buf), i < n → b.bytes.length = b₀.bytes.length →
      body i b = .ok ⟨writeAt b.bytes (off + w * i) ((vals.drop (w * i)).take w),
        b.written ++ List.range' (off + w * i) w⟩) :
    forRange n body b₀ = .ok ⟨writeAt b₀.bytes off vals, b₀.written ++ List.range' off (w * n)⟩ := by
  have hstep : ∀ i (t : Buf), i < n →
      t = ⟨writeAt b₀.bytes off (vals.take (w * i)), b₀.written ++ List.range' off (w * i)⟩ →
      ∃ t', body i t = .ok t' ∧ t' = ⟨writeAt b₀.bytes off (vals.take (w * (i + 1))),
        b₀.written ++ List.range' off (w * (i + 1))⟩ := by
    rintro i t hi rfl
    have hk : (vals.take (w * i)).length = w * i := by
      simp only [List.length_take]; have := Nat.mul_le_mul_left w hi.le; omega
    have hmul : w * i + w ≤ w * n := by rw [← Nat.mul_succ]; exact Nat.mul_le_mul_left w hi
    have e := @writeAt_append b₀.bytes (vals.take (w * i)) ((vals.drop (w * i)).take w) off
      (by simp only [List.length_take]; omega)
    rw [hk, ← List.take_add] at e
    refine ⟨_, step i _ hi (length_writeAt (by omega)), ?_⟩
    rw [show w * (i + 1) = w * i + w from Nat.mul_succ w i, e, List.append_assoc,
      List.range'_append_1, Nat.add_comm w]
  obtain ⟨t, ht, rfl⟩ := @forRange_inv Buf body b₀ n _ (by simp [writeAt]) hstep
  rwa [List.take_of_length_le (by omega)] at ht

end HcdBliss
