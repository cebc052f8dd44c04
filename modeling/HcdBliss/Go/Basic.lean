import Mathlib.Data.String.Basic
import Mathlib.Algebra.Group.Int

/-!
# The fragment of Go that the BLISS adapter runs on

The adapter (`crypto/bliss`, `newBlissDSA`) is sequential Go with no I/O of its own. It can
fail only by a run-time panic: an index out of range, a slice expression out of range, a
failed type assertion, or a read through a nil pointer. A Go computation is `Except Panic α`.

* `Iface`: a value of an interface type (`dcrcrypto.PrivateKey`, `dcrcrypto.PublicKey`,
  `dcrcrypto.Signature`) holding one of the adapter's structs `T`: `nil`, a `T`, a `*T`, or a
  nil `*T`. `Iface.assertVal` and `Iface.assertPtr` are the type assertions `x.(T)` and
  `x.(*T)`; `deref` reads through the pointer that `x.(*T)` returns.
* `u32`: `uint32` arithmetic, which wraps modulo `2^32`.
* The integer conversions the adapter writes into byte arrays (`byte(x)`, `uint16(x)`), with
  `Go`'s `int32` as `BitVec 32`, and their `toNat` lemmas.
* `index`: `xs[i]` on a slice that the adapter only reads.
* `forRange n body`: `for i := 0; i < n; i++ { body }`. `forRange_inv` is its run lemma (an
  invariant that every iteration keeps holds when the loop returns, and the loop does return);
  `forRange_panic` says that a panic in one iteration is the loop's result.
-/

namespace HcdBliss

/-- The run-time panics that the adapter's code can raise. -/
inductive Panic where
  /-- `a[i]` with `i ≥ len(a)`. -/
  | indexOutOfRange
  /-- `a[lo:hi]` without `0 ≤ lo ≤ hi ≤ cap(a)`. -/
  | sliceBoundsOutOfRange
  /-- `x.(T)` on a value whose dynamic type is not `T`. -/
  | typeAssertion
  /-- A read through a nil pointer. -/
  | nilDereference
  deriving DecidableEq, Repr

@[simp] theorem ok_bind {α β : Type} (a : α) (f : α → Except Panic β) :
    (Except.ok a >>= f) = f a := rfl

@[simp] theorem error_bind {α β : Type} (p : Panic) (f : α → Except Panic β) :
    (Except.error p >>= f) = .error p := rfl

/-- A computation that returns ran each of its two parts to a result. -/
theorem bind_eq_ok {α β : Type} {x : Except Panic α} {f : α → Except Panic β} {r : β} :
    (x >>= f) = .ok r ↔ ∃ a, x = .ok a ∧ f a = .ok r := by
  cases x <;> simp

/-- A computation followed by a step that always returns panics exactly when the computation
does. -/
theorem bind_eq_error_of_ok {α β : Type} {x : Except Panic α} {f : α → Except Panic β} {p : Panic}
    (hf : ∀ a, ∃ b, f a = .ok b) : (x >>= f) = .error p ↔ x = .error p := by
  cases x with
  | error => simp
  | ok a => obtain ⟨b, hb⟩ := hf a; simp [hb]

/-! ## Interface values -/

/-- A value of a Go interface type holding one of the adapter's structs `α`. The model keeps the
pointee: the adapter never writes through these pointers. -/
inductive Iface (α : Type) where
  /-- The nil interface. -/
  | nil
  /-- An `α`. -/
  | val (a : α)
  /-- A non-nil `*α`. -/
  | ptr (a : α)
  /-- A nil `*α`: the interface is not nil, and its dynamic type is `*α`. -/
  | nilPtr
  deriving DecidableEq, Repr

namespace Iface

variable {α : Type}

/-- The type assertion `x.(T)`. -/
def assertVal : Iface α → Except Panic α
  | val a => pure a
  | _ => throw .typeAssertion

/-- The type assertion `x.(*T)`: the pointer, `none` for a nil `*T`. -/
def assertPtr : Iface α → Except Panic (Option α)
  | ptr a => pure (some a)
  | nilPtr => pure none
  | _ => throw .typeAssertion

@[simp] theorem assertVal_val (a : α) : (val a).assertVal = .ok a := rfl
@[simp] theorem assertVal_ptr (a : α) : (ptr a).assertVal = .error .typeAssertion := rfl
@[simp] theorem assertVal_nilPtr : (nilPtr : Iface α).assertVal = .error .typeAssertion := rfl
@[simp] theorem assertVal_nil : (nil : Iface α).assertVal = .error .typeAssertion := rfl
@[simp] theorem assertPtr_ptr (a : α) : (ptr a).assertPtr = .ok (some a) := rfl
@[simp] theorem assertPtr_nilPtr : (nilPtr : Iface α).assertPtr = .ok none := rfl
@[simp] theorem assertPtr_val (a : α) : (val a).assertPtr = .error .typeAssertion := rfl
@[simp] theorem assertPtr_nil : (nil : Iface α).assertPtr = .error .typeAssertion := rfl

end Iface

/-- A read through a pointer (`p.f`, or a method of an embedded field): it panics on nil. -/
def deref {α : Type} : Option α → Except Panic α
  | some a => pure a
  | none => throw .nilDereference

@[simp] theorem deref_some {α : Type} (a : α) : deref (some a) = .ok a := rfl
@[simp] theorem deref_none {α : Type} : deref (none : Option α) = .error .nilDereference := rfl

/-! ## Integer conversions

`int32` is `BitVec 32`, two's complement; `byte`, `uint16` and `uint32` are `UInt8`, `UInt16`
and `UInt32`. A conversion to a narrower type keeps the low bits. -/

/-- `byte(x)` of an `int32`. -/
def byteOfInt32 (x : BitVec 32) : UInt8 := ⟨x.setWidth 8⟩

/-- `uint16(x)` of an `int32`. -/
def uint16OfInt32 (x : BitVec 32) : UInt16 := ⟨x.setWidth 16⟩

/-- `byte(v)` of an `int`. -/
def byteOfInt (v : Int) : UInt8 := ⟨BitVec.ofInt 8 v⟩

/-- The result of `uint32` arithmetic on values given as natural numbers. -/
def u32 (x : Nat) : Nat := x % 2 ^ 32

theorem u32_of_lt {x : Nat} (h : x < 2 ^ 32) : u32 x = x := Nat.mod_eq_of_lt h

/-- `byte(v)` keeps `v` modulo `256`. -/
theorem toNat_byteOfInt (v : Int) : (byteOfInt v).toNat = (v % 256).toNat :=
  BitVec.toNat_ofInt v

theorem byteOfInt_eq_iff {v w : Int} : byteOfInt v = byteOfInt w ↔ v % 256 = w % 256 := by
  rw [UInt8.ext_iff, toNat_byteOfInt, toNat_byteOfInt]
  omega

@[simp] theorem toNat_byteOfInt32 (x : BitVec 32) : (byteOfInt32 x).toNat = x.toNat % 2 ^ 8 :=
  BitVec.toNat_setWidth 8 x

@[simp] theorem toNat_uint16OfInt32 (x : BitVec 32) :
    (uint16OfInt32 x).toNat = x.toNat % 2 ^ 16 :=
  BitVec.toNat_setWidth 16 x

/-- The high byte of a `uint16`: `byte(u >> 8)`. -/
@[simp] theorem toNat_toUInt8_shiftRight (u : UInt16) :
    (u >>> 8).toUInt8.toNat = u.toNat / 2 ^ 8 := by
  have h : (u >>> 8).toNat = u.toNat / 2 ^ 8 := by
    show (u.toBitVec >>> (8 : Nat)).toNat = _
    rw [BitVec.toNat_ushiftRight, Nat.shiftRight_eq_div_pow]; rfl
  have := u.toNat_lt
  rw [UInt16.toUInt8_toNat, h]
  omega

/-- The low byte of a `uint16`: `byte(u & 0xff)`. -/
@[simp] theorem toNat_toUInt8_and (u : UInt16) : (u &&& 0xff).toUInt8.toNat = u.toNat % 2 ^ 8 := by
  have h : (u &&& 0xff).toNat = u.toNat % 2 ^ 8 := by
    show (u.toBitVec &&& (255 : UInt16).toBitVec).toNat = _
    rw [BitVec.toNat_and]
    exact Nat.and_pow_two_sub_one_eq_mod u.toNat 8
  rw [UInt16.toUInt8_toNat, h, Nat.mod_mod]

/-- A `uint16` is its two bytes, high byte first. -/
theorem uint16_bytes (u : UInt16) :
    (u >>> 8).toUInt8.toNat * 2 ^ 8 + (u &&& 0xff).toUInt8.toNat = u.toNat := by
  simp only [toNat_toUInt8_shiftRight, toNat_toUInt8_and]
  omega

/-- A `uint16` as two bytes, high byte first: `byte(u >> 8)`, `byte(u & 0xff)`. -/
def uint16Bytes (u : UInt16) : List UInt8 := [(u >>> 8).toUInt8, (u &&& 0xff).toUInt8]

@[simp] theorem length_uint16Bytes (u : UInt16) : (uint16Bytes u).length = 2 := rfl

theorem uint16Bytes_inj {u w : UInt16} (h : uint16Bytes u = uint16Bytes w) : u = w := by
  simp only [uint16Bytes, List.cons.injEq, and_true] at h
  have hu := uint16_bytes u
  rw [h.1, h.2] at hu
  exact UInt16.toNat.inj (hu.symm.trans (uint16_bytes w))

/-- Two lists written as `uint16`s give the same bytes exactly when they have the same
`uint16`s. -/
theorem flatMap_uint16Bytes_eq_iff {α β : Type} {g : α → UInt16} {h : β → UInt16}
    (xs : List α) (ys : List β) : (xs.flatMap fun x => uint16Bytes (g x)) =
      (ys.flatMap fun y => uint16Bytes (h y)) ↔ xs.map g = ys.map h := by
  induction xs generalizing ys with
  | nil => cases ys <;> simp [uint16Bytes]
  | cons x xs ih =>
    cases ys with
    | nil => simp [uint16Bytes]
    | cons y ys =>
      rw [List.flatMap_cons, List.flatMap_cons, List.map_cons, List.map_cons, List.cons_eq_cons,
        ← ih]
      exact ⟨fun e => (List.append_inj e (by simp)).imp_left uint16Bytes_inj,
        fun ⟨e₁, e₂⟩ => by rw [e₁, e₂]⟩

/-- Two lists have the same images under `g'` and `g` exactly when they have the same images
under `k'` and `k`, for maps that identify the same pairs of elements. -/
theorem map_eq_map_iff_of_eq_iff {α β γ δ : Type} {g' : α → γ} {g : β → γ} {k' : α → δ}
    {k : β → δ} (h : ∀ x y, g' x = g y ↔ k' x = k y) (xs : List α) (ys : List β) :
    xs.map g' = ys.map g ↔ xs.map k' = ys.map k := by
  induction xs generalizing ys with
  | nil => cases ys <;> simp
  | cons x xs ih => cases ys <;> simp [h, ih]

/-- `uint16(x)` keeps the low 16 bits of `x`. -/
theorem uint16OfInt32_eq_iff {x y : BitVec 32} :
    uint16OfInt32 x = uint16OfInt32 y ↔ x.toNat % 2 ^ 16 = y.toNat % 2 ^ 16 := by
  rw [UInt16.ext_iff, toNat_uint16OfInt32, toNat_uint16OfInt32]

/-- An `int32` in `[0, 2^16)` is its `uint16`. -/
theorem toNat_of_toInt_lt {x : BitVec 32} (h0 : 0 ≤ x.toInt) (h : x.toInt < 2 ^ 16) :
    x.toNat < 2 ^ 16 ∧ (x.toNat : Int) = x.toInt := by
  have := BitVec.toInt_eq_toNat_cond x
  split at this <;> omega

/-! ## Reads and loops -/

/-- `xs[i]` on a slice that the adapter reads: a panic past its end. -/
def index {α : Type} (xs : List α) (i : Nat) : Except Panic α :=
  match xs[i]? with
  | some a => pure a
  | none => throw .indexOutOfRange

theorem index_of_lt {α : Type} {xs : List α} {i : Nat} (h : i < xs.length) :
    index xs i = .ok xs[i] := by
  simp [index, List.getElem?_eq_getElem h]; rfl

theorem index_of_le {α : Type} {xs : List α} {i : Nat} (h : xs.length ≤ i) :
    index xs i = .error .indexOutOfRange := by
  simp [index, List.getElem?_eq_none h]; rfl

/-- `for i := 0; i < n; i++ { body }`: the iterations `0, …, n - 1` in order, on the state the
body updates; the first panic ends the loop. -/
def forRange {σ : Type} (n : Nat) (body : Nat → σ → Except Panic σ) (s : σ) : Except Panic σ :=
  match n with
  | 0 => pure s
  | k + 1 => forRange k body s >>= body k

section Loop

variable {σ : Type} {body : Nat → σ → Except Panic σ} {s : σ}

/-- The run lemma: an invariant that holds initially and that every iteration keeps holds when
the loop returns, and it returns. -/
theorem forRange_inv {n : Nat} (inv : Nat → σ → Prop) (h0 : inv 0 s)
    (step : ∀ i t, i < n → inv i t → ∃ t', body i t = .ok t' ∧ inv (i + 1) t') :
    ∃ t, forRange n body s = .ok t ∧ inv n t := by
  induction n with
  | zero => exact ⟨s, rfl, h0⟩
  | succ k ih =>
    obtain ⟨t, ht, hi⟩ := ih fun i t hi => step i t (by omega)
    obtain ⟨t', ht', hi'⟩ := step k t (by omega) hi
    exact ⟨t', by rw [forRange, ht]; exact ht', hi'⟩

/-- A panic in iteration `k`, after the iterations before it returned, is the loop's result. -/
theorem forRange_panic {n k : Nat} {t : σ} {p : Panic} (hk : k < n)
    (ht : forRange k body s = .ok t) (hp : body k t = .error p) :
    forRange n body s = .error p := by
  induction n with
  | zero => omega
  | succ m ih =>
    rw [forRange]
    rcases Nat.lt_succ_iff_lt_or_eq.mp hk with h | rfl
    · rw [ih h]; rfl
    · rw [ht]; exact hp

/-- A loop whose iterations before `k` return and whose iteration `k` panics ends in that panic. -/
theorem forRange_panic_at {n k : Nat} {p : Panic} (hk : k < n)
    (hok : ∀ i t, i < k → ∃ t', body i t = .ok t') (hp : ∀ t, body k t = .error p) :
    forRange n body s = .error p := by
  obtain ⟨t, ht, -⟩ := @forRange_inv σ body s k (fun _ _ => True) trivial fun i t hi _ =>
    (hok i t hi).imp fun _ h => ⟨h, trivial⟩
  exact forRange_panic hk ht (hp t)

/-- A loop whose iteration `j` folds `ys[j]` into its state folds all of `ys`. -/
theorem forRange_fold {α : Type} {g : σ → α → σ} {ys : List α}
    (h : ∀ j (hj : j < ys.length) t, body j t = .ok (g t ys[j])) :
    forRange ys.length body s = .ok (ys.foldl g s) := by
  have key : ∀ m, m ≤ ys.length → forRange m body s = .ok ((ys.take m).foldl g s) := by
    intro m
    induction m with
    | zero => intro; rfl
    | succ m ih =>
      intro hm
      rw [forRange, ih (by omega), ok_bind, h m (by omega), List.take_succ,
        List.getElem?_eq_getElem (by omega), Option.toList_some, List.foldl_append]
      rfl
  simpa using key ys.length le_rfl

end Loop

end HcdBliss
