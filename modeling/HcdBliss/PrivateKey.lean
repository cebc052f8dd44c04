import HcdBliss.PublicKey

/-!
# `newPrivateKey`: the byte array of a private key

`newPrivateKey` writes the secret polynomials `s1, s2` into `ret := make([]byte, n*2+1)`
through two sub-slices, `s1part := ret[1 : 1+n]` and `s2part := ret[1+n:]`: the version byte,
then `byte(s1_i + 4)` and `byte(s2_i + 4)`. `bliss.DecodePrivateKey` reads the key from `ret`.
`n*2+1` and `1+n` are computed in `uint32`.

* `privateKeyBytes_inv`: for polynomials of at least `n < 2^31` coefficients, the loop returns,
  and byte `1+i` holds `s1_i + 4` and byte `1+n+i` holds `s2_i + 4`. With fewer coefficients in
  `s1` or `s2` the loop reads past the end of the shorter (`privateKeyBytes_panic`); with
  `n ≥ 2^31`, `ret[1 : 1+n]` is out of range (`privateKeyBytes_slice_panic`); these are all the
  panics (`privateKeyBytes_panic_iff`).
* `newPrivateKey_writes_each_byte_once`: the two sub-slices are disjoint and cover `ret[1:]`, so
  the interleaved stores write each byte once.
* `decodePrivateKey`: the coefficients that the bytes hold; `decodePrivateKey_privateKeyBytes`
  is the round trip for coefficients in `[-4, 251]`, where `byte(x + 4)` is exact.
* `newPrivateKey_bytes_injective`: the layout theorem with its consequence, that two secret
  pairs give the same bytes only if they agree coefficientwise.
* `privateKeyLayout`, `privateKeyBytes_bytes`: the array as one list. `newPrivateKey_bytes_eq_iff`:
  what the array keeps, exactly: the version modulo `256` and the low byte of each
  coefficient.
-/

namespace HcdBliss

variable {K P S E : Type}

/-- One iteration of `newPrivateKey`'s loop. -/
def privateKeyStep (s1data s2data : List (BitVec 32)) (s1part s2part : Slice) (i : Nat) (b : Buf) :
    Except Panic Buf := do
  let b ← store b s1part i (byteOfInt32 ((← index s1data i) + 4))
  store b s2part i (byteOfInt32 ((← index s2data i) + 4))

/-- The array that `newPrivateKey` builds from non-nil `s1, s2` before it calls
`bliss.DecodePrivateKey`. -/
def privateKeyBytes (s1 s2 : PolyArray) : Except Panic Buf := do
  let n := s1.param.n
  let s1data := s1.data
  let s2data := s2.data
  let (b, ret) := make (u32 (n * 2 + 1))
  let b ← store b ret 0 (byteOfInt s1.param.version)
  let s1part ← ret.sub 1 (u32 (1 + n))
  let s2part ← ret.sub (u32 (1 + n)) ret.len
  forRange n (privateKeyStep s1data s2data s1part s2part) b

/-- `newPrivateKey`: `nil` for a nil argument or bytes that the library rejects. -/
def newPrivateKey (lib : Lib K P S E) (s1 s2 a : Option PolyArray) :
    Except Panic (Iface (PrivateKey K)) :=
  match s1, s2, a with
  | some s1, some s2, some _ => do
    let b ← privateKeyBytes s1 s2
    match lib.decodePrivateKey b.bytes with
    | .error _ => pure .nil
    | .ok pk => pure (.ptr ⟨pk⟩)
  | _, _, _ => pure .nil

/-- The secret coefficients that a private key's bytes hold, for `n` coefficients each. -/
def decodePrivateKey (n : Nat) (bs : List UInt8) : List Int × List Int :=
  ((List.range n).map fun i => (bs[1 + i]!.toNat : Int) - 4,
   (List.range n).map fun i => (bs[1 + n + i]!.toNat : Int) - 4)

/-- `byte(x + 4)` is `x + 4` for `x` in `[-4, 251]`. -/
theorem toNat_byteOfInt32_add_four {x : BitVec 32} (h0 : -4 ≤ x.toInt) (h1 : x.toInt ≤ 251) :
    ((byteOfInt32 (x + 4)).toNat : Int) = x.toInt + 4 := by
  have hx := BitVec.toInt_eq_toNat_cond x
  have h4 : (4 : BitVec 32).toNat = 4 := rfl
  have := x.isLt
  simp only [toNat_byteOfInt32, BitVec.toNat_add, h4]
  split at hx <;> omega

/-! ## The loop -/

theorem privateKeyStep_ok {s1data s2data : List (BitVec 32)} {s1part s2part : Slice} {k : Nat}
    {b : Buf} (h1 : k < s1data.length) (h2 : k < s2data.length) (hp1 : k < s1part.len)
    (hp2 : k < s2part.len) :
    privateKeyStep s1data s2data s1part s2part k b = .ok
      ⟨(b.bytes.set (s1part.off + k) (byteOfInt32 (s1data[k] + 4))).set (s2part.off + k)
          (byteOfInt32 (s2data[k] + 4)),
        b.written ++ [s1part.off + k] ++ [s2part.off + k]⟩ := by
  simp only [privateKeyStep, index_of_lt h1, index_of_lt h2, ok_bind, store_ok hp1, store_ok hp2]

/-- What `newPrivateKey` has written after `k` iterations of its loop. -/
def PrivateKeyInv (s1 s2 : PolyArray) (k : Nat) (b : Buf) : Prop :=
  b.bytes.length = 2 * s1.param.n + 1 ∧
  b.bytes[0]? = some (byteOfInt s1.param.version) ∧
  (∀ i < k, b.bytes[1 + i]? = some (byteOfInt32 (s1.data[i]! + 4)) ∧
    b.bytes[1 + s1.param.n + i]? = some (byteOfInt32 (s2.data[i]! + 4))) ∧
  b.written = 0 :: (List.range k).flatMap fun i => [1 + i, 1 + s1.param.n + i]

theorem privateKeyStep_inv {s1 s2 : PolyArray} {k : Nat} {b : Buf} (hk : k < s1.param.n)
    (h1 : s1.param.n ≤ s1.data.length) (h2 : s1.param.n ≤ s2.data.length)
    (hb : PrivateKeyInv s1 s2 k b) :
    ∃ b', privateKeyStep s1.data s2.data ⟨1, s1.param.n, s1.param.n * 2⟩
        ⟨1 + s1.param.n, s1.param.n, s1.param.n⟩ k b = .ok b' ∧
      PrivateKeyInv s1 s2 (k + 1) b' := by
  obtain ⟨hlen, h0, hw, htr⟩ := hb
  have hk1 : k < s1.data.length := by omega
  have hk2 : k < s2.data.length := by omega
  refine ⟨_, privateKeyStep_ok hk1 hk2 hk hk, ?_⟩
  simp only [PrivateKeyInv, List.length_set, List.getElem?_set, hlen, ← getElem!_pos s1.data k hk1,
    ← getElem!_pos s2.data k hk2]
  refine ⟨trivial, by simpa [show 1 + k ≠ 0 by omega, show 1 + s1.param.n + k ≠ 0 by omega] using h0,
    fun i hi => ?_, by simp [htr, List.range_succ]⟩
  rcases Nat.lt_succ_iff_lt_or_eq.mp hi with hi | rfl
  · simp [show 1 + k ≠ 1 + i by omega, show 1 + s1.param.n + k ≠ 1 + i by omega,
      show 1 + k ≠ 1 + s1.param.n + i by omega, show 1 + s1.param.n + k ≠ 1 + s1.param.n + i by omega,
      hw i hi]
  · simp [show 1 + i < 2 * s1.param.n + 1 by omega, show 1 + s1.param.n + i < 2 * s1.param.n + 1 by omega,
      show 1 + s1.param.n + i ≠ 1 + i by omega]

/-- `newPrivateKey`'s array after the version byte is stored and `ret` is cut into `s1part` and
`s2part`, for `n < 2^31`, so that `n*2+1` does not wrap: the loop over the coefficients is all
that is left. -/
theorem privateKeyBytes_eq_loop (s1 s2 : PolyArray) (hw : s1.param.n < 2 ^ 31) :
    privateKeyBytes s1 s2 = forRange s1.param.n (privateKeyStep s1.data s2.data
        ⟨1, s1.param.n, s1.param.n * 2⟩ ⟨1 + s1.param.n, s1.param.n, s1.param.n⟩)
      ⟨(List.replicate (s1.param.n * 2 + 1) 0).set 0 (byteOfInt s1.param.version), [0]⟩ := by
  have e1 : (⟨0, s1.param.n * 2 + 1, s1.param.n * 2 + 1⟩ : Slice).sub 1 (1 + s1.param.n) =
      .ok ⟨1, s1.param.n, s1.param.n * 2⟩ := sub_eq (by omega) (by simp only; omega) rfl
      (by omega) (by simp only; omega)
  have e2 : (⟨0, s1.param.n * 2 + 1, s1.param.n * 2 + 1⟩ : Slice).sub (1 + s1.param.n)
      (s1.param.n * 2 + 1) = .ok ⟨1 + s1.param.n, s1.param.n, s1.param.n⟩ :=
    sub_eq (by omega) (le_refl _) (by simp only; omega) (by omega) (by simp only; omega)
  simp (disch := omega) only [privateKeyBytes, make, u32, Nat.mod_eq_of_lt]
  simp [store_ok, e1, e2]

/-- `newPrivateKey`'s array, for polynomials of at least `n < 2^31` coefficients: the loop
returns, and its invariant holds after all `n` iterations. -/
theorem privateKeyBytes_inv (s1 s2 : PolyArray) (hw : s1.param.n < 2 ^ 31)
    (h1 : s1.param.n ≤ s1.data.length) (h2 : s1.param.n ≤ s2.data.length) :
    ∃ b, privateKeyBytes s1 s2 = .ok b ∧ PrivateKeyInv s1 s2 s1.param.n b := by
  have h0 : PrivateKeyInv s1 s2 0
      ⟨(List.replicate (s1.param.n * 2 + 1) 0).set 0 (byteOfInt s1.param.version), [0]⟩ :=
    ⟨by simp; omega, by simp, fun _ h => absurd h (Nat.not_lt_zero _), rfl⟩
  rw [privateKeyBytes_eq_loop s1 s2 hw]
  exact forRange_inv (PrivateKeyInv s1 s2) h0 fun i t hi ht => privateKeyStep_inv hi h1 h2 ht

/-- With fewer than `n < 2^31` coefficients in `s1` or in `s2`, the loop reads past the end of
the shorter one. -/
theorem privateKeyBytes_panic {s1 s2 : PolyArray} (hw : s1.param.n < 2 ^ 31)
    (h : s1.data.length < s1.param.n ∨ s2.data.length < s1.param.n) :
    privateKeyBytes s1 s2 = .error .indexOutOfRange := by
  have hk : min s1.data.length s2.data.length < s1.param.n := by omega
  rw [privateKeyBytes_eq_loop s1 s2 hw]
  refine forRange_panic_at hk (fun i t hi => ⟨_, privateKeyStep_ok (by omega) (by omega)
    (by simp only; omega) (by simp only; omega)⟩) fun t => ?_
  by_cases h12 : s1.data.length ≤ s2.data.length
  · simp only [privateKeyStep, Nat.min_eq_left h12, index_of_le le_rfl, error_bind]
  · have hp : (⟨1, s1.param.n, s1.param.n * 2⟩ : Slice).len > s2.data.length := by simp only; omega
    simp only [privateKeyStep, Nat.min_eq_right (Nat.le_of_not_le h12),
      index_of_lt (Nat.lt_of_not_le h12), ok_bind, store_ok hp, index_of_le le_rfl, error_bind]

/-- With `n ≥ 2^31`, `n*2+1` wraps: `ret` has `2(n - 2^31) + 1` bytes, fewer than `1+n`, and
`ret[1 : 1+n]` is out of range (for `n = 2^32 - 1`, `1+n` wraps to `0`, below `1`). -/
theorem privateKeyBytes_slice_panic {s1 s2 : PolyArray} (hw : 2 ^ 31 ≤ s1.param.n) :
    privateKeyBytes s1 s2 = .error .sliceBoundsOutOfRange := by
  have hn := s1.param.n_lt
  let ret : Slice := ⟨0, u32 (s1.param.n * 2 + 1), u32 (s1.param.n * 2 + 1)⟩
  have h0 : ret.len > 0 := by simp only [ret, u32]; omega
  have h1 : ¬(1 ≤ u32 (1 + s1.param.n) ∧ u32 (1 + s1.param.n) ≤ ret.cap) := by
    simp only [ret, u32]; omega
  simp only [privateKeyBytes, make, store_ok h0, ok_bind, sub_panic h1, error_bind]

/-- `newPrivateKey`'s array panics exactly when `n < 2^31` and `s1` or `s2` is short, with an
index out of range, or when `n ≥ 2^31`, with a slice out of range. -/
theorem privateKeyBytes_panic_iff (s1 s2 : PolyArray) (p : Panic) :
    privateKeyBytes s1 s2 = .error p ↔
      p = .indexOutOfRange ∧ s1.param.n < 2 ^ 31 ∧
          (s1.data.length < s1.param.n ∨ s2.data.length < s1.param.n) ∨
        p = .sliceBoundsOutOfRange ∧ 2 ^ 31 ≤ s1.param.n := by
  by_cases hw : s1.param.n < 2 ^ 31
  · by_cases h : s1.data.length < s1.param.n ∨ s2.data.length < s1.param.n
    · rw [privateKeyBytes_panic hw h]
      cases p <;> simp <;> omega
    · obtain ⟨b, hb, -⟩ := privateKeyBytes_inv s1 s2 hw (by omega) (by omega)
      rw [hb]
      exact iff_of_false (fun e => by cases e) (by omega)
  · rw [privateKeyBytes_slice_panic (by omega)]
    cases p <;> simp <;> omega

/-! ## Reading the coefficients back -/

/-- One half of the decoder inverts one sub-slice's bytes, for coefficients in `[-4, 251]`. -/
theorem decode_half {xs : List (BitVec 32)} {n off : Nat} {bs : List UInt8} (hn : xs.length = n)
    (hc : ∀ x ∈ xs, -4 ≤ x.toInt ∧ x.toInt ≤ 251)
    (hb : ∀ i < n, bs[off + i]? = some (byteOfInt32 (xs[i]! + 4))) :
    ((List.range n).map fun i => (bs[off + i]!.toNat : Int) - 4) = xs.map BitVec.toInt := by
  refine List.ext_getElem (by simp [hn]) fun i h₁ h₂ => ?_
  simp only [List.length_map, List.length_range] at h₁ h₂
  have hx := hc _ (List.getElem_mem h₂)
  rw [← getElem!_pos xs i h₂] at hx
  simp only [List.getElem_map, List.getElem_range, List.getElem!_of_getElem? (hb i h₁),
    toNat_byteOfInt32_add_four hx.1 hx.2, ← getElem!_pos xs i h₂]
  omega

/-- The decoder inverts the layout, for coefficients in `[-4, 251]`. -/
theorem decodePrivateKey_privateKeyBytes {s1 s2 : PolyArray} {b : Buf}
    (h1 : s1.data.length = s1.param.n) (h2 : s2.data.length = s1.param.n)
    (hc1 : ∀ x ∈ s1.data, -4 ≤ x.toInt ∧ x.toInt ≤ 251)
    (hc2 : ∀ x ∈ s2.data, -4 ≤ x.toInt ∧ x.toInt ≤ 251) (hb : PrivateKeyInv s1 s2 s1.param.n b) :
    decodePrivateKey s1.param.n b.bytes = (s1.data.map BitVec.toInt, s2.data.map BitVec.toInt) :=
  Prod.ext (decode_half h1 hc1 fun i hi => (hb.2.2.1 i hi).1)
    (decode_half h2 hc2 fun i hi => (hb.2.2.1 i hi).2)

/-! ## The layout -/

/-- The array that `newPrivateKey` builds from secret polynomials `s1, s2` of `n` coefficients in
`[-4, 251]`: `2n+1` bytes, the version first, `s1_i + 4` at `1+i` and `s2_i + 4` at `1+n+i`.
Any secret pair whose array has the same bytes agrees with `s1, s2` coefficientwise. `n < 2^31`
keeps `n*2+1` from wrapping. -/
theorem newPrivateKey_bytes_injective (s1 s2 : PolyArray) (hw : s1.param.n < 2 ^ 31)
    (h1 : s1.data.length = s1.param.n) (h2 : s2.data.length = s1.param.n)
    (hc1 : ∀ x ∈ s1.data, -4 ≤ x.toInt ∧ x.toInt ≤ 251)
    (hc2 : ∀ x ∈ s2.data, -4 ≤ x.toInt ∧ x.toInt ≤ 251) :
    ∃ b, privateKeyBytes s1 s2 = .ok b ∧ b.bytes.length = 2 * s1.param.n + 1 ∧
      b.bytes[0]!.toNat = (s1.param.version % 256).toNat ∧
      (∀ i < s1.param.n, (b.bytes[1 + i]!.toNat : Int) = s1.data[i]!.toInt + 4 ∧
        (b.bytes[1 + s1.param.n + i]!.toNat : Int) = s2.data[i]!.toInt + 4) ∧
      ∀ t1 t2 b', t1.data.length = t1.param.n → t2.data.length = t1.param.n →
        (∀ x ∈ t1.data, -4 ≤ x.toInt ∧ x.toInt ≤ 251) →
        (∀ x ∈ t2.data, -4 ≤ x.toInt ∧ x.toInt ≤ 251) →
        privateKeyBytes t1 t2 = .ok b' → b'.bytes = b.bytes → t1.data = s1.data ∧ t2.data = s2.data := by
  obtain ⟨b, hb, hi⟩ := privateKeyBytes_inv s1 s2 hw h1.ge h2.ge
  refine ⟨b, hb, hi.1, by rw [List.getElem!_of_getElem? hi.2.1, toNat_byteOfInt], fun i h => ?_,
    fun t1 t2 b' ht1 ht2 hd1 hd2 hb' heq => ?_⟩
  · have hx1 := hc1 _ (List.getElem_mem (show i < s1.data.length by omega))
    have hx2 := hc2 _ (List.getElem_mem (show i < s2.data.length by omega))
    rw [← getElem!_pos s1.data i (by omega)] at hx1
    rw [← getElem!_pos s2.data i (by omega)] at hx2
    obtain ⟨e1, e2⟩ := hi.2.2.1 i h
    rw [List.getElem!_of_getElem? e1, List.getElem!_of_getElem? e2]
    exact ⟨toNat_byteOfInt32_add_four hx1.1 hx1.2, toNat_byteOfInt32_add_four hx2.1 hx2.2⟩
  · have hw' : t1.param.n < 2 ^ 31 := Nat.lt_of_not_le fun h => by
      rw [privateKeyBytes_slice_panic h] at hb'; cases hb'
    obtain ⟨b'', hb'', hi'⟩ := privateKeyBytes_inv t1 t2 hw' ht1.ge ht2.ge
    rw [hb'] at hb''
    cases hb''
    have hn : t1.param.n = s1.param.n := by
      have := congrArg List.length heq
      rw [hi'.1, hi.1] at this
      omega
    have h := decodePrivateKey_privateKeyBytes ht1 ht2 hd1 hd2 hi'
    rw [hn, heq, decodePrivateKey_privateKeyBytes h1 h2 hc1 hc2 hi, Prod.mk.injEq] at h
    have hinj := List.map_injective_iff.mpr (fun _ _ => BitVec.eq_of_toInt_eq (n := 32))
    exact ⟨hinj h.1.symm, hinj h.2.symm⟩

/-- A secret pair of two coefficients each, at the ends of `[-4, 251]`: the loop runs twice and
interleaves the stores into `s1part` and `s2part`. -/
theorem newPrivateKey_bytes_two_coeffs :
    ∃ b, privateKeyBytes ⟨⟨1, 2, 0, by decide, by decide⟩, [-4, 251]⟩
      ⟨⟨1, 2, 0, by decide, by decide⟩, [251, -4]⟩ = .ok b ∧ b.bytes.length = 5 :=
  (newPrivateKey_bytes_injective ⟨⟨1, 2, 0, by decide, by decide⟩, [-4, 251]⟩
    ⟨⟨1, 2, 0, by decide, by decide⟩, [251, -4]⟩ (by decide) rfl rfl (by simp) (by simp)).imp
    fun _ h => ⟨h.1, h.2.1⟩

/-! ## What the array keeps -/

/-- The bytes of a private key: the version byte, then `byte(x + 4)` for each coefficient of
`s1`, then for each coefficient of `s2`. -/
def privateKeyLayout (version : Int) (xs ys : List (BitVec 32)) : List UInt8 :=
  byteOfInt version :: ((xs.map fun x => byteOfInt32 (x + 4)) ++ ys.map fun x => byteOfInt32 (x + 4))

/-- One sub-slice of the layout: byte `q` of `byte(x + 4)` over the first `n` coefficients. -/
theorem getElem?_map_take {xs : List (BitVec 32)} {n q : Nat} (hn : n ≤ xs.length) (hq : q < n) :
    ((xs.take n).map fun x => byteOfInt32 (x + 4))[q]? = some (byteOfInt32 (xs[q]! + 4)) := by
  rw [List.getElem?_map, List.getElem?_take_of_lt hq, List.getElem?_eq_getElem (by omega),
    getElem!_pos xs q (by omega)]
  rfl

/-- For polynomials of at least `n < 2^31` coefficients, `newPrivateKey`'s array is the layout of
their first `n`. -/
theorem privateKeyBytes_bytes (s1 s2 : PolyArray) (hw : s1.param.n < 2 ^ 31)
    (h1 : s1.param.n ≤ s1.data.length) (h2 : s1.param.n ≤ s2.data.length) :
    ∃ b, privateKeyBytes s1 s2 = .ok b ∧ b.bytes = privateKeyLayout s1.param.version
      (s1.data.take s1.param.n) (s2.data.take s1.param.n) := by
  obtain ⟨b, hb, hlen, h0, hv, -⟩ := privateKeyBytes_inv s1 s2 hw h1 h2
  refine ⟨b, hb, List.ext_getElem? fun p => ?_⟩
  rcases p with _ | p
  · rw [h0, privateKeyLayout, List.getElem?_cons_zero]
  rw [privateKeyLayout, List.getElem?_cons_succ, Nat.add_comm]
  by_cases hp1 : p < s1.param.n
  · rw [List.getElem?_append_left (by simp; omega), getElem?_map_take h1 hp1]
    exact (hv p hp1).1
  by_cases hp2 : p < 2 * s1.param.n
  · obtain ⟨q, rfl⟩ : ∃ q, p = s1.param.n + q := ⟨p - s1.param.n, by omega⟩
    rw [List.getElem?_append_right (by simp only [List.length_map, List.length_take]; omega),
      List.length_map, List.length_take,
      Nat.min_eq_left h1, Nat.add_sub_cancel_left, getElem?_map_take h2 (by omega), ← Nat.add_assoc]
    exact (hv q (by omega)).2
  · rw [List.getElem?_eq_none (by omega), List.getElem?_eq_none (by simp; omega)]

/-- Two stores an iteration, at `f i` and at `g i`, write the positions `l.map f` and `l.map g`. -/
theorem flatMap_pair_perm {α β : Type} (f g : α → β) :
    ∀ l : List α, (l.flatMap fun x => [f x, g x]).Perm (l.map f ++ l.map g)
  | [] => .nil
  | x :: l => ((((flatMap_pair_perm f g l).cons (g x)).trans List.perm_middle.symm).cons (f x))

/-- The stores of `newPrivateKey` write each byte of `ret` exactly once, for `n < 2^31`:
`s1part` and `s2part` are disjoint and cover `ret[1:]`. -/
theorem newPrivateKey_writes_each_byte_once (s1 s2 : PolyArray) (hw : s1.param.n < 2 ^ 31)
    (h1 : s1.param.n ≤ s1.data.length) (h2 : s1.param.n ≤ s2.data.length) :
    ∃ b, privateKeyBytes s1 s2 = .ok b ∧ b.written.Perm (List.range (2 * s1.param.n + 1)) := by
  obtain ⟨b, hb, -, -, -, hwr⟩ := privateKeyBytes_inv s1 s2 hw h1 h2
  have e : List.range (2 * s1.param.n + 1) =
      0 :: (List.range' 1 s1.param.n ++ List.range' (1 + s1.param.n) s1.param.n) := by
    rw [range'_chain rfl, List.range_eq_range', show 2 * s1.param.n + 1 = (s1.param.n + s1.param.n) + 1
      by omega, List.range'_succ]
  refine ⟨b, hb, ?_⟩
  rw [hwr, e, List.range'_eq_map_range, List.range'_eq_map_range]
  exact (flatMap_pair_perm _ _ _).cons 0

theorem newPrivateKey_writes_each_byte_once_two_coeffs :
    ∃ b, privateKeyBytes ⟨⟨1, 2, 0, by decide, by decide⟩, [1, -2]⟩
      ⟨⟨1, 2, 0, by decide, by decide⟩, [0, 3]⟩ = .ok b ∧ b.written.Perm (List.range 5) :=
  newPrivateKey_writes_each_byte_once ⟨⟨1, 2, 0, by decide, by decide⟩, [1, -2]⟩
    ⟨⟨1, 2, 0, by decide, by decide⟩, [0, 3]⟩ (by decide) (by decide) (by decide)

/-- `byte(x + 4)` keeps the low byte of `x`. -/
theorem byteOfInt32_add_four_eq_iff {x y : BitVec 32} :
    byteOfInt32 (x + 4) = byteOfInt32 (y + 4) ↔ x.toNat % 2 ^ 8 = y.toNat % 2 ^ 8 := by
  have h4 : (4 : BitVec 32).toNat = 4 := rfl
  rw [UInt8.ext_iff, toNat_byteOfInt32, toNat_byteOfInt32, BitVec.toNat_add, BitVec.toNat_add, h4,
    Nat.mod_mod_of_dvd _ (by decide), Nat.mod_mod_of_dvd _ (by decide)]
  omega

/-- Two private-key layouts of halves of one length each are equal exactly when the versions
agree modulo `256` and the coefficients of each half have the same low byte. -/
theorem privateKeyLayout_eq_iff {v v' : Int} {xs ys xs' ys' : List (BitVec 32)}
    (h : xs.length = ys.length) (h' : xs'.length = ys'.length) :
    privateKeyLayout v' xs' ys' = privateKeyLayout v xs ys ↔ v' % 256 = v % 256 ∧
      xs'.map (fun x => x.toNat % 2 ^ 8) = xs.map (fun x => x.toNat % 2 ^ 8) ∧
      ys'.map (fun x => x.toNat % 2 ^ 8) = ys.map (fun x => x.toNat % 2 ^ 8) := by
  have key := @map_eq_map_iff_of_eq_iff _ _ _ _ (fun x : BitVec 32 => byteOfInt32 (x + 4))
    (fun x => byteOfInt32 (x + 4)) (fun x => x.toNat % 2 ^ 8) (fun x => x.toNat % 2 ^ 8)
    fun _ _ => byteOfInt32_add_four_eq_iff
  rw [privateKeyLayout, privateKeyLayout, List.cons_eq_cons, byteOfInt_eq_iff, ← key, ← key]
  refine and_congr Iff.rfl ⟨fun e => List.append_inj e ?_, fun ⟨e₁, e₂⟩ => by rw [e₁, e₂]⟩
  have := congrArg List.length e
  simp only [List.length_append, List.length_map] at this ⊢
  omega

/-- What `newPrivateKey` hands to `bliss.DecodePrivateKey` keeps exactly the version modulo
`256` and the low byte of each of the first `n` coefficients of `s1` and of `s2`: for
polynomials of at least `n < 2^31` coefficients both arrays exist, and they are equal exactly
when these agree. -/
theorem newPrivateKey_bytes_eq_iff (s1 s2 t1 t2 : PolyArray) (hw : s1.param.n < 2 ^ 31)
    (h1 : s1.param.n ≤ s1.data.length) (h2 : s1.param.n ≤ s2.data.length)
    (hw' : t1.param.n < 2 ^ 31) (h1' : t1.param.n ≤ t1.data.length)
    (h2' : t1.param.n ≤ t2.data.length) :
    ∃ b b', privateKeyBytes s1 s2 = .ok b ∧ privateKeyBytes t1 t2 = .ok b' ∧
      (b'.bytes = b.bytes ↔ t1.param.version % 256 = s1.param.version % 256 ∧
        (t1.data.take t1.param.n).map (fun x => x.toNat % 2 ^ 8) =
          (s1.data.take s1.param.n).map (fun x => x.toNat % 2 ^ 8) ∧
        (t2.data.take t1.param.n).map (fun x => x.toNat % 2 ^ 8) =
          (s2.data.take s1.param.n).map (fun x => x.toNat % 2 ^ 8)) := by
  obtain ⟨b, hb, e⟩ := privateKeyBytes_bytes s1 s2 hw h1 h2
  obtain ⟨b', hb', e'⟩ := privateKeyBytes_bytes t1 t2 hw' h1' h2'
  refine ⟨b, b', hb, hb', ?_⟩
  rw [e, e', privateKeyLayout_eq_iff (by simp; omega) (by simp; omega)]

/-- `-4` and `252`, `251` and `-5` agree modulo `2^8`: the two secret pairs give one array. -/
theorem newPrivateKey_bytes_eq_iff_wrap :
    ∃ b b', privateKeyBytes ⟨⟨1, 1, 0, by decide, by decide⟩, [-4]⟩
        ⟨⟨1, 1, 0, by decide, by decide⟩, [251]⟩ = .ok b ∧
      privateKeyBytes ⟨⟨1, 1, 0, by decide, by decide⟩, [252]⟩
        ⟨⟨1, 1, 0, by decide, by decide⟩, [-5]⟩ = .ok b' ∧ b'.bytes = b.bytes :=
  (newPrivateKey_bytes_eq_iff ⟨⟨1, 1, 0, by decide, by decide⟩, [-4]⟩
    ⟨⟨1, 1, 0, by decide, by decide⟩, [251]⟩ ⟨⟨1, 1, 0, by decide, by decide⟩, [252]⟩
    ⟨⟨1, 1, 0, by decide, by decide⟩, [-5]⟩ (by decide) (by decide) (by decide) (by decide)
    (by decide) (by decide)).imp
    fun _ ⟨b', h, h', e⟩ => ⟨b', h, h', e.mpr ⟨by decide, by decide, by decide⟩⟩

end HcdBliss
