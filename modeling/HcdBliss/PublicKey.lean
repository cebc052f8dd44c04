import HcdBliss.Lib

/-!
# `newPublicKey`: the byte array of a public key

`newPublicKey` writes a polynomial `a` into `ret := make([]byte, n*2+1)`: the version byte, then
each coefficient as a big-endian `uint16`. `bliss.DecodePublicKey` reads the key from `ret`.
`n*2+1` is computed in `uint32`.

* `publicKeyBytes_inv`: for every polynomial of `n < 2^31` coefficients, the loop returns. `ret`
  has `2n+1` bytes, the version first, and bytes `2i+1` and `2i+2` hold coefficient `i` as a
  `uint16`; the stores write the positions `0, 1, …, 2n` in this order. With fewer coefficients
  the loop reads past the end of `data`, and with `n ≥ 2^31` it stores past the end of the
  wrapped `ret` (`publicKeyBytes_panic`).
* `decodePublicKey`: the coefficients that the bytes hold. `decodePublicKey_publicKeyBytes` is
  the round trip for coefficients in `[0, 2^16)`.
* `newPublicKey_bytes_injective`: the layout theorem with its consequence, that two
  polynomials of one parameter set give the same bytes only if they have the same
  coefficients.
* `publicKeyLayout`, `publicKeyBytes_eq`: the array as one list, the version byte and then the
  coefficients as `uint16`s. `newPublicKey_bytes_eq_iff`: what the array keeps, exactly: the
  version modulo `256` and the low 16 bits of each coefficient.
-/

namespace HcdBliss

variable {K P S E : Type}

/-- One iteration of `newPublicKey`'s loop: coefficient `i` as a big-endian `uint16` at `2i+1`. -/
def publicKeyStep (data : List (BitVec 32)) (ret : Slice) (i : Nat) (b : Buf) : Except Panic Buf := do
  let b ← store b ret (i * 2 + 1) (uint16OfInt32 (← index data i) >>> 8).toUInt8
  store b ret (i * 2 + 2) (uint16OfInt32 (← index data i) &&& 0xff).toUInt8

/-- The array that `newPublicKey` builds from a non-nil `a` before it calls
`bliss.DecodePublicKey`. -/
def publicKeyBytes (a : PolyArray) : Except Panic Buf := do
  let n := a.param.n
  let data := a.data
  let (b, ret) := make (u32 (n * 2 + 1))
  let b ← store b ret 0 (byteOfInt a.param.version)
  forRange n (publicKeyStep data ret) b

/-- `newPublicKey`: `nil` for a nil polynomial or bytes that the library rejects. -/
def newPublicKey (lib : Lib K P S E) (a : Option PolyArray) : Except Panic (Iface (PublicKey P)) :=
  match a with
  | none => pure .nil
  | some a => do
    let b ← publicKeyBytes a
    match lib.decodePublicKey b.bytes with
    | .error _ => pure .nil
    | .ok pk => pure (.ptr ⟨pk⟩)

/-- The coefficients that a public key's bytes hold, for `n` coefficients. -/
def decodePublicKey (n : Nat) (bs : List UInt8) : List Nat :=
  (List.range n).map fun i => bs[2 * i + 1]!.toNat * 2 ^ 8 + bs[2 * i + 2]!.toNat

/-! ## The loop -/

/-- The high and the low byte of coefficient `x`, as `newPublicKey` stores them. -/
theorem publicKeyStep_ok {data : List (BitVec 32)} {ret : Slice} {k : Nat} {b : Buf}
    (hk : k < data.length) (h2 : k * 2 + 2 < ret.len) :
    publicKeyStep data ret k b = .ok
      ⟨(b.bytes.set (ret.off + (k * 2 + 1)) (uint16OfInt32 data[k] >>> 8).toUInt8).set
          (ret.off + (k * 2 + 2)) (uint16OfInt32 data[k] &&& 0xff).toUInt8,
        b.written ++ [ret.off + (k * 2 + 1)] ++ [ret.off + (k * 2 + 2)]⟩ := by
  simp only [publicKeyStep, index_of_lt hk, ok_bind, store_ok (by omega : k * 2 + 1 < ret.len),
    store_ok h2]

/-- What `newPublicKey` has written after `k` iterations of its loop. -/
def PublicKeyInv (a : PolyArray) (k : Nat) (b : Buf) : Prop :=
  b.bytes.length = 2 * a.param.n + 1 ∧
  b.bytes[0]? = some (byteOfInt a.param.version) ∧
  (∀ i < k, b.bytes[2 * i + 1]? = some (uint16OfInt32 a.data[i]! >>> 8).toUInt8 ∧
    b.bytes[2 * i + 2]? = some (uint16OfInt32 a.data[i]! &&& 0xff).toUInt8) ∧
  b.written = List.range (2 * k + 1)

theorem publicKeyStep_inv {a : PolyArray} {k : Nat} {b : Buf} (hk : k < a.param.n)
    (hn : a.param.n ≤ a.data.length) (hb : PublicKeyInv a k b) :
    ∃ b', publicKeyStep a.data ⟨0, a.param.n * 2 + 1, a.param.n * 2 + 1⟩ k b = .ok b' ∧
      PublicKeyInv a (k + 1) b' := by
  obtain ⟨hlen, h0, hw, htr⟩ := hb
  have hkd : k < a.data.length := by omega
  refine ⟨_, publicKeyStep_ok hkd (by simp only; omega), ?_⟩
  simp only [PublicKeyInv, List.length_set, List.getElem?_set, hlen, Nat.zero_add,
    ← getElem!_pos a.data k hkd]
  refine ⟨trivial, by simpa [show k * 2 + 1 ≠ 0 by omega] using h0, fun i hi => ?_, ?_⟩
  · rcases Nat.lt_succ_iff_lt_or_eq.mp hi with hi | rfl
    · simp [show k * 2 + 1 ≠ 2 * i + 1 by omega, show k * 2 + 2 ≠ 2 * i + 1 by omega,
        show k * 2 + 1 ≠ 2 * i + 2 by omega, show k * 2 + 2 ≠ 2 * i + 2 by omega, hw i hi]
    · simp [show 2 * i + 1 < 2 * a.param.n + 1 by omega, show 2 * i + 2 < 2 * a.param.n + 1 by omega,
        show i * 2 + 1 = 2 * i + 1 by omega, show i * 2 + 2 = 2 * i + 2 by omega]
  · rw [htr, show 2 * (k + 1) + 1 = k * 2 + 1 + 2 by omega, range_add_two,
      show 2 * k + 1 = k * 2 + 1 by omega]
    simp

/-- `newPublicKey`'s array, for a polynomial of at least `n < 2^31` coefficients, so that
`n*2+1` does not wrap: the loop returns, and its invariant holds after all `n` iterations. -/
theorem publicKeyBytes_inv (a : PolyArray) (hw : a.param.n < 2 ^ 31)
    (hn : a.param.n ≤ a.data.length) : ∃ b, publicKeyBytes a = .ok b ∧ PublicKeyInv a a.param.n b := by
  have h0 : PublicKeyInv a 0
      ⟨(List.replicate (a.param.n * 2 + 1) 0).set 0 (byteOfInt a.param.version), [0]⟩ :=
    ⟨by simp; omega, by simp, fun _ h => absurd h (Nat.not_lt_zero _), rfl⟩
  obtain ⟨b, hb, hi⟩ := forRange_inv (PublicKeyInv a) h0 fun i t hi ht => publicKeyStep_inv hi hn ht
  exact ⟨b, by simpa [publicKeyBytes, store_ok, u32_of_lt (show a.param.n * 2 + 1 < 2 ^ 32 by omega)]
    using hb, hi⟩

/-- With fewer than `n` coefficients, the loop reads past the end of `data`; with `n ≥ 2^31`,
`n*2+1` wraps, `ret` has `2(n - 2^31) + 1` bytes, and the loop stores past its end. -/
theorem publicKeyBytes_panic {a : PolyArray} (h : a.data.length < a.param.n ∨ 2 ^ 31 ≤ a.param.n) :
    publicKeyBytes a = .error .indexOutOfRange := by
  obtain ⟨⟨v, n, κ, hn, hκ⟩, d⟩ := a
  simp only at h ⊢
  -- `ret` has `2m+1` bytes, with `m = n` below `2^31` and `m = n - 2^31` from it on
  obtain ⟨m, hm, hk⟩ : ∃ m, u32 (n * 2 + 1) = 2 * m + 1 ∧ min d.length m < n :=
    ⟨u32 (n * 2 + 1) / 2, by unfold u32; omega, by unfold u32; omega⟩
  have h0 : (⟨0, u32 (n * 2 + 1), u32 (n * 2 + 1)⟩ : Slice).len > 0 := by simp only; omega
  simp only [publicKeyBytes, make, store_ok h0, ok_bind]
  refine forRange_panic_at hk
    (fun i t hi => ⟨_, publicKeyStep_ok (by omega) (by simp only; omega)⟩) fun t => ?_
  by_cases hd : d.length ≤ m
  · simp only [publicKeyStep, Nat.min_eq_left hd, index_of_le le_rfl, error_bind]
  · have hs : (⟨0, u32 (n * 2 + 1), u32 (n * 2 + 1)⟩ : Slice).len ≤ m * 2 + 1 := by simp only; omega
    simp only [publicKeyStep, Nat.min_eq_right (Nat.le_of_not_le hd), index_of_lt (Nat.lt_of_not_le hd),
      ok_bind, store_panic hs, error_bind]

/-! ## Reading the coefficients back -/

/-- The two bytes of coefficient `i` are its value, for a coefficient in `[0, 2^16)`. -/
theorem publicKey_coeff {a : PolyArray} {b : Buf} (hb : PublicKeyInv a a.param.n b) {i : Nat}
    (hi : i < a.param.n) (h0 : 0 ≤ a.data[i]!.toInt) (h1 : a.data[i]!.toInt < 2 ^ 16) :
    (b.bytes[2 * i + 1]!.toNat * 2 ^ 8 + b.bytes[2 * i + 2]!.toNat : Int) = a.data[i]!.toInt := by
  obtain ⟨hlo, hhi⟩ := hb.2.2.1 i hi
  rw [List.getElem!_of_getElem? hlo, List.getElem!_of_getElem? hhi]
  have := toNat_of_toInt_lt h0 h1
  have := uint16_bytes (uint16OfInt32 a.data[i]!)
  simp only [toNat_uint16OfInt32] at this
  omega

/-- The decoder inverts the layout, for coefficients in `[0, 2^16)`. -/
theorem decodePublicKey_publicKeyBytes {a : PolyArray} {b : Buf}
    (hn : a.data.length = a.param.n) (hc : ∀ x ∈ a.data, 0 ≤ x.toInt ∧ x.toInt < 2 ^ 16)
    (hb : PublicKeyInv a a.param.n b) :
    decodePublicKey a.param.n b.bytes = a.data.map BitVec.toNat := by
  refine List.ext_getElem (by simp [decodePublicKey, hn]) fun i h₁ h₂ => ?_
  simp only [decodePublicKey, List.getElem_map, List.getElem_range] at h₁ ⊢
  have hi : i < a.data.length := by simpa using h₂
  have hx := hc _ (List.getElem_mem hi)
  rw [← getElem!_pos a.data i hi] at hx ⊢
  have := publicKey_coeff hb (by simpa using h₁) hx.1 hx.2
  have := toNat_of_toInt_lt hx.1 hx.2
  omega

/-! ## The layout -/

/-- The array that `newPublicKey` builds from a polynomial `a` of `n` coefficients in
`[0, 2^16)`: `2n+1` bytes, the version first, coefficient `i` as the big-endian pair at `2i+1`;
the stores write every position once, in order. Any polynomial whose array has the same bytes
has the same coefficients. `n < 2^31` keeps `n*2+1` from wrapping. -/
theorem newPublicKey_bytes_injective (a : PolyArray) (hw : a.param.n < 2 ^ 31)
    (hn : a.data.length = a.param.n) (hc : ∀ x ∈ a.data, 0 ≤ x.toInt ∧ x.toInt < 2 ^ 16) :
    ∃ b, publicKeyBytes a = .ok b ∧ b.bytes.length = 2 * a.param.n + 1 ∧
      b.bytes[0]!.toNat = (a.param.version % 256).toNat ∧
      (∀ i < a.param.n,
        (b.bytes[2 * i + 1]!.toNat * 2 ^ 8 + b.bytes[2 * i + 2]!.toNat : Int) = a.data[i]!.toInt) ∧
      b.written = List.range (2 * a.param.n + 1) ∧ b.written.Nodup ∧
      ∀ a' b', a'.data.length = a'.param.n →
        (∀ x ∈ a'.data, 0 ≤ x.toInt ∧ x.toInt < 2 ^ 16) →
        publicKeyBytes a' = .ok b' → b'.bytes = b.bytes → a'.data = a.data := by
  obtain ⟨b, hb, hi⟩ := publicKeyBytes_inv a hw hn.ge
  refine ⟨b, hb, hi.1, by rw [List.getElem!_of_getElem? hi.2.1, toNat_byteOfInt], fun i h => ?_, hi.2.2.2,
    hi.2.2.2 ▸ List.nodup_range _, fun a' b' hn' hc' hb' heq => ?_⟩
  · have hx := hc _ (List.getElem_mem (show i < a.data.length by omega))
    rw [← getElem!_pos a.data i (by omega)] at hx
    exact publicKey_coeff hi h hx.1 hx.2
  · have hw' : a'.param.n < 2 ^ 31 := Nat.lt_of_not_le fun h => by
      rw [publicKeyBytes_panic (.inr h)] at hb'; cases hb'
    obtain ⟨b'', hb'', hi'⟩ := publicKeyBytes_inv a' hw' hn'.ge
    rw [hb'] at hb''
    cases hb''
    have hp : a'.param.n = a.param.n := by
      have := congrArg List.length heq
      rw [hi'.1, hi.1] at this
      omega
    have h := decodePublicKey_publicKeyBytes hn' hc' hi'
    rw [hp, heq, decodePublicKey_publicKeyBytes hn hc hi] at h
    exact List.map_injective_iff.mpr (fun _ _ => BitVec.eq_of_toNat_eq) h.symm

/-- A polynomial of two coefficients, `3` and `2^16 - 1`. -/
theorem newPublicKey_bytes_two_coeffs :
    ∃ b, publicKeyBytes ⟨⟨1, 2, 0, by decide, by decide⟩, [3, 65535]⟩ = .ok b ∧
      b.bytes.length = 5 ∧ b.written.Nodup :=
  (newPublicKey_bytes_injective ⟨⟨1, 2, 0, by decide, by decide⟩, [3, 65535]⟩ (by decide) rfl
    (by simp)).imp fun _ h => ⟨h.1, h.2.1, h.2.2.2.2.2.1⟩

/-! ## What the array keeps -/

/-- The bytes of a public key: the version byte, then each coefficient as a big-endian
`uint16`. -/
def publicKeyLayout (version : Int) (xs : List (BitVec 32)) : List UInt8 :=
  byteOfInt version :: xs.flatMap fun x => uint16Bytes (uint16OfInt32 x)

/-- For a polynomial of at least `n < 2^31` coefficients, `newPublicKey`'s array is the layout of
its first `n`, and the stores write the positions `0, 1, …, 2n` in order. -/
theorem publicKeyBytes_eq (a : PolyArray) (hw : a.param.n < 2 ^ 31) (hn : a.param.n ≤ a.data.length) :
    publicKeyBytes a = .ok ⟨publicKeyLayout a.param.version (a.data.take a.param.n),
      List.range (2 * a.param.n + 1)⟩ := by
  obtain ⟨⟨v, n, κ, hn32, hκ⟩, d⟩ := a
  simp only at hw hn ⊢
  set vals := (d.take n).flatMap fun x => uint16Bytes (uint16OfInt32 x)
  have hl : vals.length = 2 * n := by
    rw [length_flatMap_const (fun _ => length_uint16Bytes _)]; simp; omega
  have hw : (writeAt (List.replicate (n * 2 + 1) 0) 0 [byteOfInt v]).length = n * 2 + 1 :=
    (length_writeAt (by simp)).trans (List.length_replicate _ _)
  have hloop := @forRange_fill (publicKeyStep d ⟨0, n * 2 + 1, n * 2 + 1⟩) n 2 1 vals
    ⟨writeAt (List.replicate (n * 2 + 1) 0) 0 [byteOfInt v], List.range' 0 1⟩ hl (by simp only [hw]; omega)
    fun i t hi ht => by
      rw [@flatMap_chunk _ _ (fun x => uint16Bytes (uint16OfInt32 x)) 2
        (fun _ => length_uint16Bytes _) _ i (by simp; omega), List.getElem_take]
      simp only [publicKeyStep, index_of_lt (show i < d.length by omega), ok_bind]
      rw [show 1 + 2 * i = 0 + (i * 2 + 1) by omega]
      exact store_store_writeAt (by simp only; omega) (by simp only [ht, hw]; omega)
  have h0 : store ⟨List.replicate (n * 2 + 1) 0, []⟩ ⟨0, n * 2 + 1, n * 2 + 1⟩ 0 (byteOfInt v) =
      .ok ⟨writeAt (List.replicate (n * 2 + 1) 0) 0 [byteOfInt v], List.range' 0 1⟩ :=
    store_writeAt (by simp only; omega) (by simp)
  simp only [publicKeyBytes, make, u32_of_lt (show n * 2 + 1 < 2 ^ 32 by omega), h0, ok_bind]
  rw [hloop]
  dsimp only
  have e := @writeAt_append (List.replicate (n * 2 + 1) 0) [byteOfInt v] vals 0 (by simp; omega)
  simp only [List.length_singleton, Nat.zero_add] at e
  rw [e, writeAt_zero, range'_chain rfl, ← List.range_eq_range']
  simp [publicKeyLayout, vals, hl, Nat.add_comm, Nat.mul_comm]

/-- Two public-key layouts are equal exactly when the versions agree modulo `256` and the
coefficients have the same low 16 bits. -/
theorem publicKeyLayout_eq_iff {v v' : Int} {xs xs' : List (BitVec 32)} :
    publicKeyLayout v' xs' = publicKeyLayout v xs ↔ v' % 256 = v % 256 ∧
      xs'.map (fun x => x.toNat % 2 ^ 16) = xs.map (fun x => x.toNat % 2 ^ 16) := by
  rw [publicKeyLayout, publicKeyLayout, List.cons_eq_cons, byteOfInt_eq_iff,
    flatMap_uint16Bytes_eq_iff, map_eq_map_iff_of_eq_iff fun _ _ => uint16OfInt32_eq_iff]

/-- What `newPublicKey` hands to `bliss.DecodePublicKey` keeps exactly the version modulo `256`
and the low 16 bits of each of the first `n` coefficients: for polynomials of at least
`n < 2^31` coefficients both arrays exist, and they are equal exactly when these agree. -/
theorem newPublicKey_bytes_eq_iff (a a' : PolyArray) (hw : a.param.n < 2 ^ 31)
    (hn : a.param.n ≤ a.data.length) (hw' : a'.param.n < 2 ^ 31)
    (hn' : a'.param.n ≤ a'.data.length) :
    ∃ b b', publicKeyBytes a = .ok b ∧ publicKeyBytes a' = .ok b' ∧
      (b'.bytes = b.bytes ↔ a'.param.version % 256 = a.param.version % 256 ∧
        (a'.data.take a'.param.n).map (fun x => x.toNat % 2 ^ 16) =
          (a.data.take a.param.n).map (fun x => x.toNat % 2 ^ 16)) :=
  ⟨_, _, publicKeyBytes_eq a hw hn, publicKeyBytes_eq a' hw' hn', publicKeyLayout_eq_iff⟩

/-- A coefficient `2^16` apart from another, and a version `256` apart, give the same array. -/
theorem newPublicKey_bytes_eq_iff_wrap :
    ∃ b b', publicKeyBytes ⟨⟨1, 1, 0, by decide, by decide⟩, [3]⟩ = .ok b ∧
      publicKeyBytes ⟨⟨257, 1, 0, by decide, by decide⟩, [65539]⟩ = .ok b' ∧ b'.bytes = b.bytes :=
  (newPublicKey_bytes_eq_iff ⟨⟨1, 1, 0, by decide, by decide⟩, [3]⟩
    ⟨⟨257, 1, 0, by decide, by decide⟩, [65539]⟩ (by decide) (by decide) (by decide)
    (by decide)).imp fun _ ⟨b', h, h', e⟩ => ⟨b', h, h', e.mpr ⟨by decide, by decide⟩⟩

end HcdBliss
