import HcdBliss.Signature.Layout

/-!
# `newSignature`: the byte array of a signature

`newSignature` writes `z1`, `z2` and the challenge `c` into one array `ret` through the
sub-slices `z1part`, `z2part` (cut again into `z2left` and `z2right`) and `cpart`, in four
loops, and hands `ret` to `bliss.DecodeSignature`. The sizes `z1len`, `z2len`, `clen` and the
bounds built from them are computed in `uint32`; the theorems about the array take them below
`2^32`, where they do not wrap.

* `z1Loop`, `z2LeftLoop`, `z2RightLoop`, `cLoop`: each loop returns, and fills its sub-slice
  with its part of `signatureLayout`, front to back.
* `signatureBytes_eq`: for `z1, z2` of at least `n` coefficients and at least `kappa` indices,
  the array is `signatureLayout` of the first `n` coefficients and `kappa` indices, and the
  stores write the positions `0, 1, …` of `ret` in this order, each once.
  `signatureBytes_panic`: with fewer than `kappa` indices, the loop over `c` reads past its end.
  `signatureBytes_panic_iff`: the loops panic exactly when `z1`, `z2` or `c` is short
  (`z1Loop_panic`, `z2LeftLoop_panic`), and the slice expressions never do.
* `newSignature_bytes_injective`: the array loses nothing. For `n` a multiple of 8 and values
  that fit their bytes, two inputs of one parameter set with the same array have the same
  `NumModQ` values, the same `z2` and the same indices.
* `newSignature_bytes_eq_iff`: what the array keeps of any input of one `n`, exactly
  (`signatureLayout_eq_iff`); the signs of the last `n % 8` coefficients of `z2` are lost.
* `newSignature_byte_positions`: where each value of the input lands in the array.
-/

namespace HcdBliss

variable {K P S E : Type}

/-! ## The model -/

/-- One iteration of the loop over `z1`: `NumModQ(z1_i)` as a big-endian `uint16`. -/
def z1Step (numModQ : BitVec 32 → BitVec 32) (z1data : List (BitVec 32)) (z1part : Slice) (i : Nat)
    (b : Buf) : Except Panic Buf := do
  let tmp := numModQ (← index z1data i)
  let b ← store b z1part (i * 2) (uint16OfInt32 tmp >>> 8).toUInt8
  store b z1part (i * 2 + 1) (uint16OfInt32 tmp &&& 0xff).toUInt8

/-- One iteration of the loop over the magnitudes of `z2`. -/
def z2LeftStep (z2data : List (BitVec 32)) (z2left : Slice) (i : Nat) (b : Buf) :
    Except Panic Buf := do
  store b z2left i (uint16OfInt32 (abs (← index z2data i)) &&& 0xff).toUInt8

/-- One iteration of the inner loop over `j`: shift, and add one if `z2[i*8+j] > 0`. -/
def signStep (z2data : List (BitVec 32)) (i j : Nat) (tmp : UInt8) : Except Panic UInt8 := do
  let tmp := tmp <<< 1
  if BitVec.slt 0 (← index z2data (i * 8 + j)) then pure (tmp + 1) else pure tmp

/-- One iteration of the loop over the sign bytes: eight signs of `z2` into one byte. -/
def z2RightStep (z2data : List (BitVec 32)) (z2right : Slice) (i : Nat) (b : Buf) :
    Except Panic Buf := do
  let tmp ← forRange 8 (signStep z2data i) 0
  store b z2right i tmp

/-- One iteration of the loop over the challenge: `c_i` as a big-endian `uint16`. -/
def cStep (cdata : List UInt32) (cpart : Slice) (i : Nat) (b : Buf) : Except Panic Buf := do
  let b ← store b cpart (i * 2) ((← index cdata i).toUInt16 >>> 8).toUInt8
  store b cpart (i * 2 + 1) ((← index cdata i).toUInt16 &&& 0xff).toUInt8

/-- The array that `newSignature` builds from non-nil `z1, z2, c` before it calls
`bliss.DecodeSignature`. -/
def signatureBytes (lib : Lib K P S E) (z1 z2 : PolyArray) (c : List UInt32) :
    Except Panic Buf := do
  let n := z1.param.n
  let kappa := z1.param.kappa
  let z1len := u32 (n * 2)
  let z2len := u32 (n + n / 8)
  let clen := u32 (2 * kappa)
  let z1data := z1.data
  let z2data := z2.data
  let cdata := c
  let (b, ret) := make (u32 (1 + z1len + z2len + clen))
  let b ← store b ret 0 (byteOfInt z1.param.version)
  let z1part ← ret.sub 1 (u32 (1 + z1len))
  let z2part ← ret.sub (u32 (1 + z1len)) (u32 (1 + z1len + z2len))
  let cpart ← ret.sub (u32 (1 + z1len + z2len)) ret.len
  let b ← forRange n (z1Step (lib.numModQ z1) z1data z1part) b
  let z2left ← z2part.sub 0 n
  let z2right ← z2part.sub n z2part.len
  let b ← forRange n (z2LeftStep z2data z2left) b
  let b ← forRange (n / 8) (z2RightStep z2data z2right) b
  forRange kappa (cStep cdata cpart) b

/-- `newSignature`: `nil` for a nil argument or bytes that the library rejects. -/
def newSignature (lib : Lib K P S E) (z1 z2 : Option PolyArray) (c : Option (List UInt32)) :
    Except Panic (Iface (Signature S)) :=
  match z1, z2, c with
  | some z1, some z2, some c => do
    let b ← signatureBytes lib z1 z2 c
    match lib.decodeSignature b.bytes with
    | .error _ => pure .nil
    | .ok sig => pure (.ptr ⟨sig⟩)
  | _, _, _ => pure .nil

/-! ## The loops -/

section Loops

variable {xs : List (BitVec 32)} {s : Slice} {b : Buf} {n : Nat}

theorem z1Loop (f : BitVec 32 → BitVec 32) (hn : n ≤ xs.length) (hs : 2 * n ≤ s.len)
    (hb : s.off + 2 * n ≤ b.bytes.length) :
    forRange n (z1Step f xs s) b =
      .ok ⟨writeAt b.bytes s.off (z1Bytes f (xs.take n)), b.written ++ List.range' s.off (2 * n)⟩ := by
  refine forRange_fill (by simp; omega) hb fun i t hi ht => ?_
  rw [z1Bytes_chunk f _ (by simp; omega), List.getElem_take]
  simp only [z1Step, index_of_lt (show i < xs.length by omega), ok_bind]
  rw [show s.off + 2 * i = s.off + i * 2 by omega]
  exact store_store_writeAt (by omega) (by omega)

/-- With fewer than `n` coefficients, the loop over `z1` reads past the end of `z1data`. -/
theorem z1Loop_panic (f : BitVec 32 → BitVec 32) (hn : xs.length < n) (hs : 2 * n ≤ s.len) :
    forRange n (z1Step f xs s) b = .error .indexOutOfRange :=
  forRange_panic_at hn (fun i t hi => by
    simp only [z1Step, index_of_lt hi, ok_bind, store_ok (show i * 2 < s.len by omega),
      store_ok (show i * 2 + 1 < s.len by omega)]
    exact ⟨_, rfl⟩) fun t => by simp only [z1Step, index_of_le le_rfl, error_bind]

theorem z2LeftLoop (hn : n ≤ xs.length) (hs : n ≤ s.len) (hb : s.off + n ≤ b.bytes.length) :
    forRange n (z2LeftStep xs s) b =
      .ok ⟨writeAt b.bytes s.off (z2LeftBytes (xs.take n)), b.written ++ List.range' s.off n⟩ := by
  have h := @forRange_fill (z2LeftStep xs s) n 1 s.off (z2LeftBytes (xs.take n)) b (by simp; omega)
    (by omega)
    fun i t hi ht => by
      rw [z2LeftBytes, Nat.one_mul, map_chunk _ _ (by simp; omega), List.getElem_take]
      simp only [z2LeftStep, index_of_lt (show i < xs.length by omega), ok_bind]
      exact store_writeAt (by omega) (by omega)
  rwa [Nat.one_mul] at h

/-- With fewer than `n` coefficients, the loop over the magnitudes reads past the end of
`z2data`. -/
theorem z2LeftLoop_panic (hn : xs.length < n) (hs : n ≤ s.len) :
    forRange n (z2LeftStep xs s) b = .error .indexOutOfRange :=
  forRange_panic_at hn (fun i t hi => by
    simp only [z2LeftStep, index_of_lt hi, ok_bind, store_ok (show i < s.len by omega)]
    exact ⟨_, rfl⟩) fun t => by simp only [z2LeftStep, index_of_le le_rfl, error_bind]

theorem signStep_eq {i j : Nat} (t : UInt8) (h : 8 * i + j < xs.length) :
    signStep xs i j t = .ok (signStepByte t xs[8 * i + j]) := by
  simp only [signStep, show i * 8 + j = 8 * i + j by omega, index_of_lt h, ok_bind, signStepByte]
  cases BitVec.slt 0 xs[8 * i + j] <;> rfl

/-- The inner loop packs the signs of `z2[8i], …, z2[8i+7]`, and the store writes them. -/
theorem z2RightStep_eq {i : Nat} (h : 8 * i + 8 ≤ xs.length) (hi : i < s.len)
    (hb : s.off + i < b.bytes.length) :
    z2RightStep xs s i b = .ok ⟨writeAt b.bytes (s.off + i) [signByte ((xs.drop (8 * i)).take 8)],
      b.written ++ List.range' (s.off + i) 1⟩ := by
  have hys : ((xs.drop (8 * i)).take 8).length = 8 := by simp; omega
  have hf := @forRange_fold UInt8 (signStep xs i) 0 (BitVec 32) signStepByte
    ((xs.drop (8 * i)).take 8) fun j hj t => by
      rw [signStep_eq t (by rw [hys] at hj; omega), List.getElem_take, List.getElem_drop]
  rw [hys] at hf
  simp only [z2RightStep, hf, ok_bind]
  exact store_writeAt hi hb

theorem z2RightLoop (hn : n ≤ xs.length) (hs : n / 8 ≤ s.len) (hb : s.off + n / 8 ≤ b.bytes.length) :
    forRange (n / 8) (z2RightStep xs s) b =
      .ok ⟨writeAt b.bytes s.off (z2RightBytes (xs.take n)), b.written ++ List.range' s.off (n / 8)⟩ := by
  have hl : (xs.take n).length = n := by simp; omega
  have h := @forRange_fill (z2RightStep xs s) (n / 8) 1 s.off (z2RightBytes (xs.take n)) b
    (by simp [hl]) (by omega) fun i t hi ht => by
      rw [z2RightBytes, Nat.one_mul, map_chunk _ _ (by simpa [hl] using hi), List.getElem_range,
        List.drop_take, List.take_take, Nat.min_eq_left (by omega)]
      exact z2RightStep_eq (by omega) (by omega) (by omega)
  rwa [Nat.one_mul] at h

theorem cLoop {cs : List UInt32} {kappa : Nat} (hk : kappa ≤ cs.length) (hs : 2 * kappa ≤ s.len)
    (hb : s.off + 2 * kappa ≤ b.bytes.length) :
    forRange kappa (cStep cs s) b =
      .ok ⟨writeAt b.bytes s.off (cBytes (cs.take kappa)), b.written ++ List.range' s.off (2 * kappa)⟩ := by
  refine forRange_fill (by simp; omega) hb fun i t hi ht => ?_
  rw [cBytes_chunk _ (by simp; omega), List.getElem_take]
  simp only [cStep, index_of_lt (show i < cs.length by omega), ok_bind]
  rw [show s.off + 2 * i = s.off + i * 2 by omega]
  exact store_store_writeAt (by omega) (by omega)

end Loops

/-! ## The array -/

/-- The version byte and three parts written one after the other, in front of the rest of
the array. -/
theorem writeAt_signature {Z : List UInt8} {v : UInt8} {A B C : List UInt8} {o2 o3 : Nat}
    (h2 : o2 = 1 + A.length) (h3 : o3 = o2 + B.length) (hZ : o3 + C.length ≤ Z.length) :
    writeAt (writeAt (writeAt (writeAt Z 0 [v]) 1 A) o2 B) o3 C =
      v :: (A ++ B ++ C) ++ Z.drop (o3 + C.length) := by
  have e : writeAt (writeAt (writeAt (writeAt Z 0 [v]) 1 A) o2 B) o3 C =
      writeAt Z 0 ([v] ++ A ++ B ++ C) := by
    rw [show (1 : Nat) = 0 + [v].length from rfl, writeAt_append (by simp; omega),
      show o2 = 0 + ([v] ++ A).length by simp; omega, writeAt_append (by simp; omega),
      show o3 = 0 + ([v] ++ A ++ B).length by simp; omega, writeAt_append (by simp; omega)]
  rw [e, writeAt_zero, show ([v] ++ A ++ B ++ C).length = o3 + C.length by simp; omega]
  simp only [List.singleton_append, List.cons_append, List.append_assoc, List.nil_append]

/-- `newSignature`'s array after the version byte is stored and `ret` is cut into `z1part`,
`z2left`, `z2right` and `cpart`, for sizes that do not wrap in `uint32`: the four loops are all
that is left. -/
theorem signatureBytes_eq_loops (lib : Lib K P S E) {v : Int} {n κ : Nat} {hn : n < 2 ^ 32}
    {hκ : κ < 2 ^ 32} {d1 : List (BitVec 32)} (z2 : PolyArray) (c : List UInt32)
    (hw : 1 + n * 2 + (n + n / 8) + 2 * κ < 2 ^ 32) :
    signatureBytes lib ⟨⟨v, n, κ, hn, hκ⟩, d1⟩ z2 c = (do
      let b ← forRange n (z1Step (lib.numModQ ⟨⟨v, n, κ, hn, hκ⟩, d1⟩) d1
          ⟨1, n * 2, n * 2 + (n + n / 8) + 2 * κ⟩)
        ⟨writeAt (List.replicate (1 + n * 2 + (n + n / 8) + 2 * κ) 0) 0 [byteOfInt v],
          List.range' 0 1⟩
      let b ← forRange n (z2LeftStep z2.data ⟨1 + n * 2, n, n + n / 8 + 2 * κ⟩) b
      let b ← forRange (n / 8) (z2RightStep z2.data ⟨1 + n * 2 + n, n / 8, n / 8 + 2 * κ⟩) b
      forRange κ (cStep c ⟨1 + n * 2 + (n + n / 8), 2 * κ, 2 * κ⟩) b) := by
  have e1 : (⟨0, 1 + n * 2 + (n + n / 8) + 2 * κ, 1 + n * 2 + (n + n / 8) + 2 * κ⟩ : Slice).sub 1
      (1 + n * 2) = .ok ⟨1, n * 2, n * 2 + (n + n / 8) + 2 * κ⟩ :=
    sub_eq (by omega) (by simp only; omega) rfl (by omega) (by simp only; omega)
  have e2 : (⟨0, 1 + n * 2 + (n + n / 8) + 2 * κ, 1 + n * 2 + (n + n / 8) + 2 * κ⟩ : Slice).sub
      (1 + n * 2) (1 + n * 2 + (n + n / 8)) = .ok ⟨1 + n * 2, n + n / 8, n + n / 8 + 2 * κ⟩ :=
    sub_eq (by omega) (by simp only; omega) (Nat.zero_add _).symm (by omega) (by simp only; omega)
  have e3 : (⟨0, 1 + n * 2 + (n + n / 8) + 2 * κ, 1 + n * 2 + (n + n / 8) + 2 * κ⟩ : Slice).sub
      (1 + n * 2 + (n + n / 8)) (1 + n * 2 + (n + n / 8) + 2 * κ) =
        .ok ⟨1 + n * 2 + (n + n / 8), 2 * κ, 2 * κ⟩ :=
    sub_eq (by omega) (by simp only; omega) (Nat.zero_add _).symm (by omega) (by simp only; omega)
  have e4 : (⟨1 + n * 2, n + n / 8, n + n / 8 + 2 * κ⟩ : Slice).sub 0 n =
      .ok ⟨1 + n * 2, n, n + n / 8 + 2 * κ⟩ :=
    sub_eq (by omega) (by simp only; omega) rfl (by omega) rfl
  have e5 : (⟨1 + n * 2, n + n / 8, n + n / 8 + 2 * κ⟩ : Slice).sub n (n + n / 8) =
      .ok ⟨1 + n * 2 + n, n / 8, n / 8 + 2 * κ⟩ :=
    sub_eq (by omega) (by simp only; omega) rfl (by omega) (by simp only; omega)
  simp (disch := omega) only [signatureBytes, make, u32, Nat.mod_eq_of_lt]
  simp only [e1, e2, e3, e4, e5, ok_bind]
  rw [store_writeAt (by simp only; omega) (by simp only [List.length_replicate]; omega), ok_bind]
  simp only [Nat.add_zero, List.nil_append]

/-- Up to the loop over `c`, the code writes the version byte, `z1` and `z2`, in this order;
the rest of the array is still zero. -/
theorem signatureBytes_eq_cLoop (lib : Lib K P S E) {v : Int} {n κ : Nat} {hn : n < 2 ^ 32}
    {hκ : κ < 2 ^ 32} {d1 : List (BitVec 32)} {z2 : PolyArray} (c : List UInt32)
    (hw : 1 + n * 2 + (n + n / 8) + 2 * κ < 2 ^ 32) (h1 : n ≤ d1.length) (h2 : n ≤ z2.data.length) :
    signatureBytes lib ⟨⟨v, n, κ, hn, hκ⟩, d1⟩ z2 c =
      forRange κ (cStep c ⟨1 + n * 2 + (n + n / 8), 2 * κ, 2 * κ⟩)
        ⟨byteOfInt v :: (z1Bytes (lib.numModQ ⟨⟨v, n, κ, hn, hκ⟩, d1⟩) (d1.take n) ++
            z2LeftBytes (z2.data.take n) ++ z2RightBytes (z2.data.take n)) ++
          List.replicate (2 * κ) 0,
         List.range (1 + n * 2 + (n + n / 8))⟩ := by
  rw [signatureBytes_eq_loops lib z2 c hw]
  set Z := List.replicate (1 + n * 2 + (n + n / 8) + 2 * κ) (0 : UInt8) with hZ
  set A := z1Bytes (lib.numModQ ⟨⟨v, n, κ, hn, hκ⟩, d1⟩) (d1.take n) with hA
  set B := z2LeftBytes (z2.data.take n) with hB
  set C := z2RightBytes (z2.data.take n) with hC
  have w0 : Z.length = 1 + n * 2 + (n + n / 8) + 2 * κ := List.length_replicate _ _
  have lA : A.length = 2 * n := by simp only [hA, length_z1Bytes, List.length_take]; omega
  have lB : B.length = n := by simp only [hB, length_z2LeftBytes, List.length_take]; omega
  have lC : C.length = n / 8 := by simp only [hC, length_z2RightBytes, List.length_take]; omega
  have w1 : (writeAt Z 0 [byteOfInt v]).length = Z.length := length_writeAt (by simp; omega)
  have w2 : (writeAt (writeAt Z 0 [byteOfInt v]) 1 A).length = Z.length :=
    (length_writeAt (by omega)).trans w1
  have w3 : (writeAt (writeAt (writeAt Z 0 [byteOfInt v]) 1 A) (1 + n * 2) B).length = Z.length :=
    (length_writeAt (by omega)).trans w2
  rw [z1Loop _ h1 (by simp only; omega) (by simp only [w1]; omega), ok_bind]
  dsimp only
  rw [z2LeftLoop h2 (by simp only; omega) (by simp only [w2]; omega), ok_bind]
  dsimp only
  rw [z2RightLoop h2 (by simp only; omega) (by simp only [w3]; omega), ok_bind]
  dsimp only
  rw [@writeAt_signature Z (byteOfInt v) A B C (1 + n * 2) (1 + n * 2 + n) (by omega) (by omega)
      (by omega), hZ, List.drop_replicate, show 1 + n * 2 + (n + n / 8) + 2 * κ - (1 + n * 2 + n + C.length) =
      2 * κ by omega, range'_chain rfl, range'_chain (by omega), range'_chain (by omega),
    show 1 + 2 * n + n + n / 8 = 1 + n * 2 + (n + n / 8) by omega, ← List.range_eq_range']

/-- For sizes that do not wrap in `uint32`, `z1, z2` of at least `n` coefficients and `c` of at
least `kappa` indices, the code builds `signatureLayout` of the first `n` coefficients and
`kappa` indices, and its stores write the positions of `ret` in order, each once. -/
theorem signatureBytes_eq (lib : Lib K P S E) {z1 z2 : PolyArray} {c : List UInt32}
    (hw : 1 + z1.param.n * 2 + (z1.param.n + z1.param.n / 8) + 2 * z1.param.kappa < 2 ^ 32)
    (h1 : z1.param.n ≤ z1.data.length) (h2 : z1.param.n ≤ z2.data.length)
    (hc : z1.param.kappa ≤ c.length) :
    signatureBytes lib z1 z2 c = .ok ⟨signatureLayout z1.param.version (lib.numModQ z1)
      (z1.data.take z1.param.n) (z2.data.take z1.param.n) (c.take z1.param.kappa),
      List.range (1 + z1.param.n * 2 + (z1.param.n + z1.param.n / 8) + 2 * z1.param.kappa)⟩ := by
  obtain ⟨⟨v, n, κ, hn, hκ⟩, d1⟩ := z1
  simp only at hw h1 h2 hc ⊢
  have hl : (byteOfInt v :: (z1Bytes (lib.numModQ ⟨⟨v, n, κ, hn, hκ⟩, d1⟩) (d1.take n) ++
      z2LeftBytes (z2.data.take n) ++ z2RightBytes (z2.data.take n))).length =
      1 + n * 2 + (n + n / 8) := by simp; omega
  rw [signatureBytes_eq_cLoop lib c hw h1 h2, cLoop hc (by simp only; omega) (by simp; omega)]
  dsimp only
  rw [← hl, writeAt_length_append, hl, List.range_eq_range', range'_chain (Nat.zero_add _).symm,
    ← List.range_eq_range']
  simp [signatureLayout, inf_of_le_left hc]

/-- Where `c` has fewer than `kappa` indices, the loop over `c` reads past its end. -/
theorem signatureBytes_panic (lib : Lib K P S E) {z1 z2 : PolyArray} {c : List UInt32}
    (hw : 1 + z1.param.n * 2 + (z1.param.n + z1.param.n / 8) + 2 * z1.param.kappa < 2 ^ 32)
    (h1 : z1.param.n ≤ z1.data.length) (h2 : z1.param.n ≤ z2.data.length)
    (hc : c.length < z1.param.kappa) :
    signatureBytes lib z1 z2 c = .error .indexOutOfRange := by
  obtain ⟨⟨v, n, κ, hn, hκ⟩, d1⟩ := z1
  simp only at hw h1 h2 hc
  rw [signatureBytes_eq_cLoop lib c hw h1 h2]
  refine forRange_panic hc (cLoop le_rfl (by simp only; omega) (by simp; omega)) ?_
  simp only [cStep, index_of_le (le_refl c.length), error_bind]

/-- For sizes that do not wrap in `uint32`, `newSignature`'s loops panic exactly when `z1` or
`z2` has fewer than `n` coefficients or `c` fewer than `kappa` indices, and then with an index out
of range: the first loop that reads past its data panics, and the slice expressions never do. -/
theorem signatureBytes_panic_iff (lib : Lib K P S E) (z1 z2 : PolyArray) (c : List UInt32)
    (p : Panic)
    (hw : 1 + z1.param.n * 2 + (z1.param.n + z1.param.n / 8) + 2 * z1.param.kappa < 2 ^ 32) :
    signatureBytes lib z1 z2 c = .error p ↔ p = .indexOutOfRange ∧
      (z1.data.length < z1.param.n ∨ z2.data.length < z1.param.n ∨ c.length < z1.param.kappa) := by
  obtain ⟨⟨v, n, κ, hn, hκ⟩, d1⟩ := z1
  simp only at hw ⊢
  have panics : ∀ {x : Except Panic Buf}, x = .error .indexOutOfRange →
      (d1.length < n ∨ z2.data.length < n ∨ c.length < κ) →
      (x = .error p ↔ p = .indexOutOfRange ∧ (d1.length < n ∨ z2.data.length < n ∨ c.length < κ)) :=
    fun hx hs => by rw [hx]; exact ⟨fun h => ⟨(Except.error.inj h).symm, hs⟩, fun h => h.1 ▸ rfl⟩
  by_cases h1 : n ≤ d1.length
  · by_cases h2 : n ≤ z2.data.length
    · by_cases hc : κ ≤ c.length
      · rw [@signatureBytes_eq K P S E lib ⟨⟨v, n, κ, hn, hκ⟩, d1⟩ z2 c hw h1 h2 hc]
        exact iff_of_false (fun h => by cases h) fun h => by rcases h.2 with h | h | h <;> omega
      · exact panics (@signatureBytes_panic K P S E lib ⟨⟨v, n, κ, hn, hκ⟩, d1⟩ z2 c hw h1 h2
          (by simp only; omega))
          (by omega)
    · have w : (writeAt (List.replicate (1 + n * 2 + (n + n / 8) + 2 * κ) 0) 0
          [byteOfInt v]).length = 1 + n * 2 + (n + n / 8) + 2 * κ :=
        (length_writeAt (by simp; omega)).trans (List.length_replicate _ _)
      refine panics ?_ (by omega)
      rw [signatureBytes_eq_loops lib z2 c hw, z1Loop _ h1 (by simp only; omega) (by simp only [w]; omega), ok_bind,
        z2LeftLoop_panic (by omega) (by simp only; omega), error_bind]
  · refine panics ?_ (by omega)
    rw [signatureBytes_eq_loops lib z2 c hw, z1Loop_panic _ (by omega) (by simp only; omega), error_bind]

/-- The array that `newSignature` builds, for `n` a multiple of 8 and inputs whose values fit
their bytes: the loops return, the array is `signatureLayout`, and every position is written
once. Two such inputs of one parameter set give the same bytes only if they have the same
`NumModQ` values, the same `z2` and the same first `kappa` indices. The sizes must not wrap in
`uint32`. -/
theorem newSignature_bytes_injective (lib : Lib K P S E) (z1 z2 z1' z2' : PolyArray)
    (c c' : List UInt32) (hp : z1'.param = z1.param)
    (hw : 1 + z1.param.n * 2 + (z1.param.n + z1.param.n / 8) + 2 * z1.param.kappa < 2 ^ 32)
    (h8 : z1.param.n % 8 = 0)
    (h1 : z1.data.length = z1.param.n) (h2 : z2.data.length = z1.param.n)
    (h1' : z1'.data.length = z1.param.n) (h2' : z2'.data.length = z1.param.n)
    (hq : ∀ x ∈ z1.data, 0 ≤ (lib.numModQ z1 x).toInt ∧ (lib.numModQ z1 x).toInt < 2 ^ 16)
    (hq' : ∀ x ∈ z1'.data, 0 ≤ (lib.numModQ z1' x).toInt ∧ (lib.numModQ z1' x).toInt < 2 ^ 16)
    (hz : ∀ x ∈ z2.data, x.toInt.natAbs < 256) (hz' : ∀ x ∈ z2'.data, x.toInt.natAbs < 256)
    (hc : z1.param.kappa ≤ c.length) (hc' : z1.param.kappa ≤ c'.length)
    (hb : ∀ x ∈ c, x.toNat < 2 ^ 16) (hb' : ∀ x ∈ c', x.toNat < 2 ^ 16) :
    ∃ b b', signatureBytes lib z1 z2 c = .ok b ∧ signatureBytes lib z1' z2' c' = .ok b' ∧
      b.bytes = signatureLayout z1.param.version (lib.numModQ z1) z1.data z2.data
        (c.take z1.param.kappa) ∧
      b.written = List.range b.bytes.length ∧
      (b'.bytes = b.bytes → z1'.data.map (lib.numModQ z1') = z1.data.map (lib.numModQ z1) ∧
        z2'.data = z2.data ∧ c'.take z1.param.kappa = c.take z1.param.kappa) := by
  obtain ⟨p', d1'⟩ := z1'
  simp only at hp h1' hq' ⊢
  subst hp
  have e := signatureBytes_eq lib hw h1.ge h2.ge hc
  have e' := @signatureBytes_eq K P S E lib ⟨z1.param, d1'⟩ z2' c' hw h1'.ge h2'.ge hc'
  rw [List.take_of_length_le h1.le, List.take_of_length_le h2.le] at e
  rw [List.take_of_length_le h1'.le, List.take_of_length_le h2'.le] at e'
  refine ⟨_, _, e, e', rfl, ?_, fun heq => ?_⟩
  · simp only [signatureLayout, List.length_cons, List.length_append, length_z1Bytes,
      length_z2LeftBytes, length_z2RightBytes, length_cBytes, List.length_take, h1, h2]
    congr 1
    omega
  · have fits : LayoutFits z1.param.n z1.param.kappa (lib.numModQ z1) z1.data z2.data
        (c.take z1.param.kappa) :=
      ⟨h1, h2, by simp; omega, fun x hx => (toNat_of_toInt_lt (hq x hx).1 (hq x hx).2).1, hz,
        fun x hx => hb x (List.mem_of_mem_take hx)⟩
    have fits' : LayoutFits z1.param.n z1.param.kappa (lib.numModQ ⟨z1.param, d1'⟩) d1' z2'.data
        (c'.take z1.param.kappa) :=
      ⟨h1', h2', by simp; omega, fun x hx => (toNat_of_toInt_lt (hq' x hx).1 (hq' x hx).2).1, hz',
        fun x hx => hb' x (List.mem_of_mem_take hx)⟩
    exact signatureLayout_injective fits fits' h8 heq

/-- Eight coefficients of both signs and one index. -/
theorem newSignature_bytes_eight_coeffs :
    ∃ b, signatureBytes unitLib ⟨⟨1, 8, 1, by decide, by decide⟩, [0, 1, 2, 3, 4, 5, 6, 7]⟩
      ⟨⟨1, 8, 1, by decide, by decide⟩, [-3, 2, 0, 1, -1, 5, 0, 255]⟩ [5] = .ok b ∧
      b.written = List.range 28 :=
  let ⟨b, _, h, _, hb, hw, _⟩ := newSignature_bytes_injective unitLib
    ⟨⟨1, 8, 1, by decide, by decide⟩, [0, 1, 2, 3, 4, 5, 6, 7]⟩
    ⟨⟨1, 8, 1, by decide, by decide⟩, [-3, 2, 0, 1, -1, 5, 0, 255]⟩
    ⟨⟨1, 8, 1, by decide, by decide⟩, [0, 1, 2, 3, 4, 5, 6, 7]⟩
    ⟨⟨1, 8, 1, by decide, by decide⟩, [-3, 2, 0, 1, -1, 5, 0, 255]⟩ [5] [5] (by rfl) (by decide)
    (by rfl) (by rfl) (by rfl) (by rfl) (by rfl) (by simp [unitLib]) (by simp [unitLib]) (by simp) (by simp) (by decide)
    (by decide) (by decide) (by decide)
  ⟨b, h, by rw [hw, hb]; rfl⟩

/-- The positions of the array, for sizes that do not wrap in `uint32`, `z1, z2` of `n`
coefficients and at least `kappa` indices: the version modulo `256`; `NumModQ(z1_i)` as a
big-endian `uint16` at `1 + 2i`; `|z2_i|` at `1 + 2n + i`, for `|z2_i| < 256`; the sign of `z2_i`
in bit `7 - i % 8` of the byte at `1 + 3n + i / 8`; `c_j` as a big-endian `uint16` at
`1 + 3n + n/8 + 2j`. -/
theorem newSignature_byte_positions (lib : Lib K P S E) (p : BlissBParam)
    (d1 : List (BitVec 32)) (z2 : PolyArray) (cs : List UInt32)
    (hw : 1 + p.n * 2 + (p.n + p.n / 8) + 2 * p.kappa < 2 ^ 32) (h1 : d1.length = p.n)
    (h2 : z2.data.length = p.n) (hc : p.kappa ≤ cs.length) :
    ∃ b, signatureBytes lib ⟨p, d1⟩ z2 cs = .ok b ∧
      b.bytes.length = 1 + 3 * p.n + p.n / 8 + 2 * p.kappa ∧
      b.bytes[0]!.toNat = (p.version % 256).toNat ∧
      (∀ i < p.n, b.bytes[1 + 2 * i]!.toNat * 2 ^ 8 + b.bytes[1 + 2 * i + 1]!.toNat =
        (lib.numModQ ⟨p, d1⟩ d1[i]!).toNat % 2 ^ 16) ∧
      (∀ i < p.n, z2.data[i]!.toInt.natAbs < 256 →
        b.bytes[1 + 2 * p.n + i]!.toNat = z2.data[i]!.toInt.natAbs) ∧
      (∀ i < 8 * (p.n / 8), b.bytes[1 + 3 * p.n + i / 8]!.toNat.testBit (7 - i % 8) =
        decide (0 < z2.data[i]!.toInt)) ∧
      (∀ j < p.kappa, b.bytes[1 + 3 * p.n + p.n / 8 + 2 * j]!.toNat * 2 ^ 8 +
        b.bytes[1 + 3 * p.n + p.n / 8 + 2 * j + 1]!.toNat = cs[j]!.toNat % 2 ^ 16) := by
  have e := @signatureBytes_eq K P S E lib ⟨p, d1⟩ z2 cs hw h1.ge h2.ge hc
  obtain ⟨v, n, κ, hn, hκ⟩ := p
  dsimp only at h1 h2 hc e ⊢
  set f := lib.numModQ ⟨⟨v, n, κ, hn, hκ⟩, d1⟩
  rw [List.take_of_length_le h1.le, List.take_of_length_le h2.le] at e
  refine ⟨_, e, ?_, by simp [signatureLayout, toNat_byteOfInt], fun i hi => ?_, fun i hi hz => ?_,
    fun i hi => ?_, fun j hj => ?_⟩
  · simp [signatureLayout, h1, h2, inf_of_le_left hc]
    omega
  · have h := pair_toNat (@signatureLayout_z1_pair v f d1 z2.data (cs.take κ) i (by omega))
    rwa [toNat_uint16OfInt32, ← getElem!_pos d1 i (by omega)] at h
  · have h := @signatureLayout_z2Left v f d1 z2.data (cs.take κ) i (by omega)
    rw [show 1 + 2 * d1.length + i = 1 + 2 * n + i by omega, ← getElem!_pos z2.data i (by omega)] at h
    rw [List.getElem!_of_getElem? h, toNat_magnitudeByte hz]
  · have hys : ((z2.data.drop (8 * (i / 8))).take 8).length = 8 := by simp; omega
    have h := @signatureLayout_z2Right v f d1 z2.data (cs.take κ) (i / 8) (by omega)
    rw [h1, h2, show 1 + 2 * n + n + i / 8 = 1 + 3 * n + i / 8 by omega] at h
    rw [List.getElem!_of_getElem? h, signByte_testBit hys (by omega), List.getElem_take,
      List.getElem_drop, getElem!_pos z2.data i (by omega)]
    simp only [Nat.div_add_mod]
  · have h := pair_toNat (@signatureLayout_c_pair v f d1 z2.data (cs.take κ) j (by simp; omega))
    rw [h1, h2, show 1 + 2 * n + n + n / 8 + 2 * j = 1 + 3 * n + n / 8 + 2 * j by omega,
      UInt32.toUInt16_toNat, List.getElem_take, ← getElem!_pos cs j (by omega)] at h
    exact h

theorem newSignature_byte_positions_eight_coeffs :
    ∃ b, signatureBytes unitLib ⟨⟨1, 8, 1, by decide, by decide⟩, [0, 1, 2, 3, 4, 5, 6, 7]⟩
      ⟨⟨1, 8, 1, by decide, by decide⟩, [-3, 2, 0, 1, -1, 5, 0, 255]⟩ [5] = .ok b ∧
      b.bytes.length = 28 :=
  let ⟨b, h, hl, _⟩ := newSignature_byte_positions unitLib ⟨1, 8, 1, by decide, by decide⟩
    [0, 1, 2, 3, 4, 5, 6, 7] ⟨⟨1, 8, 1, by decide, by decide⟩, [-3, 2, 0, 1, -1, 5, 0, 255]⟩ [5]
    (by decide) rfl rfl (by decide)
  ⟨b, h, by simpa using hl⟩

/-! ## What the array keeps -/

/-- What `newSignature` hands to `bliss.DecodeSignature` keeps exactly the version modulo
`256`, the low 16 bits of each `NumModQ(z1_i)`, the low byte of each `|z2_i|`, the sign of each
`z2_i` in a full group of eight, and the low 16 bits of each index: for inputs of one `n` with
enough coefficients and indices, and sizes that do not wrap in `uint32`, both arrays exist, and
they are equal exactly when these agree. The signs of the last `n % 8` coefficients of `z2` are
not kept. -/
theorem newSignature_bytes_eq_iff (lib : Lib K P S E) (z1 z2 z1' z2' : PolyArray)
    (c c' : List UInt32) (hn : z1'.param.n = z1.param.n)
    (hw : 1 + z1.param.n * 2 + (z1.param.n + z1.param.n / 8) + 2 * z1.param.kappa < 2 ^ 32)
    (hw' : 1 + z1'.param.n * 2 + (z1'.param.n + z1'.param.n / 8) + 2 * z1'.param.kappa < 2 ^ 32)
    (h1 : z1.param.n ≤ z1.data.length) (h2 : z1.param.n ≤ z2.data.length)
    (hc : z1.param.kappa ≤ c.length) (h1' : z1.param.n ≤ z1'.data.length)
    (h2' : z1.param.n ≤ z2'.data.length) (hc' : z1'.param.kappa ≤ c'.length) :
    ∃ b b', signatureBytes lib z1 z2 c = .ok b ∧ signatureBytes lib z1' z2' c' = .ok b' ∧
      (b'.bytes = b.bytes ↔ z1'.param.version % 256 = z1.param.version % 256 ∧
        (z1'.data.take z1.param.n).map (fun x => (lib.numModQ z1' x).toNat % 2 ^ 16) =
          (z1.data.take z1.param.n).map (fun x => (lib.numModQ z1 x).toNat % 2 ^ 16) ∧
        (z2'.data.take z1.param.n).map (fun x => x.toInt.natAbs % 2 ^ 8) =
          (z2.data.take z1.param.n).map (fun x => x.toInt.natAbs % 2 ^ 8) ∧
        (z2'.data.take (8 * (z1.param.n / 8))).map (fun x => decide (0 < x.toInt)) =
          (z2.data.take (8 * (z1.param.n / 8))).map (fun x => decide (0 < x.toInt)) ∧
        (c'.take z1'.param.kappa).map (fun x => x.toNat % 2 ^ 16) =
          (c.take z1.param.kappa).map (fun x => x.toNat % 2 ^ 16)) := by
  refine ⟨_, _, signatureBytes_eq lib hw h1 h2 hc,
    signatureBytes_eq lib hw' (hn ▸ h1') (hn ▸ h2') hc', ?_⟩
  dsimp only
  rw [hn, signatureLayout_eq_iff (by simp; omega) (by simp; omega), List.length_take,
    Nat.min_eq_left h2, List.take_take, List.take_take, Nat.min_eq_left (Nat.mul_div_le _ _)]

/-- Versions `256` apart, coefficients `2^16` apart in `z1`, `256` apart in magnitude in `z2`
with the same signs, and indices `2^16` apart give one array. -/
theorem newSignature_bytes_eq_iff_wrap :
    ∃ b b', signatureBytes unitLib ⟨⟨1, 8, 1, by decide, by decide⟩, [0, 1, 2, 3, 4, 5, 6, 7]⟩
        ⟨⟨1, 8, 1, by decide, by decide⟩, [-3, 2, 0, 1, -1, 5, 0, 255]⟩ [5] = .ok b ∧
      signatureBytes unitLib ⟨⟨257, 8, 1, by decide, by decide⟩, [65536, 1, 2, 3, 4, 5, 6, 7]⟩
        ⟨⟨1, 8, 1, by decide, by decide⟩, [-259, 258, 0, 1, -1, 5, 0, 255]⟩ [65541] = .ok b' ∧
      b'.bytes = b.bytes :=
  (newSignature_bytes_eq_iff unitLib ⟨⟨1, 8, 1, by decide, by decide⟩, [0, 1, 2, 3, 4, 5, 6, 7]⟩
    ⟨⟨1, 8, 1, by decide, by decide⟩, [-3, 2, 0, 1, -1, 5, 0, 255]⟩
    ⟨⟨257, 8, 1, by decide, by decide⟩, [65536, 1, 2, 3, 4, 5, 6, 7]⟩
    ⟨⟨1, 8, 1, by decide, by decide⟩, [-259, 258, 0, 1, -1, 5, 0, 255]⟩ [5] [65541] rfl
    (by decide) (by decide) (by decide) (by decide) (by decide) (by decide) (by decide)
    (by decide)).imp
    fun _ ⟨b', h, h', e⟩ => ⟨b', h, h', e.mpr ⟨by decide, by decide, by decide, by decide, by decide⟩⟩

end HcdBliss
