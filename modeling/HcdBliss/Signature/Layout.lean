import HcdBliss.Lib

/-!
# The byte layout of a signature

What `newSignature` puts in front of `bliss.DecodeSignature`, stated as a list: the version
byte; each `NumModQ(z1_i)` as a big-endian `uint16`; the magnitudes `|z2_i|`, one byte each;
the signs of `z2`, eight to a byte, the first in the top bit; each challenge index `c_j` as a
big-endian `uint16`. `Signature/Encode.lean` proves that the code's loops write exactly this.

* `signByte_testBit`: bit `7 - j` of the byte packed from eight coefficients is set iff
  coefficient `j` is positive.
* `decodeSignature`: reads the parts back, cutting the bytes where the code's sub-slices
  (`z1part`, `z2left`, `z2right`, `cpart`) cut them. `decodeSignature_signatureLayout` is the
  round trip: for `n` a multiple of 8, `NumModQ` values and indices in `[0, 2^16)` and
  `|z2_i| < 256`, it returns the values, the coefficients of `z2` and the indices.
* `signatureLayout_injective`: for inputs that fit their bytes (`LayoutFits`), equal layouts
  come from equal `NumModQ` values, coefficients of `z2` and indices.
* `signatureLayout_eq_iff`: what the layout keeps of any input, part by part
  (`z1Bytes_eq_iff`, `z2LeftBytes_eq_iff`, `z2RightBytes_eq_iff`, `cBytes_eq_iff`): the low 16
  bits of each `NumModQ` value and index, the low byte of each magnitude, and the signs of the
  full groups of eight.
-/

namespace HcdBliss

/-! ## The parts -/

/-- The bytes of `z1`: each `NumModQ(z1_i)` as a `uint16`. -/
def z1Bytes (numModQ : BitVec 32 → BitVec 32) (xs : List (BitVec 32)) : List UInt8 :=
  xs.flatMap fun x => uint16Bytes (uint16OfInt32 (numModQ x))

/-- The magnitude byte of a coefficient of `z2`: `byte(uint16(bliss.Abs(x)) & 0xff)`. -/
def magnitudeByte (x : BitVec 32) : UInt8 := (uint16OfInt32 (abs x) &&& 0xff).toUInt8

/-- The magnitudes of `z2`. -/
def z2LeftBytes (xs : List (BitVec 32)) : List UInt8 := xs.map magnitudeByte

/-- One step of packing signs: shift left, and add one for a positive coefficient. -/
def signStepByte (t : UInt8) (x : BitVec 32) : UInt8 :=
  if BitVec.slt 0 x then (t <<< 1) + 1 else t <<< 1

/-- The signs of a group of coefficients, packed into one byte, the first in the top bit. -/
def signByte (ys : List (BitVec 32)) : UInt8 := ys.foldl signStepByte 0

/-- The signs of `z2`: one byte per full group of eight coefficients. -/
def z2RightBytes (xs : List (BitVec 32)) : List UInt8 :=
  (List.range (xs.length / 8)).map fun i => signByte ((xs.drop (8 * i)).take 8)

/-- The bytes of the challenge: each index as a `uint16`. -/
def cBytes (cs : List UInt32) : List UInt8 := cs.flatMap fun c => uint16Bytes c.toUInt16

/-- The bytes of a signature. -/
def signatureLayout (version : Int) (numModQ : BitVec 32 → BitVec 32) (z1 z2 : List (BitVec 32))
    (c : List UInt32) : List UInt8 :=
  byteOfInt version :: (z1Bytes numModQ z1 ++ z2LeftBytes z2 ++ z2RightBytes z2 ++ cBytes c)

@[simp] theorem length_z1Bytes (f : BitVec 32 → BitVec 32) (xs : List (BitVec 32)) :
    (z1Bytes f xs).length = 2 * xs.length :=
  @length_flatMap_const _ _ (fun x => uint16Bytes (uint16OfInt32 (f x))) 2
    (fun _ => length_uint16Bytes _) xs

@[simp] theorem length_z2LeftBytes (xs : List (BitVec 32)) : (z2LeftBytes xs).length = xs.length :=
  List.length_map _ _

@[simp] theorem length_z2RightBytes (xs : List (BitVec 32)) :
    (z2RightBytes xs).length = xs.length / 8 := by
  simp [z2RightBytes]

@[simp] theorem length_cBytes (cs : List UInt32) : (cBytes cs).length = 2 * cs.length :=
  @length_flatMap_const _ _ (fun c : UInt32 => uint16Bytes c.toUInt16) 2
    (fun _ => length_uint16Bytes _) cs

theorem z1Bytes_chunk (f : BitVec 32 → BitVec 32) (xs : List (BitVec 32)) {i : Nat}
    (hi : i < xs.length) :
    ((z1Bytes f xs).drop (2 * i)).take 2 = uint16Bytes (uint16OfInt32 (f xs[i])) :=
  @flatMap_chunk _ _ (fun x => uint16Bytes (uint16OfInt32 (f x))) 2 (fun _ => length_uint16Bytes _)
    xs i hi

theorem cBytes_chunk (cs : List UInt32) {i : Nat} (hi : i < cs.length) :
    ((cBytes cs).drop (2 * i)).take 2 = uint16Bytes cs[i].toUInt16 :=
  @flatMap_chunk _ _ (fun c : UInt32 => uint16Bytes c.toUInt16) 2 (fun _ => length_uint16Bytes _)
    cs i hi

/-! ## The sign bits -/

theorem toNat_signStepByte {t : UInt8} (x : BitVec 32) (ht : t.toNat < 2 ^ 7) :
    (signStepByte t x).toNat = 2 * t.toNat + if 0 < x.toInt then 1 else 0 := by
  have hs : (t <<< 1).toNat = 2 * t.toNat := by
    show (t.toBitVec <<< (1 : Nat)).toNat = _
    rw [BitVec.toNat_shiftLeft, Nat.shiftLeft_eq]
    show t.toNat * 2 % 2 ^ 8 = _
    omega
  have h0 : (0 : BitVec 32).toInt = 0 := rfl
  unfold signStepByte BitVec.slt
  by_cases h : 0 < x.toInt
  · rw [if_pos (by simpa [h0] using h), if_pos h, UInt8.toNat_add, hs]
    show (2 * t.toNat + 1) % 256 = _
    omega
  · rw [if_neg (by simpa [h0] using h), if_neg h, hs, Nat.add_zero]

/-- Packing `ys` after `t`: the result keeps below `2 ^ (k + |ys|)`, holds the sign of `ys[j]` in
bit `|ys| - 1 - j`, and holds `t` above them. -/
theorem foldl_signStepByte {ys : List (BitVec 32)} {t : UInt8} {k : Nat} (ht : t.toNat < 2 ^ k)
    (hk : k + ys.length ≤ 8) :
    (ys.foldl signStepByte t).toNat < 2 ^ (k + ys.length) ∧
    (∀ j (hj : j < ys.length),
      (ys.foldl signStepByte t).toNat.testBit (ys.length - 1 - j) = decide (0 < ys[j].toInt)) ∧
    ∀ m, (ys.foldl signStepByte t).toNat.testBit (ys.length + m) = t.toNat.testBit m := by
  induction ys generalizing t k with
  | nil => exact ⟨by simpa using ht, fun j hj => absurd hj (Nat.not_lt_zero _), by simp⟩
  | cons y ys ih =>
    simp only [List.length_cons] at hk
    have hk7 : t.toNat < 2 ^ 7 := Nat.lt_of_lt_of_le ht (Nat.pow_le_pow_right (by omega) (by omega))
    have hy := toNat_signStepByte y hk7
    have h' : (signStepByte t y).toNat < 2 ^ (k + 1) := by
      rw [hy, Nat.pow_succ]; split <;> omega
    obtain ⟨h1, h2, h3⟩ := ih h' (by omega)
    refine ⟨by simpa [Nat.add_assoc, Nat.add_comm 1] using h1, fun j hj => ?_, fun m => ?_⟩
    · cases j with
      | zero =>
        have := h3 0
        simp only [List.foldl_cons, List.length_cons, Nat.add_zero] at this ⊢
        rw [show ys.length + 1 - 1 - 0 = ys.length by omega, this, Nat.testBit_zero, hy,
          List.getElem_cons_zero]
        by_cases hy0 : 0 < y.toInt <;> simp [hy0]; omega
      | succ j =>
        simp only [List.foldl_cons, List.length_cons, List.getElem_cons_succ]
        rw [show ys.length + 1 - 1 - (j + 1) = ys.length - 1 - j by omega]
        exact h2 j (by simpa using hj)
    · simp only [List.foldl_cons, List.length_cons]
      rw [show ys.length + 1 + m = ys.length + (m + 1) by omega, h3, ← Nat.testBit_div_two, hy]
      congr 1; split <;> omega

/-- Bit `7 - j` of the byte packed from eight coefficients is set iff coefficient `j` is
positive. -/
theorem signByte_testBit {ys : List (BitVec 32)} (h : ys.length = 8) {j : Nat}
    (hj : j < ys.length) : (signByte ys).toNat.testBit (7 - j) = decide (0 < ys[j].toInt) := by
  have := (@foldl_signStepByte ys 0 0 (by decide) (by omega)).2.1 j hj
  rwa [show ys.length - 1 - j = 7 - j by omega] at this

/-! ## Reading a signature back -/

/-- `uint16`s from pairs of bytes, high byte first. -/
def decodePairs : List UInt8 → List Nat
  | hi :: lo :: rest => (hi.toNat * 2 ^ 8 + lo.toNat) :: decodePairs rest
  | _ => []

/-- The signs that bytes of sign bits hold: bit `7 - j` of each byte, for `j = 0, …, 7`. -/
def signsOf (bs : List UInt8) : List Bool :=
  bs.flatMap fun v => (List.range 8).map fun j => v.toNat.testBit (7 - j)

/-- A coefficient from its magnitude byte and its sign bit. -/
def signed (m : UInt8) (s : Bool) : Int := if s then m.toNat else -(m.toNat : Int)

/-- What a signature's bytes hold, for `n` coefficients and `kappa` indices: the values
`NumModQ(z1_i)`, the coefficients of `z2`, and the indices, cut where the code's sub-slices
`z1part`, `z2part`, `z2left`, `z2right` and `cpart` cut the array. -/
def decodeSignature (n kappa : Nat) (bs : List UInt8) : List Nat × List Int × List Nat :=
  let body := bs.drop 1
  let z2part := body.drop (n * 2)
  let cpart := z2part.drop (n + n / 8)
  (decodePairs (body.take (n * 2)),
   List.zipWith signed (z2part.take n) (signsOf ((z2part.drop n).take (n / 8))),
   decodePairs (cpart.take (2 * kappa)))

theorem decodePairs_flatMap {α : Type} (g : α → UInt16) :
    ∀ xs : List α, decodePairs (xs.flatMap fun x => uint16Bytes (g x)) = xs.map fun x => (g x).toNat
  | [] => rfl
  | x :: xs => by
    rw [List.flatMap_cons, List.map_cons, ← decodePairs_flatMap g xs]
    show decodePairs ((g x >>> 8).toUInt8 :: (g x &&& 0xff).toUInt8 :: _) = _
    rw [decodePairs, uint16_bytes]
    rfl

/-- The signs of one group of eight coefficients. -/
theorem signsOf_signByte {ys : List (BitVec 32)} (h : ys.length = 8) :
    signsOf [signByte ys] = ys.map fun x => decide (0 < x.toInt) := by
  refine List.ext_getElem (by simp [signsOf, h]) fun j h₁ h₂ => ?_
  simp only [signsOf, List.flatMap_cons, List.flatMap_nil, List.append_nil, List.length_map,
    List.length_range] at h₁ h₂ ⊢
  simp only [List.getElem_map, List.getElem_range]
  exact signByte_testBit h h₂

/-- The sign bytes of `z2` hold the signs of its first `8 * (n / 8)` coefficients. -/
theorem signsOf_z2RightBytes (xs : List (BitVec 32)) :
    signsOf (z2RightBytes xs) = (xs.take (8 * (xs.length / 8))).map fun x => decide (0 < x.toInt) := by
  have key : ∀ m, 8 * m ≤ xs.length →
      signsOf ((List.range m).map fun i => signByte ((xs.drop (8 * i)).take 8)) =
        (xs.take (8 * m)).map fun x => decide (0 < x.toInt) := by
    intro m
    induction m with
    | zero => intro; rfl
    | succ m ih =>
      intro hm
      have hc : ((xs.drop (8 * m)).take 8).length = 8 := by simp; omega
      rw [List.range_succ, List.map_append, signsOf, List.flatMap_append, ← signsOf, ← signsOf,
        ih (by omega), List.map_singleton, signsOf_signByte hc, Nat.mul_succ, List.take_add,
        List.map_append]
  exact key _ (Nat.mul_div_le _ _)

/-- A magnitude byte holds the low byte of the absolute value; for `-2^31`, whose `bliss.Abs`
overflows to itself, this low byte is `0`. -/
theorem toNat_magnitudeByte_eq (x : BitVec 32) :
    (magnitudeByte x).toNat = x.toInt.natAbs % 2 ^ 8 := by
  by_cases hmin : x = BitVec.intMin 32
  · subst hmin
    decide
  have ha := toInt_abs hmin
  have hc := BitVec.toInt_eq_toNat_cond (abs x)
  have := (abs x).isLt
  simp only [magnitudeByte, toNat_toUInt8_and, toNat_uint16OfInt32]
  split at hc <;> omega

/-- A magnitude byte holds the absolute value, below `256`. -/
theorem toNat_magnitudeByte {x : BitVec 32} (h : x.toInt.natAbs < 256) :
    (magnitudeByte x).toNat = x.toInt.natAbs := by
  rw [toNat_magnitudeByte_eq]
  exact Nat.mod_eq_of_lt h

/-- A coefficient of `z2` below `256` in absolute value is its magnitude byte with its sign. -/
theorem signed_magnitudeByte {x : BitVec 32} (h : x.toInt.natAbs < 256) :
    signed (magnitudeByte x) (decide (0 < x.toInt)) = x.toInt := by
  rw [signed, toNat_magnitudeByte h]
  by_cases hx : 0 < x.toInt
  · rw [if_pos (decide_eq_true hx)]
    omega
  · rw [if_neg (by simpa using hx)]
    omega

/-- The round trip: the decoder returns what the layout holds. -/
theorem decodeSignature_signatureLayout {v : Int} {f : BitVec 32 → BitVec 32}
    {z1 z2 : List (BitVec 32)} {c : List UInt32} {n kappa : Nat} (h1 : z1.length = n)
    (h2 : z2.length = n) (h8 : n % 8 = 0) (hc : c.length = kappa)
    (hz2 : ∀ x ∈ z2, x.toInt.natAbs < 256) :
    decodeSignature n kappa (signatureLayout v f z1 z2 c) =
      (z1.map fun x => (uint16OfInt32 (f x)).toNat, z2.map BitVec.toInt,
        c.map fun c => c.toUInt16.toNat) := by
  have hA : (z1Bytes f z1).length = n * 2 := by simp [h1, Nat.mul_comm]
  have hB : (z2LeftBytes z2).length = n := by simp [h2]
  have hC : (z2RightBytes z2).length = n / 8 := by simp [h2]
  have hD : (cBytes c).length = 2 * kappa := by simp [hc]
  simp only [decodeSignature, signatureLayout, List.drop_succ_cons, List.drop_zero,
    List.append_assoc, List.take_left' hA, List.drop_left' hA, List.take_left' hB,
    List.drop_left' hB, List.take_left' hC, ← List.drop_drop, List.drop_left' hC,
    List.take_of_length_le (le_of_eq hD)]
  refine Prod.ext (decodePairs_flatMap _ z1) (Prod.ext ?_ (decodePairs_flatMap _ c))
  rw [signsOf_z2RightBytes, h2, Nat.mul_div_cancel' (Nat.dvd_of_mod_eq_zero h8), ← h2,
    List.take_length, z2LeftBytes, List.zipWith_map, List.zipWith_same]
  exact List.map_congr_left fun x hx => signed_magnitudeByte (hz2 x hx)

/-! ## Positions in the layout -/

/-- A big-endian pair of bytes read back as a number. -/
theorem pair_toNat {L : List UInt8} {off : Nat} {u : UInt16}
    (h : (L.drop off).take 2 = uint16Bytes u) :
    L[off]!.toNat * 2 ^ 8 + L[off + 1]!.toNat = u.toNat := by
  rw [List.getElem!_of_getElem? (by simpa using getElem?_of_chunk h (show 0 < 2 by omega)),
    List.getElem!_of_getElem? (getElem?_of_chunk h (show 1 < 2 by omega))]
  exact uint16_bytes u

section Positions

variable {v : Int} {f : BitVec 32 → BitVec 32} {z1 z2 : List (BitVec 32)} {cs : List UInt32}

theorem drop_signatureLayout (k : Nat) :
    (signatureLayout v f z1 z2 cs).drop (1 + k) =
      (z1Bytes f z1 ++ z2LeftBytes z2 ++ z2RightBytes z2 ++ cBytes cs).drop k := by
  rw [Nat.add_comm]
  rfl

/-- `NumModQ(z1_i)` is the pair of bytes at `1 + 2i`. -/
theorem signatureLayout_z1_pair {i : Nat} (hi : i < z1.length) :
    ((signatureLayout v f z1 z2 cs).drop (1 + 2 * i)).take 2 =
      uint16Bytes (uint16OfInt32 (f z1[i])) := by
  rw [drop_signatureLayout, List.append_assoc, List.append_assoc, chunk_append (by simp; omega),
    z1Bytes_chunk f z1 hi]

/-- `|z2_i|` is the byte at `1 + 2n + i`. -/
theorem signatureLayout_z2Left {i : Nat} (hi : i < z2.length) :
    (signatureLayout v f z1 z2 cs)[1 + 2 * z1.length + i]? = some (magnitudeByte z2[i]) := by
  rw [← List.getElem?_drop, drop_signatureLayout]
  simp only [List.append_assoc]
  rw [drop_append_of_eq (by simp), List.getElem?_append_left (by simpa using hi), z2LeftBytes,
    List.getElem?_map, List.getElem?_eq_getElem hi]
  rfl

/-- The signs of `z2_{8i}, …, z2_{8i+7}` are the byte at `1 + 3n + i`. -/
theorem signatureLayout_z2Right {i : Nat} (hi : i < z2.length / 8) :
    (signatureLayout v f z1 z2 cs)[1 + 2 * z1.length + z2.length + i]? =
      some (signByte ((z2.drop (8 * i)).take 8)) := by
  rw [← List.getElem?_drop, Nat.add_assoc, drop_signatureLayout]
  simp only [List.append_assoc]
  rw [drop_append_add (by simp), drop_append_of_eq (by simp),
    List.getElem?_append_left (by simpa using hi), z2RightBytes, List.getElem?_map,
    List.getElem?_range hi]
  rfl

/-- `c_j` is the pair of bytes at `1 + 3n + n/8 + 2j`. -/
theorem signatureLayout_c_pair {j : Nat} (hj : j < cs.length) :
    ((signatureLayout v f z1 z2 cs).drop
        (1 + 2 * z1.length + z2.length + z2.length / 8 + 2 * j)).take 2 =
      uint16Bytes cs[j].toUInt16 := by
  rw [show 1 + 2 * z1.length + z2.length + z2.length / 8 + 2 * j =
      1 + (2 * z1.length + (z2.length + (z2.length / 8 + 2 * j))) by omega, drop_signatureLayout]
  simp only [List.append_assoc]
  rw [drop_append_add (by simp), drop_append_add (by simp), drop_append_add (by simp),
    cBytes_chunk cs hj]

end Positions

/-! ## The layout loses nothing -/

/-- The inputs whose values fit their bytes: `n` coefficients each, `kappa` indices, `NumModQ`
values and indices below `2^16`, and `|z2_i| < 256`. -/
structure LayoutFits (n kappa : Nat) (f : BitVec 32 → BitVec 32) (z1 z2 : List (BitVec 32))
    (c : List UInt32) : Prop where
  length_z1 : z1.length = n
  length_z2 : z2.length = n
  length_c : c.length = kappa
  numModQ_lt : ∀ x ∈ z1, (f x).toNat < 2 ^ 16
  natAbs_lt : ∀ x ∈ z2, x.toInt.natAbs < 256
  index_lt : ∀ x ∈ c, x.toNat < 2 ^ 16

/-- For inputs that fit, the decoder returns the `NumModQ` values, the coefficients of `z2` and
the indices themselves. -/
theorem LayoutFits.decode {n kappa : Nat} {f : BitVec 32 → BitVec 32} {z1 z2 : List (BitVec 32)}
    {c : List UInt32} (hf : LayoutFits n kappa f z1 z2 c) (h8 : n % 8 = 0) (v : Int) :
    decodeSignature n kappa (signatureLayout v f z1 z2 c) =
      ((z1.map f).map BitVec.toNat, z2.map BitVec.toInt, c.map UInt32.toNat) := by
  rw [decodeSignature_signatureLayout hf.length_z1 hf.length_z2 h8 hf.length_c hf.natAbs_lt,
    List.map_map]
  congr 1
  · exact List.map_congr_left fun x hx => by
      simp only [Function.comp, toNat_uint16OfInt32, Nat.mod_eq_of_lt (hf.numModQ_lt x hx)]
  · exact congrArg _ (List.map_congr_left fun x hx => by
      rw [UInt32.toUInt16_toNat, Nat.mod_eq_of_lt (hf.index_lt x hx)])

/-- Two inputs that fit and have the same layout have the same `NumModQ` values, coefficients
of `z2` and indices. -/
theorem signatureLayout_injective {n kappa : Nat} {v v' : Int} {f f' : BitVec 32 → BitVec 32}
    {z1 z2 z1' z2' : List (BitVec 32)} {c c' : List UInt32} (hf : LayoutFits n kappa f z1 z2 c)
    (hf' : LayoutFits n kappa f' z1' z2' c') (h8 : n % 8 = 0)
    (h : signatureLayout v' f' z1' z2' c' = signatureLayout v f z1 z2 c) :
    z1'.map f' = z1.map f ∧ z2' = z2 ∧ c' = c := by
  have e := congrArg (decodeSignature n kappa) h
  rw [hf.decode h8, hf'.decode h8, Prod.mk.injEq, Prod.mk.injEq] at e
  exact ⟨List.map_injective_iff.mpr (fun _ _ => BitVec.eq_of_toNat_eq) e.1,
    List.map_injective_iff.mpr (fun _ _ => BitVec.eq_of_toInt_eq) e.2.1,
    List.map_injective_iff.mpr (fun _ _ => UInt32.toNat.inj) e.2.2⟩

/-! ## What the layout keeps -/

section Kernel

variable {v v' : Int} {f f' : BitVec 32 → BitVec 32} {z1 z2 z1' z2' : List (BitVec 32)}
  {cs cs' : List UInt32}

/-- The signs of the bytes `bs`: a byte is its eight bits, so the sign decoder is injective. -/
theorem signsOf_inj {bs bs' : List UInt8} (h : signsOf bs = signsOf bs') : bs = bs' := by
  have hlen : ∀ bs : List UInt8, (signsOf bs).length = 8 * bs.length :=
    length_flatMap_const fun _ => by simp
  induction bs generalizing bs' with
  | nil =>
    cases bs' with
    | nil => rfl
    | cons => have := congrArg List.length h; simp only [hlen, List.length_cons, List.length_nil] at this; omega
  | cons u bs ih =>
    cases bs' with
    | nil => have := congrArg List.length h; simp only [hlen, List.length_cons, List.length_nil] at this; omega
    | cons w bs' =>
      obtain ⟨e₁, e₂⟩ := List.append_inj h (by simp)
      refine congrArg₂ _ (UInt8.toNat.inj (Nat.eq_of_testBit_eq fun j => ?_)) (ih e₂)
      by_cases hj : j < 8
      · simpa [List.getElem?_range (show 7 - j < 8 by omega), show 7 - (7 - j) = j by omega] using
          congrArg (·[7 - j]?) e₁
      · have h8 : 2 ^ 8 ≤ 2 ^ j := Nat.pow_le_pow_right (by omega) (by omega)
        rw [Nat.testBit_lt_two_pow (by have := u.toNat_lt; omega),
          Nat.testBit_lt_two_pow (by have := w.toNat_lt; omega)]

/-- The bytes of `z1` keep the low 16 bits of each `NumModQ` value. -/
theorem z1Bytes_eq_iff : z1Bytes f' z1' = z1Bytes f z1 ↔
    z1'.map (fun x => (f' x).toNat % 2 ^ 16) = z1.map (fun x => (f x).toNat % 2 ^ 16) := by
  rw [z1Bytes, z1Bytes, flatMap_uint16Bytes_eq_iff]
  exact map_eq_map_iff_of_eq_iff (fun _ _ => uint16OfInt32_eq_iff) _ _

/-- The magnitude bytes keep the low byte of each absolute value. -/
theorem z2LeftBytes_eq_iff : z2LeftBytes z2' = z2LeftBytes z2 ↔
    z2'.map (fun x => x.toInt.natAbs % 2 ^ 8) = z2.map (fun x => x.toInt.natAbs % 2 ^ 8) :=
  map_eq_map_iff_of_eq_iff (fun _ _ => by
    rw [UInt8.ext_iff, toNat_magnitudeByte_eq, toNat_magnitudeByte_eq]) _ _

/-- The sign bytes of two lists of one length are equal exactly when the lists have the same
signs over their full groups of eight. -/
theorem z2RightBytes_eq_iff (h : z2'.length = z2.length) :
    z2RightBytes z2' = z2RightBytes z2 ↔
      (z2'.take (8 * (z2.length / 8))).map (fun x => decide (0 < x.toInt)) =
        (z2.take (8 * (z2.length / 8))).map (fun x => decide (0 < x.toInt)) := by
  rw [← signsOf_z2RightBytes, ← h, ← signsOf_z2RightBytes]
  exact ⟨congrArg signsOf, signsOf_inj⟩

/-- The bytes of the challenge keep the low 16 bits of each index. -/
theorem cBytes_eq_iff : cBytes cs' = cBytes cs ↔
    cs'.map (fun x => x.toNat % 2 ^ 16) = cs.map (fun x => x.toNat % 2 ^ 16) := by
  rw [cBytes, cBytes, flatMap_uint16Bytes_eq_iff]
  exact map_eq_map_iff_of_eq_iff (fun _ _ => by
    rw [UInt16.ext_iff, UInt32.toUInt16_toNat, UInt32.toUInt16_toNat]) _ _

/-- Two signature layouts of one shape are equal exactly when the versions agree modulo `256`, the
`NumModQ` values have the same low 16 bits, the magnitudes the same low byte, the
coefficients of `z2` the same signs over the full groups of eight, and the indices the same low
16 bits. -/
theorem signatureLayout_eq_iff (h1 : z1'.length = z1.length) (h2 : z2'.length = z2.length) :
    signatureLayout v' f' z1' z2' cs' = signatureLayout v f z1 z2 cs ↔ v' % 256 = v % 256 ∧
      z1'.map (fun x => (f' x).toNat % 2 ^ 16) = z1.map (fun x => (f x).toNat % 2 ^ 16) ∧
      z2'.map (fun x => x.toInt.natAbs % 2 ^ 8) = z2.map (fun x => x.toInt.natAbs % 2 ^ 8) ∧
      (z2'.take (8 * (z2.length / 8))).map (fun x => decide (0 < x.toInt)) =
        (z2.take (8 * (z2.length / 8))).map (fun x => decide (0 < x.toInt)) ∧
      cs'.map (fun x => x.toNat % 2 ^ 16) = cs.map (fun x => x.toNat % 2 ^ 16) := by
  rw [signatureLayout, signatureLayout, List.cons_eq_cons, byteOfInt_eq_iff,
    append_eq_append_iff_of_length (by simp [h1, h2]), append_eq_append_iff_of_length (by simp [h1, h2]),
    append_eq_append_iff_of_length (by simp [h1]), z1Bytes_eq_iff, z2LeftBytes_eq_iff,
    z2RightBytes_eq_iff h2, cBytes_eq_iff]
  simp only [and_assoc]

end Kernel

end HcdBliss
