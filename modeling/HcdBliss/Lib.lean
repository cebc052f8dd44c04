import HcdBliss.Go.Slice

/-!
# The BLISS library, as the adapter sees it

The adapter wraps the BLISS library (`github.com/coolsnady/bliss` with its packages `poly` and
`sampler`), which is not in the repository, and uses constants of its own package that are
declared in files that are not in it either. The model takes all of these as one parameter,
`Lib`: a result holds for every library unless it names one.

* `BlissBParam`, `PolyArray`: the parts of a parameter set and of a polynomial that the adapter
  reads (`Param().Version`, `Param().N`, `Param().Kappa`, `GetData()`); `N` and `Kappa` are
  `uint32`s.
* `abs`: `bliss.Abs`, the absolute value of an `int32`; `toInt_abs` is its value away from
  `-2^31`.
* `PrivateKey`, `PublicKey`, `Signature`: the package's structs around the library's values,
  and the methods of `PublicKey` in `pubkey.go`.
* `unitLib`, `zeroReader`: a library in which every call succeeds and a reader of zeros, to run
  the theorems on concrete inputs.
-/

namespace HcdBliss

/-- The fields of a parameter set (`*params.BlissBParam`) that the adapter reads. `N` and
`Kappa` are `uint32`s, kept here as their values; the adapter's arithmetic on them wraps modulo
`2^32` (`u32`). -/
structure BlissBParam where
  version : Int
  n : Nat
  kappa : Nat
  n_lt : n < 2 ^ 32
  kappa_lt : kappa < 2 ^ 32
  deriving DecidableEq, Repr

/-- A `*poly.PolyArray`: its parameter set (`Param()`) and its coefficients (`GetData()`, an
`[]int32`). -/
structure PolyArray where
  param : BlissBParam
  data : List (BitVec 32)
  deriving DecidableEq, Repr

/-- A Go `error`, by its message. -/
structure Error where
  msg : String
  deriving DecidableEq, Repr

/-- An `io.Reader` as `rand.Read(buf)` uses it: the contents of `buf` after the call. The
adapter ignores the count and the error that `Read` returns. -/
structure Reader where
  read : List UInt8 → List UInt8
  length_read : ∀ buf, (read buf).length = buf.length

/-- What the adapter calls of the library, over the library's private keys `K`, public keys `P`,
signatures `S` and entropy sources `E`, with the constants of the package declared outside the
repository's sources. -/
structure Lib (K P S E : Type) where
  /-- `bliss.DecodePrivateKey` -/
  decodePrivateKey : List UInt8 → Except Error K
  /-- `bliss.DecodePublicKey` -/
  decodePublicKey : List UInt8 → Except Error P
  /-- `bliss.DecodeSignature` -/
  decodeSignature : List UInt8 → Except Error S
  /-- `bliss.DeserializePrivateKey` -/
  deserializePrivateKey : List UInt8 → Except Error K
  /-- `bliss.DeserializePublicKey` -/
  deserializePublicKey : List UInt8 → Except Error P
  /-- `bliss.DeserializeBlissSignature` -/
  deserializeBlissSignature : List UInt8 → Except Error S
  /-- `(*bliss.PrivateKey).PublicKey` -/
  publicKey : K → P
  /-- `(bliss.PublicKey).Serialize` -/
  serialize : P → List UInt8
  /-- `sampler.NewEntropy` -/
  newEntropy : List UInt8 → Except Error E
  /-- `bliss.GeneratePrivateKey(version, entropy)` -/
  generatePrivateKey : Int → E → Except Error K
  /-- `(bliss.PrivateKey).Sign(hash, entropy)` -/
  sign : K → List UInt8 → E → Except Error S
  /-- `(*bliss.PublicKey).Verify(hash, sig)` -/
  verify : P → List UInt8 → S → Bool × Option Error
  /-- `(*poly.PolyArray).NumModQ` -/
  numModQ : PolyArray → BitVec 32 → BitVec 32
  /-- `sampler.SHA_512_DIGEST_LENGTH` -/
  sha512DigestLength : Nat
  /-- The package's `BlissVersion`. -/
  blissVersion : Int
  /-- The package's `BlissPrivKeyLen`. -/
  blissPrivKeyLen : Nat
  /-- The package's `BlissPubKeyLen`. -/
  blissPubKeyLen : Nat

/-- A library in which every call succeeds, over one-element key, signature and entropy types;
`NumModQ` is the identity. It instantiates the theorems at concrete inputs. -/
def unitLib : Lib Unit Unit Unit Unit where
  decodePrivateKey _ := .ok ()
  decodePublicKey _ := .ok ()
  decodeSignature _ := .ok ()
  deserializePrivateKey _ := .ok ()
  deserializePublicKey _ := .ok ()
  deserializeBlissSignature _ := .ok ()
  publicKey _ := ()
  serialize _ := []
  newEntropy _ := .ok ()
  generatePrivateKey _ _ := .ok ()
  sign _ _ _ := .ok ()
  verify _ _ _ := (true, none)
  numModQ _ x := x
  sha512DigestLength := 64
  blissVersion := 1
  blissPrivKeyLen := 0
  blissPubKeyLen := 0

/-- A reader that leaves the buffer as `make` filled it, with zeros. -/
def zeroReader : Reader := ⟨id, fun _ => rfl⟩

/-! ## `bliss.Abs` -/

/-- `bliss.Abs`: `-x` for a negative `x`. Go's negation wraps, so `-2^31` is its own value. -/
def abs (x : BitVec 32) : BitVec 32 := if BitVec.slt x 0 then -x else x

/-- Away from `-2^31`, `abs` is the absolute value. -/
theorem toInt_abs {x : BitVec 32} (h : x ≠ BitVec.intMin 32) :
    (abs x).toInt = x.toInt.natAbs := by
  unfold abs BitVec.slt
  split
  · rename_i hx
    rw [BitVec.toInt_neg_of_ne_intMin h]
    simp at hx
    omega
  · rename_i hx
    simp at hx
    omega

/-! ## The package's structs -/

/-- The package's `PrivateKey`, embedding a `bliss.PrivateKey`. -/
structure PrivateKey (K : Type) where
  privateKey : K
  deriving DecidableEq, Repr

/-- The package's `PublicKey` (`pubkey.go`). Its other embedded field,
`dcrcrypto.PublicKeyAdapter`, holds nothing that the adapter reads. -/
structure PublicKey (P : Type) where
  publicKey : P
  deriving DecidableEq, Repr

/-- The package's `Signature`, embedding a `bliss.Signature`. -/
structure Signature (S : Type) where
  signature : S
  deriving DecidableEq, Repr

/-- `pqcTypeBliss`, the key type that `PublicKey.GetType` reports. -/
def pqcTypeBliss : Int := 4

namespace PublicKey

variable {K P S E : Type} (lib : Lib K P S E)

/-- `(PublicKey).GetType` -/
def getType (_ : PublicKey P) : Int := pqcTypeBliss

/-- `(PublicKey).Serialize`: the library's serialization of the embedded key. -/
def serialize (p : PublicKey P) : List UInt8 := lib.serialize p.publicKey

/-- `(PublicKey).SerializeCompressed` -/
def serializeCompressed (p : PublicKey P) : List UInt8 := serialize lib p

/-- `(PublicKey).SerializeUnCompressed` -/
def serializeUnCompressed (p : PublicKey P) : List UInt8 := serialize lib p

end PublicKey

end HcdBliss
