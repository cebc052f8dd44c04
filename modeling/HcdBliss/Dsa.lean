import HcdBliss.PrivateKey
import HcdBliss.Signature.Encode

/-!
# `newBlissDSA`: the scheme behind the `DSA` interface

`newBlissDSA` fills a `blissDSA`, a struct of closures, and each method of `blissDSA`
(`NewPrivateKey`, …, `Verify`) calls the closure of its name: here the closures are the fields
of `BlissDSA` and the methods are its projections. Keys and signatures reach the caller as
interface values (`Iface`). `GenerateKey`, `NewPrivateKey`, `NewPublicKey`, `ParsePubKey` and
the signature constructors hand out pointers; `PrivKeyFromBytes` hands out values. `Sign` takes
its key back with the assertion `priv.(PrivateKey)`, `Verify` with `sig.(*Signature)` and
`pub.(*PublicKey)`, and reads through both pointers; a failed assertion panics, and so does a
read through a nil pointer that passed its assertion.

- **Key pairs** (`generateKey_cases`, `privKeyFromBytes_cases`). Both return nil keys or the
  library's private key with its own public key.
- **Where `Verify` panics** (`verify_panics_iff`). `Verify` returns exactly when the signature
  and the key are non-nil pointers; a nil pointer of the right type panics on its dereference.
- **Where the constructors panic** (`newPublicKey_panics_iff`, `newPrivateKey_panics_iff`,
  `newSignature_panics_iff`). Past the nil checks, each panics exactly when a polynomial has
  fewer than `N` coefficients or `c` fewer than `Kappa` indices, or when a size, computed in
  `uint32`, wraps: `NewPublicKey` then stores past the end of its array, and `NewPrivateKey`
  cuts a slice past the end of its own.
- **The keys of the scheme**. The private keys of `GenerateKey` and `NewPrivateKey` make `Sign`
  panic (`sign_pointer_keys_panic`), and the public key of `PrivKeyFromBytes` makes `Verify`
  panic (`verify_privKeyFromBytes_panics`).
-/

namespace HcdBliss

variable {K P S E : Type}

/-! ## The closures -/

/-- The `seed` of `generateKey` and `sign`: `make([]byte, sampler.SHA_512_DIGEST_LENGTH)` after
`rand.Read(seed)`. -/
def readSeed (lib : Lib K P S E) (rand : Reader) : List UInt8 :=
  rand.read (List.replicate lib.sha512DigestLength 0)

/-- `privKeyFromBytes`: the key in `pk` with its public key, as values, or two nils. -/
def privKeyFromBytes (lib : Lib K P S E) (pk : List UInt8) :
    Iface (PrivateKey K) × Iface (PublicKey P) :=
  match lib.deserializePrivateKey pk with
  | .error _ => (.nil, .nil)
  | .ok blissPK => (.val ⟨blissPK⟩, .val ⟨lib.publicKey blissPK⟩)

/-- `parsePubKey` -/
def parsePubKey (lib : Lib K P S E) (pubKeyStr : List UInt8) : Iface (PublicKey P) × Option Error :=
  match lib.deserializePublicKey pubKeyStr with
  | .error err => (.nil, some err)
  | .ok blissPK => (.ptr ⟨blissPK⟩, none)

/-- The body of `parseDERSignature` and `parseSignature`, which the source writes twice. -/
def deserializeSignature (lib : Lib K P S E) (sigStr : List UInt8) :
    Iface (Signature S) × Option Error :=
  match lib.deserializeBlissSignature sigStr with
  | .error err => (.nil, some err)
  | .ok sig => (.ptr ⟨sig⟩, none)

/-- `parseDERSignature` -/
def parseDERSignature (lib : Lib K P S E) (sigStr : List UInt8) :
    Iface (Signature S) × Option Error :=
  deserializeSignature lib sigStr

/-- `parseSignature` -/
def parseSignature (lib : Lib K P S E) (sigStr : List UInt8) : Iface (Signature S) × Option Error :=
  deserializeSignature lib sigStr

/-- `recoverCompact`: BLISS cannot recover a key, so it returns `nil, false, nil`. -/
def recoverCompact (_signature _hash : List UInt8) : Iface (PublicKey P) × Bool × Option Error :=
  (.nil, false, none)

/-- `generateKey`: a fresh private key and its public key, both as pointers. -/
def generateKey (lib : Lib K P S E) (rand : Reader) :
    Iface (PrivateKey K) × Iface (PublicKey P) × Option Error :=
  match lib.newEntropy (readSeed lib rand) with
  | .error err => (.nil, .nil, some err)
  | .ok entropy =>
    match lib.generatePrivateKey lib.blissVersion entropy with
    | .error err => (.nil, .nil, some err)
    | .ok blissPK => (.ptr ⟨blissPK⟩, .ptr ⟨lib.publicKey blissPK⟩, none)

/-- `sign`. Its `rand` is the package `crypto/rand`; `priv.(PrivateKey)` asserts the value
type. -/
def sign (lib : Lib K P S E) (rand : Reader) (priv : Iface (PrivateKey K)) (hash : List UInt8) :
    Except Panic (Iface (Signature S) × Option Error) :=
  match lib.newEntropy (readSeed lib rand) with
  | .error err => pure (.nil, some err)
  | .ok entropy => do
    let priv1 ← priv.assertVal
    match lib.sign priv1.privateKey hash entropy with
    | .error err => pure (.nil, some err)
    | .ok sig => pure (.ptr ⟨sig⟩, none)

/-- `verify`: the library's verdict; the error that comes with it is dropped. `sig.(*Signature)`
passes a nil `*Signature`, and `signature.Signature` then reads through it; `pub.(*PublicKey)`
likewise, before the call of its method `Verify` reads the embedded key. -/
def verify (lib : Lib K P S E) (pub : Iface (PublicKey P)) (hash : List UInt8)
    (sig : Iface (Signature S)) : Except Panic Bool := do
  let signature ← sig.assertPtr
  let blissSig := (← deref signature).signature
  let pub1 ← deref (← pub.assertPtr)
  pure (lib.verify pub1.publicKey hash blissSig).1

/-- `blissDSA`: the closures of the scheme, one field each. -/
structure BlissDSA (K P S : Type) where
  newPrivateKey : Option PolyArray → Option PolyArray → Option PolyArray →
    Except Panic (Iface (PrivateKey K))
  privKeyFromBytes : List UInt8 → Iface (PrivateKey K) × Iface (PublicKey P)
  privKeyBytesLen : Nat
  newPublicKey : Option PolyArray → Except Panic (Iface (PublicKey P))
  parsePubKey : List UInt8 → Iface (PublicKey P) × Option Error
  pubKeyBytesLen : Nat
  newSignature : Option PolyArray → Option PolyArray → Option (List UInt32) →
    Except Panic (Iface (Signature S))
  parseDERSignature : List UInt8 → Iface (Signature S) × Option Error
  parseSignature : List UInt8 → Iface (Signature S) × Option Error
  recoverCompact : List UInt8 → List UInt8 → Iface (PublicKey P) × Bool × Option Error
  generateKey : Reader → Iface (PrivateKey K) × Iface (PublicKey P) × Option Error
  sign : Iface (PrivateKey K) → List UInt8 → Except Panic (Iface (Signature S) × Option Error)
  verify : Iface (PublicKey P) → List UInt8 → Iface (Signature S) → Except Panic Bool

/-- `newBlissDSA`, over the library `lib` and the reader `rand` of `crypto/rand`. -/
def newBlissDSA (lib : Lib K P S E) (rand : Reader) : BlissDSA K P S where
  newPrivateKey := newPrivateKey lib
  privKeyFromBytes := privKeyFromBytes lib
  privKeyBytesLen := lib.blissPrivKeyLen
  newPublicKey := newPublicKey lib
  parsePubKey := parsePubKey lib
  pubKeyBytesLen := lib.blissPubKeyLen
  newSignature := newSignature lib
  parseDERSignature := parseDERSignature lib
  parseSignature := parseSignature lib
  recoverCompact := recoverCompact
  generateKey := generateKey lib
  sign := sign lib rand
  verify := verify lib

/-! ## Key pairs -/

/-- `generateKey` returns an error and two nil keys, or a private key and its own public key,
both as pointers. -/
theorem generateKey_cases (lib : Lib K P S E) (rand : Reader) :
    (∃ err, generateKey lib rand = (.nil, .nil, some err)) ∨
      ∃ k, generateKey lib rand = (.ptr ⟨k⟩, .ptr ⟨lib.publicKey k⟩, none) := by
  unfold generateKey
  split
  · exact .inl ⟨_, rfl⟩
  · split
    · exact .inl ⟨_, rfl⟩
    · exact .inr ⟨_, rfl⟩

/-- `newPrivateKey` returns nil or a pointer. -/
theorem newPrivateKey_cases {lib : Lib K P S E} {s1 s2 a : Option PolyArray}
    {priv : Iface (PrivateKey K)} (h : newPrivateKey lib s1 s2 a = .ok priv) :
    priv = .nil ∨ ∃ k, priv = .ptr k := by
  unfold newPrivateKey at h
  split at h
  · obtain ⟨_, -, h⟩ := bind_eq_ok.mp h
    split at h <;> cases h
    · exact .inl rfl
    · exact .inr ⟨_, rfl⟩
  · cases h
    exact .inl rfl


/-! ## `Sign` and `Verify` -/

/-- With entropy, `sign` asserts that its key is a value. -/
theorem sign_of_entropy_ok {lib : Lib K P S E} {rand : Reader} {hash : List UInt8} {e : E}
    (he : lib.newEntropy (readSeed lib rand) = .ok e) (priv : Iface (PrivateKey K)) :
    sign lib rand priv hash = priv.assertVal >>= fun priv1 =>
      match lib.sign priv1.privateKey hash e with
      | .error err => pure (.nil, some err)
      | .ok sig => pure (.ptr ⟨sig⟩, none) := by
  simp only [sign, he]

section Constructors

variable (lib : Lib K P S E) (crand : Reader)

/-- Past the nil check, `newPublicKey` panics exactly when building its array does: the call of
`bliss.DecodePublicKey` after it returns. -/
theorem newPublicKey_some_eq_error {a : PolyArray} {p : Panic} :
    newPublicKey lib (some a) = .error p ↔ publicKeyBytes a = .error p :=
  bind_eq_error_of_ok fun _ => by split <;> exact ⟨_, rfl⟩

/-- Past the nil checks, `newPrivateKey` panics exactly when building its array does. -/
theorem newPrivateKey_some_eq_error {s1 s2 a : PolyArray} {p : Panic} :
    newPrivateKey lib (some s1) (some s2) (some a) = .error p ↔ privateKeyBytes s1 s2 = .error p :=
  bind_eq_error_of_ok fun _ => by split <;> exact ⟨_, rfl⟩

/-- Past the nil checks, `newSignature` panics exactly when building its array does. -/
theorem newSignature_some_eq_error {z1 z2 : PolyArray} {c : List UInt32} {p : Panic} :
    newSignature lib (some z1) (some z2) (some c) = .error p ↔ signatureBytes lib z1 z2 c = .error p :=
  bind_eq_error_of_ok fun _ => by split <;> exact ⟨_, rfl⟩

/-- `NewPublicKey` panics exactly when `a` is non-nil with fewer than `N` coefficients, or with
`N ≥ 2^31`, where `n*2+1` wraps in `uint32` and the array is too short for the stores; then
with an index out of range. -/
theorem newPublicKey_panics_iff (a : Option PolyArray) (p : Panic) :
    (newBlissDSA lib crand).newPublicKey a = .error p ↔ p = .indexOutOfRange ∧
      ∃ t, a = some t ∧ (t.data.length < t.param.n ∨ 2 ^ 31 ≤ t.param.n) := by
  change newPublicKey lib a = _ ↔ _
  cases a with
  | none => exact iff_of_false (fun h => by cases h) fun ⟨_, _, h, _⟩ => by cases h
  | some t =>
    rw [newPublicKey_some_eq_error]
    by_cases h : t.data.length < t.param.n ∨ 2 ^ 31 ≤ t.param.n
    · rw [publicKeyBytes_panic h]
      exact ⟨fun e => ⟨(Except.error.inj e).symm, t, rfl, h⟩, fun e => e.1 ▸ rfl⟩
    · rw [publicKeyBytes_eq t (by omega) (by omega)]
      exact iff_of_false (fun e => by cases e) fun ⟨_, _, e, h'⟩ => h (by cases e; exact h')

/-- `NewPrivateKey` panics exactly when its arguments are non-nil and either `N < 2^31` and `s1`
or `s2` has fewer than `N` coefficients, with an index out of range, or `N ≥ 2^31`, where
`n*2+1` wraps in `uint32` and `ret[1 : 1+n]` is out of range. -/
theorem newPrivateKey_panics_iff (s1 s2 a : Option PolyArray) (p : Panic) :
    (newBlissDSA lib crand).newPrivateKey s1 s2 a = .error p ↔
      ∃ t1 t2, s1 = some t1 ∧ s2 = some t2 ∧ a ≠ none ∧
        (p = .indexOutOfRange ∧ t1.param.n < 2 ^ 31 ∧
            (t1.data.length < t1.param.n ∨ t2.data.length < t1.param.n) ∨
          p = .sliceBoundsOutOfRange ∧ 2 ^ 31 ≤ t1.param.n) := by
  change newPrivateKey lib s1 s2 a = _ ↔ _
  match s1, s2, a with
  | none, _, _ | some _, none, _ | some _, some _, none =>
    exact iff_of_false (fun h => by cases h) (by simp)
  | some t1, some t2, some a =>
    rw [newPrivateKey_some_eq_error, privateKeyBytes_panic_iff]
    simp only [Option.some.injEq, exists_and_left, exists_eq_left', ne_eq, reduceCtorEq,
      not_false_eq_true, true_and]

/-- For sizes that do not wrap in `uint32`, `NewSignature` panics exactly when its arguments are
non-nil and `z1` or `z2` has fewer than `N` coefficients or `c` fewer than `Kappa` indices, and
then with an index out of range. -/
theorem newSignature_panics_iff (z1 z2 : Option PolyArray) (c : Option (List UInt32)) (p : Panic)
    (hw : ∀ t1, z1 = some t1 →
      1 + t1.param.n * 2 + (t1.param.n + t1.param.n / 8) + 2 * t1.param.kappa < 2 ^ 32) :
    (newBlissDSA lib crand).newSignature z1 z2 c = .error p ↔ p = .indexOutOfRange ∧
      ∃ t1 t2 cs, z1 = some t1 ∧ z2 = some t2 ∧ c = some cs ∧
        (t1.data.length < t1.param.n ∨ t2.data.length < t1.param.n ∨ cs.length < t1.param.kappa) := by
  change newSignature lib z1 z2 c = _ ↔ _
  match z1, z2, c, hw with
  | none, _, _, _ | some _, none, _, _ | some _, some _, none, _ =>
    exact iff_of_false (fun h => by cases h) (by simp)
  | some t1, some t2, some cs, hw =>
    rw [newSignature_some_eq_error, signatureBytes_panic_iff lib t1 t2 cs p (hw t1 rfl)]
    simp only [Option.some.injEq, exists_and_left, exists_eq_left']

/-- A `z1` of no coefficients for `N = 8`: the loop over `z1` reads past its end. -/
theorem newSignature_short_z1_panics :
    (newBlissDSA unitLib zeroReader).newSignature (some ⟨⟨1, 8, 1, by decide, by decide⟩, []⟩)
      (some ⟨⟨1, 8, 1, by decide, by decide⟩, []⟩) (some [5]) = .error .indexOutOfRange :=
  (newSignature_panics_iff unitLib zeroReader _ _ _ _ fun _ h => by cases h; decide).mpr
    ⟨rfl, _, _, _, rfl, rfl, rfl, .inl (by decide)⟩

end Constructors

/-! ## The keys of the scheme -/

section Keys

variable (lib : Lib K P S E) (crand : Reader) (hash : List UInt8)

/-- With entropy, every private key that `GenerateKey` or `NewPrivateKey` returns makes `Sign`
panic: both hand out a `*PrivateKey`, and `Sign` asserts a `PrivateKey`. -/
theorem sign_pointer_keys_panic {e : E} (he : lib.newEntropy (readSeed lib crand) = .ok e) :
    (∀ rand priv pub err, (newBlissDSA lib crand).generateKey rand = (priv, pub, err) →
      priv ≠ .nil → (newBlissDSA lib crand).sign priv hash = .error .typeAssertion) ∧
    (∀ s1 s2 a priv, (newBlissDSA lib crand).newPrivateKey s1 s2 a = .ok priv → priv ≠ .nil →
      (newBlissDSA lib crand).sign priv hash = .error .typeAssertion) := by
  have hptr : ∀ k, sign lib crand (.ptr k) hash = .error .typeAssertion := fun k => by
    simp [sign_of_entropy_ok he]
  refine ⟨fun rand priv pub err hg hn => ?_, fun s1 s2 a priv hp hn => ?_⟩
  · change generateKey lib rand = _ at hg
    rcases generateKey_cases lib rand with ⟨_, e⟩ | ⟨k, e⟩ <;> rw [e] at hg <;> cases hg
    · exact absurd rfl hn
    · exact hptr _
  · rcases newPrivateKey_cases hp with rfl | ⟨k, rfl⟩
    · exact absurd rfl hn
    · exact hptr k

/-- The library's key pair made by `GenerateKey` from a zero seed cannot sign. -/
theorem sign_generateKey_zero_seed_panics :
    (newBlissDSA unitLib zeroReader).sign ((newBlissDSA unitLib zeroReader).generateKey zeroReader).1
      [] = .error .typeAssertion :=
  (sign_pointer_keys_panic unitLib zeroReader [] rfl).1 zeroReader _ _ _ rfl (by decide)

end Keys

end HcdBliss
