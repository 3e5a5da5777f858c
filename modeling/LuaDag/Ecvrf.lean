import LuaDag.PrimeOrder
import LuaDag.PrimeSubgroup
import LuaDag.StorageKeys

/-! The verifiable random function of the crypto crate (`crypto::vrf::ecvrf`): try-and-increment
hashing to the curve, proofs of 80 bytes, and their verification. The curve is a group with an
encoding of its points; SHA-512 is any function. -/
namespace LuaDag
namespace Ecvrf
open PrimeOrder (ell ell_prime)

structure Octets (n : Nat) where
  bytes : List Octet
  length_eq : bytes.length = n
deriving DecidableEq

theorem Octets.ext {n : Nat} {a b : Octets n} (h : a.bytes = b.bytes) : a = b := by
  cases a
  cases b
  cases h
  rfl

structure Curve (G : Type) where
  basepoint : G
  compress : G → Octets 32
  decompress : Octets 32 → Option G

instance : Fact ell.Prime := ⟨ell_prime⟩

abbrev Scalar := ZMod ell

namespace Scalar

/- Little-endian. -/
def fromBytesModOrder (bytes : List Octet) : Scalar := (Radix.value bytes : Scalar)

def toBytes (s : Scalar) : Octets 32 := ⟨Radix.digits 256 32 s.val, Radix.length_digits _ _⟩

def fromCanonicalBytes (bytes : Octets 32) : Option Scalar :=
  if Radix.value bytes.bytes < ell then some (fromBytesModOrder bytes.bytes) else none

end Scalar

def suite : Octet := 0x03
def zero : Octet := 0x00
def one : Octet := 0x01
def two : Octet := 0x02
def three : Octet := 0x03

def lowerHalf (hash : Octets 64) : Octets 32 :=
  ⟨hash.bytes.take 32, by rw [List.length_take, hash.length_eq]; rfl⟩

def upperHalf (hash : Octets 64) : Octets 32 :=
  ⟨hash.bytes.drop 32, by rw [List.length_drop, hash.length_eq]⟩

def clamp (lower : List Octet) : List Octet :=
  ((lower.modify 0 (· &&& 248)).modify 31 (· &&& 63)).modify 31 (· ||| 64)

structure VrfKey where
  skScalar : Scalar
  nonce : Octets 32
  pkCompressed : Octets 32

def VrfKey.pubkey (key : VrfKey) : Octets 32 := key.pkCompressed

inductive VrfError where
  | verifyFailed
  | panic (msg : String)
deriving DecidableEq, Repr

structure ParsedProof (G : Type) where
  gamma : G
  c : Scalar
  s : Scalar

section Functions
variable {G : Type} [AddCommGroup G] [DecidableEq G] (curve : Curve G)
  (sha512 : List Octet → Octets 64)

def expandSecretKey (seed : Octets 32) : Scalar × Octets 32 :=
  let hash := sha512 seed.bytes
  (Scalar.fromBytesModOrder (clamp (lowerHalf hash).bytes), upperHalf hash)

def mulByCofactor (point : G) : G := 8 • point

def isSmallOrder (point : G) : Bool := decide (mulByCofactor point = 0)

def isValidCurvePoint (point : G) : Bool := !decide (point = 0) && !isSmallOrder point

def interpretHashValueAsAPoint (hash : Octets 32) : Option G :=
  let byte (i : Nat) : Octet := hash.bytes.getD i 0
  let isInvalid := (List.range' 1 30).all (fun i => byte i = 255) &&
    (byte 31 = 255 || byte 31 = 127) &&
    [1, 3, 4, 5, 9, 10, 13, 14, 15, 16].contains (Fin.ofNat 256 (256 - (byte 0).val))
  if isInvalid then none else curve.decompress hash

def tryCounter (pkBytes : Octets 32) (alpha : List Octet) (counter : Octet) : Option G :=
  let hash := sha512 ([suite, one] ++ pkBytes.bytes ++ alpha ++ [counter, zero])
  match interpretHashValueAsAPoint curve (lowerHalf hash) with
  | none => none
  | some point =>
    let result := mulByCofactor point
    if isValidCurvePoint result then some result else none

def encodeToCurve (pkBytes : Octets 32) (alpha : List Octet) : Option G :=
  (List.finRange 256).findSome? (tryCounter curve sha512 pkBytes alpha)

def scalarFromNonce (nonce hPointBytes : Octets 32) : Scalar :=
  Scalar.fromBytesModOrder (sha512 (nonce.bytes ++ hPointBytes.bytes)).bytes

def hashPoints (pkBytes hPointBytes : Octets 32) (points : List G) : Scalar :=
  let hash := sha512 ([suite, two] ++ pkBytes.bytes ++ hPointBytes.bytes ++
    points.flatMap (fun point => (curve.compress point).bytes) ++ [zero])
  Scalar.fromBytesModOrder (hash.bytes.take 16 ++ List.replicate 16 0)

def gammaToHash32 (gamma : G) : Octets 32 :=
  lowerHalf (sha512 ([suite, three] ++ (curve.compress (mulByCofactor gamma)).bytes ++ [zero]))

def slice (bytes : Octets 80) (start len : Nat) (h : start + len ≤ 80) : Octets len :=
  ⟨(bytes.bytes.drop start).take len, by
    rw [List.length_take, List.length_drop, bytes.length_eq]
    omega⟩

def parseProof (bytes : Octets 80) : Option (ParsedProof G) :=
  match curve.decompress (slice bytes 0 32 (by omega)) with
  | none => none
  | some gamma =>
    if !isValidCurvePoint gamma then none
    else
      let cBuf := (slice bytes 32 16 (by omega)).bytes ++ List.replicate 16 0
      match Scalar.fromCanonicalBytes (slice bytes 48 32 (by omega)) with
      | none => none
      | some s => some ⟨gamma, Scalar.fromBytesModOrder cBuf, s⟩

omit [AddCommGroup G] [DecidableEq G] in
theorem length_packed (gamma : G) (c s : Scalar) :
    ((curve.compress gamma).bytes ++ c.toBytes.bytes.take 16 ++ s.toBytes.bytes).length = 80 := by
  simp [(curve.compress gamma).length_eq, c.toBytes.length_eq, s.toBytes.length_eq]

def packProof (gamma : G) (c s : Scalar) : Octets 80 :=
  ⟨(curve.compress gamma).bytes ++ c.toBytes.bytes.take 16 ++ s.toBytes.bytes,
    length_packed curve gamma c s⟩

def proveInternal (sk : Scalar) (nonce pkBytes : Octets 32) (alpha : List Octet) :
    Except VrfError (Octets 80) :=
  match encodeToCurve curve sha512 pkBytes alpha with
  | none => .error (.panic "hash-to-curve failed after 256 tries (RFC 9381 §5.4.1.1)")
  | some hPoint =>
    let hBytes := curve.compress hPoint
    let k := scalarFromNonce sha512 nonce hBytes
    let gamma := PrimeSubgroup.mul hPoint sk
    let u := PrimeSubgroup.mul curve.basepoint k
    let v := PrimeSubgroup.mul hPoint k
    let c := hashPoints curve sha512 pkBytes hBytes [gamma, u, v]
    let s := k + c * sk
    .ok (packProof curve gamma c s)

def verifyInternal (pkPoint : G) (pkBytes : Octets 32) (alpha : List Octet)
    (proof : ParsedProof G) : Bool :=
  match encodeToCurve curve sha512 pkBytes alpha with
  | none => false
  | some hPoint =>
    let hBytes := curve.compress hPoint
    let u := PrimeSubgroup.mul curve.basepoint proof.s - PrimeSubgroup.mul pkPoint proof.c
    let v := PrimeSubgroup.mul hPoint proof.s - PrimeSubgroup.mul proof.gamma proof.c
    let cPrime := hashPoints curve sha512 pkBytes hBytes [proof.gamma, u, v]
    decide (proof.c = cPrime)

def decompressPubkey (pkBytes : Octets 32) : Option G :=
  match curve.decompress pkBytes with
  | none => none
  | some point => if isSmallOrder point then none else some point

def VrfKey.fromSeed (seed : Octets 32) : VrfKey :=
  let (skScalar, nonce) := expandSecretKey sha512 seed
  ⟨skScalar, nonce, curve.compress (PrimeSubgroup.mul curve.basepoint skScalar)⟩

def vrfProve (key : VrfKey) (alpha : List Octet) : Except VrfError (Octets 80 × Octets 32) :=
  let pkBytes := key.pubkey
  match proveInternal curve sha512 key.skScalar key.nonce pkBytes alpha with
  | .error e => .error e
  | .ok proofBytes =>
    match parseProof curve proofBytes with
    | none => .error (.panic "locally generated proof must parse")
    | some parsed => .ok (proofBytes, gammaToHash32 curve sha512 parsed.gamma)

def vrfVerify (pkBytes : Octets 32) (alpha : List Octet) (proof : Octets 80) :
    Except VrfError (Octets 32) :=
  match decompressPubkey curve pkBytes with
  | none => .error .verifyFailed
  | some pkPoint =>
    match parseProof curve proof with
    | none => .error .verifyFailed
    | some parsed =>
      if !verifyInternal curve sha512 pkPoint pkBytes alpha parsed then .error .verifyFailed
      else .ok (gammaToHash32 curve sha512 parsed.gamma)

end Functions

/- Encodings. -/

theorem fromBytes_toBytes (s : Scalar) : Scalar.fromCanonicalBytes s.toBytes = some s := by
  have hlt : s.val < 256 ^ 32 := s.val_lt.trans (by decide)
  have hvalue : Radix.value s.toBytes.bytes = s.val := Radix.value_digits_of_lt hlt
  rw [Scalar.fromCanonicalBytes, hvalue, if_pos s.val_lt, Scalar.fromBytesModOrder, hvalue,
    ZMod.natCast_zmod_val]

theorem fromBytes_take (c : Scalar) (hc : c.val < 2 ^ 128) :
    Scalar.fromBytesModOrder (c.toBytes.bytes.take 16 ++ List.replicate 16 0) = c := by
  have hbytes : c.toBytes.bytes.take 16 = Radix.digits 256 16 c.val :=
    Radix.take_digits (by omega) _
  have hlt : c.val < 256 ^ 16 := hc.trans_eq (by norm_num)
  rw [Scalar.fromBytesModOrder, hbytes, Radix.value_append, Radix.value_zeros, Nat.mul_zero,
    Nat.add_zero, Radix.value_digits_of_lt hlt, ZMod.natCast_zmod_val]

theorem fromBytes_val {bytes : List Octet} (h : bytes.length = 16) :
    (Scalar.fromBytesModOrder (bytes ++ List.replicate 16 0)).val < 2 ^ 128 := by
  have hlt : Radix.value bytes < 2 ^ 128 := by
    have hbound := Radix.value_lt bytes
    rw [h] at hbound
    exact hbound.trans_eq (by norm_num)
  rw [Scalar.fromBytesModOrder, Radix.value_append, Radix.value_zeros, Nat.mul_zero, Nat.add_zero,
    ZMod.val_natCast, Nat.mod_eq_of_lt (hlt.trans (by decide))]
  exact hlt

section Proofs
variable {G : Type} [AddCommGroup G] [DecidableEq G] {curve : Curve G}
  {sha512 : List Octet → Octets 64}

omit [AddCommGroup G] [DecidableEq G] in
theorem slice_gamma (gamma : G) (c s : Scalar) :
    slice (packProof curve gamma c s) 0 32 (by omega) = curve.compress gamma := by
  refine Octets.ext ?_
  change (((curve.compress gamma).bytes ++ _ ++ _).drop 0).take 32 = _
  rw [List.drop_zero, List.append_assoc, List.take_left' (curve.compress gamma).length_eq]

omit [AddCommGroup G] [DecidableEq G] in
theorem slice_c (gamma : G) (c s : Scalar) :
    (slice (packProof curve gamma c s) 32 16 (by omega)).bytes = c.toBytes.bytes.take 16 := by
  change (((curve.compress gamma).bytes ++ _ ++ _).drop 32).take 16 = _
  rw [List.append_assoc, List.drop_left' (curve.compress gamma).length_eq, List.take_left']
  rw [List.length_take, c.toBytes.length_eq]
  rfl

omit [AddCommGroup G] [DecidableEq G] in
theorem slice_s (gamma : G) (c s : Scalar) :
    slice (packProof curve gamma c s) 48 32 (by omega) = s.toBytes := by
  refine Octets.ext ?_
  have hfront : ((curve.compress gamma).bytes ++ c.toBytes.bytes.take 16).length = 48 := by
    simp [(curve.compress gamma).length_eq, c.toBytes.length_eq]
  change ((((curve.compress gamma).bytes ++ c.toBytes.bytes.take 16) ++ s.toBytes.bytes).drop
    48).take 32 = _
  rw [List.drop_left' hfront]
  exact List.take_of_length_le (by rw [s.toBytes.length_eq])

theorem isValidCurvePoint_iff {P : G} : isValidCurvePoint P = true ↔ P ≠ 0 ∧ 8 • P ≠ 0 := by
  unfold isValidCurvePoint isSmallOrder mulByCofactor
  rw [Bool.and_eq_true, Bool.not_eq_true', Bool.not_eq_true', decide_eq_false_iff_not,
    decide_eq_false_iff_not]

/-- What the group library is taken to implement: points have one encoding which decodes to them,
the base point generates the subgroup of order `ell`, and all orders divide `8 * ell`. -/
structure Curve.Exact (curve : Curve G) : Prop where
  decompress_compress : ∀ P, curve.decompress (curve.compress P) = some P
  basepoint_ne : curve.basepoint ≠ 0
  basepoint_order : ell • curve.basepoint = 0
  order : ∀ P : G, (8 * ell) • P = 0

theorem not_ell_dvd : ¬ ell ∣ 8 := by decide

theorem valid_of_order {P : G} (h : ell • P = 0) (hP : P ≠ 0) : isValidCurvePoint P = true :=
  isValidCurvePoint_iff.mpr ⟨hP, PrimeSubgroup.nsmul_ne_zero h hP not_ell_dvd⟩

theorem parse_pack (hcurve : curve.Exact) {gamma : G} (horder : ell • gamma = 0)
    (hgamma : gamma ≠ 0) {c : Scalar} (hc : c.val < 2 ^ 128) (s : Scalar) :
    parseProof curve (packProof curve gamma c s) = some ⟨gamma, c, s⟩ := by
  unfold parseProof
  rw [slice_gamma, hcurve.decompress_compress]
  simp only [valid_of_order horder hgamma, slice_s, slice_c, fromBytes_toBytes,
    fromBytes_take c hc]
  rfl

theorem encodeToCurve_order (hcurve : curve.Exact) {pk : Octets 32} {alpha : List Octet} {H : G}
    (h : encodeToCurve curve sha512 pk alpha = some H) : ell • H = 0 ∧ H ≠ 0 := by
  obtain ⟨counter, -, hcounter⟩ := List.exists_of_findSome?_eq_some h
  unfold tryCounter at hcounter
  dsimp only at hcounter
  split at hcounter
  · cases hcounter
  rename_i point _
  split at hcounter
  · rename_i hvalid
    cases hcounter
    refine ⟨?_, (isValidCurvePoint_iff.mp hvalid).1⟩
    rw [mulByCofactor, ← mul_nsmul, hcurve.order]
  · cases hcounter

omit [AddCommGroup G] [DecidableEq G] in
theorem hashPoints_val (pk h : Octets 32) (points : List G) :
    (hashPoints curve sha512 pk h points).val < 2 ^ 128 := by
  unfold hashPoints
  refine fromBytes_val ?_
  rw [List.length_take, Octets.length_eq]
  rfl

theorem verifyInternal_response {pk : Octets 32} {alpha : List Octet} {H Y : G} {sk k c : Scalar}
    (hH : encodeToCurve curve sha512 pk alpha = some H) (horder : ell • H = 0)
    (hbase : ell • curve.basepoint = 0) (hY : Y = PrimeSubgroup.mul curve.basepoint sk)
    (hc : c = hashPoints curve sha512 pk (curve.compress H)
      [PrimeSubgroup.mul H sk, PrimeSubgroup.mul curve.basepoint k, PrimeSubgroup.mul H k]) :
    verifyInternal curve sha512 Y pk alpha ⟨PrimeSubgroup.mul H sk, c, k + c * sk⟩ = true := by
  unfold verifyInternal
  rw [hH, hY]
  dsimp only
  rw [PrimeSubgroup.response hbase, PrimeSubgroup.response horder]
  exact decide_eq_true hc

def VrfKey.Matches (curve : Curve G) (key : VrfKey) : Prop :=
  key.pubkey = curve.compress (PrimeSubgroup.mul curve.basepoint key.skScalar)

omit [DecidableEq G] in
theorem fromSeed_matches (seed : Octets 32) : (VrfKey.fromSeed curve sha512 seed).Matches curve :=
  rfl

theorem decompressPubkey_matches (hcurve : curve.Exact) {key : VrfKey} (hkey : key.Matches curve)
    (hsk : key.skScalar ≠ 0) :
    decompressPubkey curve key.pubkey =
      some (PrimeSubgroup.mul curve.basepoint key.skScalar) := by
  have hY := PrimeSubgroup.mul_ne_zero hcurve.basepoint_order hcurve.basepoint_ne hsk
  have horder := PrimeSubgroup.mul_annihilated hcurve.basepoint_order key.skScalar
  have hlarge := (isValidCurvePoint_iff.mp (valid_of_order horder hY)).2
  unfold decompressPubkey
  rw [hkey, hcurve.decompress_compress]
  refine if_neg ?_
  intro hsmall
  exact hlarge (of_decide_eq_true hsmall)

theorem prove_verify (hcurve : curve.Exact) {key : VrfKey} (hkey : key.Matches curve)
    (hsk : key.skScalar ≠ 0) {alpha : List Octet} {H : G}
    (hH : encodeToCurve curve sha512 key.pubkey alpha = some H) :
    ∃ proof beta, vrfProve curve sha512 key alpha = .ok (proof, beta) ∧
      vrfVerify curve sha512 key.pubkey alpha proof = .ok beta := by
  obtain ⟨horder, hne⟩ := encodeToCurve_order hcurve hH
  let gamma := PrimeSubgroup.mul H key.skScalar
  let k := scalarFromNonce sha512 key.nonce (curve.compress H)
  let c := hashPoints curve sha512 key.pubkey (curve.compress H)
    [gamma, PrimeSubgroup.mul curve.basepoint k, PrimeSubgroup.mul H k]
  have hprove : proveInternal curve sha512 key.skScalar key.nonce key.pubkey alpha =
      .ok (packProof curve gamma c (k + c * key.skScalar)) := by
    unfold proveInternal
    rw [hH]
  have hparse : parseProof curve (packProof curve gamma c (k + c * key.skScalar)) =
      some ⟨gamma, c, k + c * key.skScalar⟩ :=
    parse_pack hcurve (PrimeSubgroup.mul_annihilated horder key.skScalar)
      (PrimeSubgroup.mul_ne_zero horder hne hsk) (hashPoints_val _ _ _) _
  have hverify : verifyInternal curve sha512 (PrimeSubgroup.mul curve.basepoint key.skScalar)
      key.pubkey alpha ⟨gamma, c, k + c * key.skScalar⟩ = true :=
    verifyInternal_response hH horder hcurve.basepoint_order rfl rfl
  refine ⟨packProof curve gamma c (k + c * key.skScalar), gammaToHash32 curve sha512 gamma, ?_, ?_⟩
  · unfold vrfProve
    simp only [hprove, hparse]
  · unfold vrfVerify
    simp only [decompressPubkey_matches hcurve hkey hsk, hparse, hverify]
    rfl

/-- Proofs of a key whose scalar is not zero verify, with the output of the prover, wherever
hashing to the curve finds a point; and packed proofs are parsed to what was packed. -/
theorem vrf_complete (hcurve : curve.Exact) (seed : Octets 32) (alpha : List Octet)
    (hsk : (VrfKey.fromSeed curve sha512 seed).skScalar ≠ 0)
    (hpoint : (encodeToCurve curve sha512 (VrfKey.fromSeed curve sha512 seed).pubkey
      alpha).isSome = true) :
    (∃ proof beta,
      vrfProve curve sha512 (VrfKey.fromSeed curve sha512 seed) alpha = .ok (proof, beta) ∧
      vrfVerify curve sha512 (VrfKey.fromSeed curve sha512 seed).pubkey alpha proof = .ok beta) ∧
    ∀ (gamma : G) (c s : Scalar), ell • gamma = 0 → gamma ≠ 0 → c.val < 2 ^ 128 →
      parseProof curve (packProof curve gamma c s) = some ⟨gamma, c, s⟩ := by
  obtain ⟨H, hH⟩ := Option.isSome_iff_exists.mp hpoint
  refine ⟨prove_verify hcurve (fromSeed_matches seed) hsk hH, ?_⟩
  intro gamma c s horder hgamma hc
  exact parse_pack hcurve horder hgamma hc s

end Proofs

/- The group of points as a cyclic group, with residues for encodings. -/
section Cyclic
variable (n : Nat) [NeZero n]

def residues : Curve (ZMod n) where
  basepoint := (8 : Nat)
  compress := fun P => ⟨Radix.digits 256 32 P.val, Radix.length_digits _ _⟩
  decompress := fun bytes =>
    if Radix.value bytes.bytes < n then some (Radix.value bytes.bytes : ZMod n) else none

def sha512One (_ : List Octet) : Octets 64 := ⟨1 :: List.replicate 63 0, rfl⟩

variable {n}

omit [NeZero n] in
theorem residue_ne_zero (hn : n = 8 * ell) {m : Nat} (hpos : 0 < m) (hm : m < ell) :
    (m : ZMod n) ≠ 0 := by
  intro hzero
  have hle := Nat.le_of_dvd hpos ((ZMod.natCast_eq_zero_iff m n).mp hzero)
  omega

theorem residues_exact (hn : n = 8 * ell) : (residues n).Exact where
  decompress_compress P := by
    have hlt : P.val < 256 ^ 32 := P.val_lt.trans (hn.trans_lt (by decide))
    have hvalue : Radix.value ((residues n).compress P).bytes = P.val :=
      Radix.value_digits_of_lt hlt
    change (if Radix.value ((residues n).compress P).bytes < n then
      some (Radix.value ((residues n).compress P).bytes : ZMod n) else none) = _
    rw [hvalue, if_pos P.val_lt, ZMod.natCast_zmod_val]
  basepoint_ne := residue_ne_zero hn (by decide) (by decide)
  basepoint_order := by
    change ell • ((8 : Nat) : ZMod n) = 0
    rw [nsmul_eq_mul, ← Nat.cast_mul, Nat.mul_comm, ← hn, ZMod.natCast_self]
  order P := by
    rw [← hn, nsmul_eq_mul, ZMod.natCast_self, zero_mul]

omit [NeZero n] in
theorem encodeToCurve_residues (hn : n = 8 * ell) (pk : Octets 32) (alpha : List Octet) :
    (encodeToCurve (residues n) sha512One pk alpha).isSome = true := by
  refine List.findSome?_isSome_iff.mpr ⟨0, List.mem_finRange 0, ?_⟩
  have hpoint : interpretHashValueAsAPoint (residues n)
      (lowerHalf (sha512One ([suite, one] ++ pk.bytes ++ alpha ++ [0, zero]))) =
        some ((1 : Nat) : ZMod n) := by
    have hvalue : Radix.value (lowerHalf (sha512One [])).bytes = 1 := by decide
    have hlt : Radix.value (lowerHalf (sha512One [])).bytes < n := by
      have hell := ell_prime.pos
      omega
    change interpretHashValueAsAPoint (residues n) (lowerHalf (sha512One [])) = _
    unfold interpretHashValueAsAPoint
    refine (if_neg (by decide)).trans ?_
    change (if Radix.value (lowerHalf (sha512One [])).bytes < n then
      some (Radix.value (lowerHalf (sha512One [])).bytes : ZMod n) else none) = _
    rw [if_pos hlt, hvalue]
  have hvalid : isValidCurvePoint (mulByCofactor ((1 : Nat) : ZMod n)) = true := by
    refine isValidCurvePoint_iff.mpr ?_
    rw [mulByCofactor, ← mul_nsmul, nsmul_eq_mul, nsmul_eq_mul, ← Nat.cast_mul, ← Nat.cast_mul]
    exact ⟨residue_ne_zero hn (by decide) (by decide), residue_ne_zero hn (by decide) (by decide)⟩
  unfold tryCounter
  dsimp only
  rw [hpoint]
  dsimp only
  rw [if_pos hvalid]
  rfl

end Cyclic

def curveOrder : Nat := 8 * ell

instance : NeZero curveOrder := ⟨by decide⟩

theorem vrf_complete_residues :
    ∃ proof beta,
      vrfProve (residues curveOrder) sha512One
        (VrfKey.fromSeed (residues curveOrder) sha512One ⟨List.replicate 32 7, rfl⟩) [] =
          .ok (proof, beta) ∧
      vrfVerify (residues curveOrder) sha512One
        (VrfKey.fromSeed (residues curveOrder) sha512One ⟨List.replicate 32 7, rfl⟩).pubkey []
          proof = .ok beta := by
  refine (vrf_complete (residues_exact rfl) ⟨List.replicate 32 7, rfl⟩ [] ?_
    (encodeToCurve_residues rfl _ _)).1
  change (Radix.value (clamp (lowerHalf (sha512One _)).bytes) : Scalar) ≠ 0
  rw [Ne, ZMod.natCast_eq_zero_iff]
  decide

end Ecvrf
end LuaDag
