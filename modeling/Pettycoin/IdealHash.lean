import Pettycoin.Chain

/-!
# Pettycoin — a collision-free hash

A digest that is the hashed message itself. It shows that what some results ask
of the double hash (injective, never all zero) can be had, and it is the hash
of the concrete runs in this development.

* `idealCrypto_injective` — different messages have different hashes;
* `idealCrypto_ne_zero` — and no hash is zero.
-/

namespace Pettycoin

/-- All zero bytes, or the message. -/
inductive IdealDigest
  | zero
  | hash (msg : List UInt8)
deriving DecidableEq

namespace IdealDigest

/-- A message with its length in front, so that its end can be told: as many 2s as
there are times 256, a 1, and the remainder. -/
def encode (m : List UInt8) : List UInt8 :=
  List.replicate (m.length / 256) 2 ++ 1 :: UInt8.ofNat (m.length % 256) :: m

theorem replicate_append_inj {a b : Nat} {x y : List UInt8}
    (h : List.replicate a 2 ++ 1 :: x = List.replicate b 2 ++ 1 :: y) : a = b ∧ x = y := by
  induction a generalizing b with
  | zero =>
    cases b with
    | zero => exact ⟨rfl, by simpa using h⟩
    | succ b => simp [List.replicate_succ] at h
  | succ a ih =>
    cases b with
    | zero => simp [List.replicate_succ] at h
    | succ b =>
      simp only [List.replicate_succ, List.cons_append, List.cons.injEq, true_and] at h
      obtain ⟨hab, hxy⟩ := ih h
      exact ⟨by rw [hab], hxy⟩

theorem encode_append_inj {m m' x y : List UInt8} (h : encode m ++ x = encode m' ++ y) :
    m = m' ∧ x = y := by
  unfold encode at h
  rw [List.append_assoc, List.append_assoc] at h
  obtain ⟨hdiv, hrest⟩ := replicate_append_inj h
  simp only [List.append_eq, List.cons_append, List.cons.injEq] at hrest
  obtain ⟨hmod, hmsg⟩ := hrest
  have hmod' : m.length % 256 = m'.length % 256 := by
    have hnat := congrArg UInt8.toNat hmod
    have hlt := Nat.mod_lt m.length (show 256 > 0 by omega)
    have hlt' := Nat.mod_lt m'.length (show 256 > 0 by omega)
    rwa [UInt8.toNat_ofNat_of_lt' hlt, UInt8.toNat_ofNat_of_lt' hlt'] at hnat
  exact List.append_inj hmsg (by omega)

theorem encode_head (m : List UInt8) : ∃ b rest, encode m = b :: rest ∧ b ≠ 0 := by
  unfold encode
  cases m.length / 256 with
  | zero => exact ⟨1, _, rfl, by decide⟩
  | succ n => exact ⟨2, _, rfl, by decide⟩

/-- `sizeof(struct protocol_double_sha)` bytes, however many. -/
def toBytes : IdealDigest → List UInt8
  | zero => [0]
  | hash msg => encode msg

instance : Digest IdealDigest where
  bytes := toBytes
  zero := zero
  sha _ _ := 0
  bytes_append_inj {a b x y} h := by
    cases a with
    | zero =>
      cases b with
      | zero => exact ⟨rfl, by simpa [toBytes] using h⟩
      | hash m =>
        obtain ⟨c, rest, hc, hne⟩ := encode_head m
        simp only [toBytes, hc, List.cons_append, List.cons.injEq] at h
        exact absurd h.1.symm hne
    | hash m =>
      cases b with
      | zero =>
        obtain ⟨c, rest, hc, hne⟩ := encode_head m
        simp only [toBytes, hc, List.cons_append, List.cons.injEq] at h
        exact absurd h.1 hne
      | hash m' =>
        obtain ⟨hm, hxy⟩ := encode_append_inj h
        exact ⟨by rw [hm], hxy⟩

end IdealDigest

/-- The collision-free hash, with every signature valid and an address that is
the first bytes of its key. -/
def idealCrypto : Crypto IdealDigest where
  doubleSha := .hash
  pubkeyToAddr key := ⟨key.1.take 20, by simp [key.2]⟩
  ecdsaVerify _ _ _ := true

theorem idealCrypto_injective : Function.Injective idealCrypto.doubleSha :=
  fun _ _ h => IdealDigest.hash.inj h

theorem idealCrypto_ne_zero (m : List UInt8) : idealCrypto.doubleSha m ≠ Digest.zero :=
  IdealDigest.noConfusion

/-- A genesis block. -/
def idealGenesis : Block IdealDigest :=
  genesisBlock .zero .zero (Bytes.zero 13) ⟨0, 0x1effffff, 0⟩

/-- A node that knows the genesis block only. -/
def idealNode : State IdealDigest := newState idealGenesis 0

/-- A block with one transaction, all of the same difficulty; `nonce` tells them
apart. -/
def idealChild (depth : UInt32) (nonce : UInt8) : NewBlock IdealDigest :=
  { sha := .hash [nonce]
    hdr := { idealGenesis.hdr with depth := depth, numPrevTxhashes := 4 }
    shardNums := [1, 0, 0, 0]
    merkles := List.replicate 4 .zero
    prevTxhashes := [0, 0, 0, 0]
    tailer := ⟨1, 0x1effffff, 0⟩ }

/-- The tables keep the order of insertion, and zero bytes follow a transaction. -/
def idealEnv : Env IdealDigest where
  crypto := idealCrypto
  past _ := ⟨0, Bytes.zero 20⟩
  txLayout := Layout.append _
  inputLayout := Layout.append _

end Pettycoin
