import Pettycoin.TxAccess
import Pettycoin.TxOrder
import Pettycoin.Marshal

/-!
# Pettycoin — the order of the bytes

`tx_cmp` on the bytes of accepted transactions is a strict total order, and a
transaction that comes before another does not belong to a later shard
(`tx_cmp_strict_total`).

* `txCmp_eq_iff` — two transactions are equal in the order if they are one;
* `shardOfTx_le` — the order is that of the shards first;
* `tx_cmp_strict_total` — all of it, on bytes.
-/

namespace Pettycoin

open BoundedRead

-- ---------------------------------------------------------------------------
-- Shards are runs of the order
-- ---------------------------------------------------------------------------

theorem toNat_le_of_compare_ne_gt {x y : UInt8} (h : compare x y ≠ .gt) : x.toNat ≤ y.toNat := by
  by_contra hlt
  exact h (Std.compare_eq_gt.mpr (UInt8.lt_iff_toNat_lt.mpr (Nat.lt_of_not_le hlt)))

theorem toNat_lt_of_compare_eq_lt {x y : UInt8} (h : compare x y = .lt) : x.toNat < y.toNat :=
  UInt8.lt_iff_toNat_lt.mp (Std.compare_eq_lt.mp h)

/-- An address that does not come after another is of no later shard. -/
theorem shardOf_le {a b : Address} (h : List.compareLex compare a.1 b.1 ≠ .gt) (shardOrder : UInt8) :
    shardOf a shardOrder ≤ shardOf b shardOrder := by
  obtain ⟨_ | ⟨x₀, _ | ⟨x₁, xs⟩⟩, ha⟩ := a
  · exact absurd ha (by decide)
  · exact absurd ha (by simp)
  obtain ⟨_ | ⟨y₀, _ | ⟨y₁, ys⟩⟩, hb⟩ := b
  · exact absurd hb (by decide)
  · exact absurd hb (by simp)
  have htop : x₀.toNat * 256 + x₁.toNat ≤ y₀.toNat * 256 + y₁.toNat := by
    have hx₁ := x₁.toNat_lt
    rw [List.compareLex_cons_cons, List.compareLex_cons_cons] at h
    cases hfirst : compare x₀ y₀ with
    | lt =>
      have hlt := toNat_lt_of_compare_eq_lt hfirst
      omega
    | gt => exact absurd (by rw [hfirst]; rfl) h
    | eq =>
      obtain rfl := Std.LawfulEqCmp.eq_of_compare hfirst
      rw [hfirst] at h
      have hle : x₁.toNat ≤ y₁.toNat := toNat_le_of_compare_ne_gt fun hgt => h (by rw [hgt]; rfl)
      omega
  unfold shardOf
  rw [Nat.shiftRight_eq_div_pow, Nat.shiftRight_eq_div_pow]
  exact Nat.div_le_div_right htop

-- ---------------------------------------------------------------------------
-- The order
-- ---------------------------------------------------------------------------

variable {D : Type} [Digest D] {C : Crypto D} {past : TxFromGateway → GatewayPayment}

/-- Transactions compare equal if their bytes are. -/
theorem txCmp_eq_iff {a b : Tx D} : txCmp C past a b = .eq ↔ marshalTx a = marshalTx b := by
  constructor
  · intro h
    rw [txCmp_eq, Ordering.then_eq_eq] at h
    exact Std.LawfulEqCmp.eq_of_compare h.2
  · intro h
    obtain rfl := marshalTx_injective h
    exact Std.ReflCmp.compare_self

/-- The shards follow the order. -/
theorem shardOfTx_le {a b : Tx D} (h : txCmp C past a b = .lt) (shardOrder : UInt8) :
    shardOfTx C past a shardOrder ≤ shardOfTx C past b shardOrder := by
  refine shardOf_le (fun hgt => ?_) shardOrder
  rw [txCmp_eq, hgt] at h
  exact nomatch h

/-- A buffer that begins with an accepted transaction, and a payment of it if a gateway
pays. -/
structure Comparable (mem : List UInt8) : Prop where
  accepted : ∃ (size : UInt64) (used : Bool) (u : Option UInt64),
    mem.length = size.toNat ∧ unmarshalTx size used mem = .ok (.ok u)
  hasOutput : txTypeAt mem = some .fromGateway → le16At mem 36 ≠ 0

theorem Comparable.exists_tx {mem : List UInt8} (h : Comparable mem) :
    ∃ tx : Tx (Bytes 32), LiesAt mem 0 (marshalTx tx) ∧ HasOutput tx ∧
      readTxBytes mem = .ok (marshalTx tx) := by
  obtain ⟨size, used, u, hsize, haccept⟩ := h.accepted
  obtain ⟨tx, -, hlies, -, -⟩ := exists_marshalTx hsize haccept
  exact ⟨tx, hlies, (hasOutput_iff hlies).mpr h.hasOutput, hlies.readTxBytes⟩

/-- **`tx_cmp` is a strict total order that refines the shards.** Of accepted transactions, each
with a payment to be sorted by if a gateway pays, two compare equal exactly if their bytes are, the
other way round if they are swapped, and in a chain if they are three; and whichever comes before
another does not belong to a later shard, whatever the order of the shards. -/
theorem tx_cmp_strict_total (C : Crypto (Bytes 32)) {a b c : List UInt8} (ha : Comparable a)
    (hb : Comparable b) (hc : Comparable c) :
    ∃ ab ba bc ac : Ordering, readTxCmp C a b = .ok ab ∧ readTxCmp C b a = .ok ba ∧
      readTxCmp C b c = .ok bc ∧ readTxCmp C a c = .ok ac ∧
      (ab = .eq ↔ ∃ bytes, readTxBytes a = .ok bytes ∧ readTxBytes b = .ok bytes) ∧
      ba = ab.swap ∧ (ab = .lt → bc = .lt → ac = .lt) ∧
      (ab = .lt → ∀ shardOrder : UInt8, shardOrder ≤ 16 → ∃ i j,
        readShardOfTx C shardOrder a = .ok i ∧ readShardOfTx C shardOrder b = .ok j ∧ i ≤ j) := by
  obtain ⟨txa, hla, houta, hbytesa⟩ := ha.exists_tx
  obtain ⟨txb, hlb, houtb, hbytesb⟩ := hb.exists_tx
  obtain ⟨txc, hlc, houtc, -⟩ := hc.exists_tx
  refine ⟨_, _, _, _, readTxCmp_apply nothingPast hla hlb houta houtb,
    readTxCmp_apply nothingPast hlb hla houtb houta,
    readTxCmp_apply nothingPast hlb hlc houtb houtc,
    readTxCmp_apply nothingPast hla hlc houta houtc, ?_, Std.OrientedCmp.eq_swap,
    Std.TransCmp.lt_trans, fun hlt shardOrder _ => ?_⟩
  · rw [txCmp_eq_iff]
    constructor
    · intro h
      exact ⟨_, hbytesa, h ▸ hbytesb⟩
    · rintro ⟨bytes, hbytes, hbytes'⟩
      exact (Except.ok.inj (hbytesa.symm.trans hbytes)).trans
        (Except.ok.inj (hbytesb.symm.trans hbytes')).symm
  · refine ⟨_, _, hla.readShardOfTx nothingPast houta, hlb.readShardOfTx nothingPast houtb, ?_⟩
    exact shardOfTx_le hlt shardOrder

/-- An address is the beginning of its key. -/
def keyCrypto : Crypto (Bytes 32) :=
  { zeroCrypto with pubkeyToAddr := idealCrypto.pubkeyToAddr }

/-- A claim of the key with these bytes. -/
def lowClaim : List UInt8 := [1, 3, 0, 0] ++ List.replicate 136 16

/-- A gateway pays two keys further on. -/
def midOutputs : List UInt8 :=
  [1, 1] ++ List.replicate 34 0 ++ [2, 0, 0, 0] ++ List.replicate 64 0
    ++ ([5, 0, 0, 0] ++ List.replicate 20 100) ++ ([6, 0, 0, 0] ++ List.replicate 20 7)

/-- The last key pays with one input. -/
def highPayment : List UInt8 :=
  marshalTx (.normal
    { version := 1, paysFee := true, features := 0, inputKey := ⟨List.replicate 33 200, rfl⟩
      outputAddr := Bytes.zero 20, sendAmount := 60, changeAmount := 7
      signature := ⟨Bytes.zero 32, Bytes.zero 32⟩, inputs := [⟨Bytes.zero 32, 1, 0⟩]
      numInputs_lt := by decide } : Tx (Bytes 32))

theorem comparable_lowClaim : Comparable lowClaim :=
  ⟨⟨140, false, none, by decide +kernel, by decide +kernel⟩, by decide +kernel⟩

theorem comparable_midOutputs : Comparable midOutputs :=
  ⟨⟨152, false, none, by decide +kernel, by decide +kernel⟩, by decide +kernel⟩

theorem comparable_highPayment : Comparable highPayment :=
  ⟨⟨168, false, none, by decide +kernel, by decide +kernel⟩, by decide +kernel⟩

/-- The three come in this order, and in the shards 0, 1 and 3. -/
theorem tx_cmp_strict_total_three :
    readTxCmp keyCrypto lowClaim midOutputs = .ok .lt ∧
      readTxCmp keyCrypto midOutputs lowClaim = .ok .gt ∧
      readTxCmp keyCrypto midOutputs highPayment = .ok .lt ∧
      readTxCmp keyCrypto lowClaim highPayment = .ok .lt ∧
      ∃ i j, readShardOfTx keyCrypto 2 lowClaim = .ok i ∧
        readShardOfTx keyCrypto 2 midOutputs = .ok j ∧ i ≤ j := by
  obtain ⟨ab, ba, bc, ac, hab, hba, hbc, hac, -, hswap, htrans, hshards⟩ :=
    tx_cmp_strict_total keyCrypto comparable_lowClaim comparable_midOutputs comparable_highPayment
  have hlow : readTxCmp keyCrypto lowClaim midOutputs = .ok .lt := by decide +kernel
  have hhigh : readTxCmp keyCrypto midOutputs highPayment = .ok .lt := by decide +kernel
  obtain rfl := Except.ok.inj (hab.symm.trans hlow)
  obtain rfl := Except.ok.inj (hbc.symm.trans hhigh)
  exact ⟨hlow, hba.trans (congrArg Except.ok hswap), hhigh,
    hac.trans (congrArg Except.ok (htrans rfl rfl)), hshards rfl 2 (by decide)⟩

end Pettycoin
