import Pettycoin.TxBytes
import Pettycoin.CheckTx
import Pettycoin.Shard

/-!
# Pettycoin — the accessors of a transaction, on its bytes

`tx.c`, `tx_cmp.c`, `shard.c` and the loop of `check_tx_from_gateway`, each reading the
bytes of a transaction. They compute what is modelled on transactions, as long as they
stay within the bytes. `find_output` does not for the number after the last payment,
and `tx_cmp` and `shard_of_tx` do not where there is no payment
(`accessors_inside_iff`).

* `LiesAt.readFindOutput`, `LiesAt.readShardOfTx` — the accessors where they stay
  inside;
* `readFindOutput_overrun`, `readTxHome_overrun` — and where they do not;
* `accessorsInside_marshalTx_iff` — for one transaction;
* `accessors_inside_iff` — for any accepted bytes.
-/

namespace Pettycoin

open BoundedRead

-- ---------------------------------------------------------------------------
-- tx.h, tx.c
-- ---------------------------------------------------------------------------

/-- So many bytes from an offset on. -/
def readBytes (off n : Nat) : Read UInt8 (Bytes n) := do
  let bytes ← read off n
  return bytesAt bytes 0 n

/-- `num_outputs()`. -/
def readNumOutputs : Read UInt8 UInt32 := do
  match ← readTxType with
  | some .normal => return 2
  | some .fromGateway => do
    let num ← readNumOutputsField
    return num.toUInt32
  | some .toGateway => return 0
  | some .claim => return 1
  | none => abort

/-- `get_tx_input_address()`. The key lies in one place whatever the type. -/
def readTxInputAddress (C : Crypto (Bytes 32)) : Read UInt8 Address := do
  match ← readTxType with
  | some .normal | some .toGateway | some .claim => do
    let key ← readBytes 3 33
    return C.pubkeyToAddr key
  | some .fromGateway | none => abort

/-- Where `get_from_gateway_outputs(tx)[i]` is. -/
def paymentOffset (i : Nat) : Nat := 104 + 24 * i

/-- `find_output()`. -/
def readFindOutput (C : Crypto (Bytes 32)) (outputNum : UInt16) :
    Read UInt8 (Option (Address × UInt32)) := do
  match ← readTxType with
  | some .fromGateway => do
    let num ← readNumOutputsField
    if outputNum > num then return none
    else do
      let addr ← readBytes (paymentOffset outputNum.toNat + 4) 20
      let amount ← readLe32 (paymentOffset outputNum.toNat)
      return some (addr, amount)
  | some .normal =>
    if outputNum = 0 then do
      let addr ← readBytes 36 20
      let amount ← readLe32 56
      return some (addr, amount)
    else if outputNum = 1 then do
      let addr ← readTxInputAddress C
      let amount ← readLe32 60
      return some (addr, amount)
    else return none
  | some .claim =>
    if outputNum = 0 then do
      let addr ← readTxInputAddress C
      let amount ← readLe32 36
      return some (addr, amount)
    else return none
  | some .toGateway => return none
  | none => abort

/-- `tx_amount_sent()`. -/
def readTxAmountSent : Read UInt8 UInt32 := do
  match ← readTxType with
  | some .normal | some .toGateway => do
    let send ← readLe32 56
    let change ← readLe32 60
    return send + change
  | some .fromGateway => do
    let num ← readNumOutputsField
    (List.range num.toNat).foldlM
      (fun total i => do
        let amount ← readLe32 (paymentOffset i)
        return total + amount)
      0
  | some .claim => readLe32 36
  | none => abort

/-- `tx_input()`, and the `struct protocol_input` it points to. -/
def readTxInput (num : UInt32) : Read UInt8 (Option (Input (Bytes 32))) := do
  let first ← (do
    match ← readTxType with
    | some .normal | some .toGateway => return some 132
    | some .fromGateway => return none
    | some .claim => return some 40
    | none => abort : Read UInt8 (Option Nat))
  match first with
  | none => return none
  | some off => do
    let count ← readNumInputs
    if num ≥ count then return none
    else do
      let bytes ← read (off + 36 * num.toNat) 36
      return some (inputAt bytes 0)

-- ---------------------------------------------------------------------------
-- shard.c, tx_cmp.c
-- ---------------------------------------------------------------------------

/-- The address that `shard_of_tx` and `tx_cmp` go by. -/
def readTxHome (C : Crypto (Bytes 32)) : Read UInt8 Address := do
  match ← readTxType with
  | some .normal | some .toGateway | some .claim => readTxInputAddress C
  | some .fromGateway => readBytes (paymentOffset 0 + 4) 20
  | none => abort

/-- `shard_of_tx()`. -/
def readShardOfTx (C : Crypto (Bytes 32)) (shardOrder : UInt8) : Read UInt8 Nat := do
  let addr ← readTxHome C
  return shardOf addr shardOrder

/-- `tx_cmp()` of the transactions that two areas begin with. -/
def readTxCmp (C : Crypto (Bytes 32)) (a b : List UInt8) : Except Stop Ordering := do
  let addra ← readTxHome C a
  let addrb ← readTxHome C b
  if memcmp addra.1 addrb.1 ≠ .eq then return memcmp addra.1 addrb.1
  else
    let lena ← readMarshalTxLen a
    let lenb ← readMarshalTxLen b
    if lena < lenb then
      let bytesa ← read 0 lena.toNat a
      let bytesb ← read 0 lena.toNat b
      return (memcmp bytesa bytesb).then .lt
    else if lenb < lena then
      let bytesa ← read 0 lenb.toNat a
      let bytesb ← read 0 lenb.toNat b
      return (memcmp bytesa bytesb).then .gt
    else
      let bytesa ← read 0 lenb.toNat a
      let bytesb ← read 0 lenb.toNat b
      return memcmp bytesa bytesb

-- ---------------------------------------------------------------------------
-- check_tx.c
-- ---------------------------------------------------------------------------

/-- `out[i]`. -/
def readPayment (i : Nat) : Read UInt8 GatewayPayment := do
  let bytes ← read (paymentOffset i) 24
  return paymentAt bytes 0

/-- The loop of `check_tx_from_gateway`, over the numbers that are left. -/
def readPaymentsFrom (shardOrd : UInt8) : List Nat → (theShard : Nat) → Read UInt8 Ecode
  | [], _ => return .none
  | i :: rest, theShard => do
    let out ← readPayment i
    let shard := shardOf out.outputAddr shardOrd
    let theShard := if i = 0 then shard else theShard
    if shard ≠ theShard then return .txCrossShards
    else if out.sendAmount > protocolMaxSatoshi then return .txTooLarge
    else if out.sendAmount = 0 then return .txTooSmall
    else readPaymentsFrom shardOrd rest theShard

/-- The loop over the payments. -/
def readCheckPayments (shardOrd : UInt8) : Read UInt8 Ecode := do
  let num ← readNumOutputsField
  readPaymentsFrom shardOrd (List.range num.toNat) 0

-- ---------------------------------------------------------------------------
-- Reading the bytes of a transaction
-- ---------------------------------------------------------------------------

variable {mem : List UInt8} {off n : Nat} {tx tx' : Tx (Bytes 32)} {C : Crypto (Bytes 32)}
  {past : TxFromGateway → GatewayPayment} {outputNum : UInt16}

theorem LiesAt.readBytes {x : Bytes n} (h : LiesAt mem off x.1) :
    Pettycoin.readBytes off n mem = .ok x := by
  unfold Pettycoin.readBytes
  rw [bind_apply, h.read x.2.symm]
  exact congrArg Except.ok (Subtype.ext ((LiesAt.self x.1).bytesAt x.2.symm))

theorem LiesAt.readTxType (h : LiesAt mem 0 (marshalTx tx)) :
    Pettycoin.readTxType mem = .ok (some (txType tx)) := by
  have hmin : 2 ≤ mem.length := by
    have hpos : 2 ≤ fixedLen (txType tx) := by cases txType tx <;> decide
    have hle := h.le
    have hlen := marshalTx_length tx
    omega
  rw [readTxType_apply hmin, h.txTypeAt]

/-- The count of payments. -/
theorem LiesAt.readNumOutputsField {t : TxFromGateway}
    (h : LiesAt mem 0 (marshalTx (.fromGateway t : Tx (Bytes 32)))) :
    Pettycoin.readNumOutputsField mem = .ok (UInt16.ofNat t.outputs.length) :=
  h.fromGateway.2.readLe16

theorem LiesAt.readNumOutputs (h : LiesAt mem 0 (marshalTx tx)) :
    Pettycoin.readNumOutputs mem = .ok (UInt32.ofNat (numOutputs tx)) := by
  unfold Pettycoin.readNumOutputs
  rw [bind_apply, h.readTxType]
  cases tx with
  | normal t => rfl
  | toGateway t => rfl
  | claim t => rfl
  | fromGateway t =>
    show (Pettycoin.readNumOutputsField >>= _) mem = _
    rw [bind_apply, h.readNumOutputsField]
    refine congrArg Except.ok (UInt32.toNat_inj.mp ?_)
    have hlt := t.numOutputs_lt
    rw [UInt16.toNat_toUInt32, UInt16.toNat_ofNat_of_lt' hlt]
    exact (UInt32.toNat_ofNat_of_lt' (Nat.lt_trans hlt (by decide))).symm

/-- The count of inputs. -/
theorem LiesAt.readNumInputs (h : LiesAt mem 0 (marshalTx tx)) :
    Pettycoin.readNumInputs mem = .ok (UInt32.ofNat (numInputs tx)) := by
  unfold Pettycoin.readNumInputs
  rw [bind_apply, h.readTxType]
  cases tx with
  | normal t => exact h.normal.2.2.2.2.readLe32
  | toGateway t => exact h.toGateway.2.2.2.readLe32
  | claim t => rfl
  | fromGateway t => rfl

/-- The address of the one that signs. -/
theorem LiesAt.readTxInputAddress (h : LiesAt mem 0 (marshalTx tx)) {addr : Address}
    (haddr : getTxInputAddress C tx = some addr) :
    Pettycoin.readTxInputAddress C mem = .ok addr := by
  have hkey : ∀ {key : Pubkey}, LiesAt mem 3 key.1 →
      (Pettycoin.readBytes 3 33 >>= fun key => Pure.pure (C.pubkeyToAddr key) : Read UInt8 Address) mem
        = .ok (C.pubkeyToAddr key) := fun hlies => by
    rw [bind_apply, hlies.readBytes]
    rfl
  unfold Pettycoin.readTxInputAddress
  rw [bind_apply, h.readTxType]
  cases tx with
  | normal t => rw [← Option.some.inj haddr]; exact hkey h.normal.1
  | toGateway t => rw [← Option.some.inj haddr]; exact hkey h.toGateway.1
  | claim t => rw [← Option.some.inj haddr]; exact hkey h.claim.1
  | fromGateway t => exact absurd haddr (by simp [getTxInputAddress])

/-- A payment in its place. -/
theorem LiesAt.payment {t : TxFromGateway}
    (h : LiesAt mem 0 (marshalTx (.fromGateway t : Tx (Bytes 32)))) {i : Nat}
    (hi : i < t.outputs.length) : LiesAt mem (paymentOffset i) (marshalPayment t.outputs[i]) :=
  h.tail.records marshalPayment_length hi

/-- Behind the last payment there is nothing. -/
theorem length_marshalTx_fromGateway (t : TxFromGateway) :
    (marshalTx (.fromGateway t : Tx (Bytes 32))).length = paymentOffset t.outputs.length :=
  marshalTx_length _

theorem readBytes_overrun (h : mem.length < off + n) : ¬ Within (Pettycoin.readBytes off n) mem := by
  intro hwithin
  obtain ⟨bytes, hread, -⟩ := hwithin.of_bind
  exact absurd (of_read_eq_ok hread).1 (Nat.not_le.mpr h)

-- ---------------------------------------------------------------------------
-- What each accessor computes
-- ---------------------------------------------------------------------------

/-- The number after the last payment. -/
def AtEnd (tx : Tx (Bytes 32)) (outputNum : UInt16) : Prop :=
  ∃ t, tx = .fromGateway t ∧ outputNum.toNat = t.outputs.length

/-- A gateway transaction pays something. -/
def HasOutput (tx : Tx (Bytes 32)) : Prop := ∀ t, tx = .fromGateway t → t.outputs ≠ []

/-- The address and the amount of an output. -/
theorem readOutput_apply {x : Read UInt8 Address} {addr : Address} {amount : UInt32}
    (haddr : x mem = .ok addr) (hamount : LiesAt mem off (le32 amount)) :
    (do
      let addr ← x
      let amount ← readLe32 off
      return some (addr, amount) : Read UInt8 (Option (Address × UInt32))) mem
      = .ok (some (addr, amount)) := by
  rw [bind_apply, haddr]
  show (readLe32 off >>= _) mem = _
  rw [bind_apply, hamount.readLe32]
  rfl

/-- The bounds that `find_output` puts on the number of a payment. -/
theorem ofNat_lt_iff {t : TxFromGateway} :
    outputNum > UInt16.ofNat t.outputs.length ↔ t.outputs.length < outputNum.toNat := by
  rw [gt_iff_lt, UInt16.lt_iff_toNat_lt, UInt16.toNat_ofNat_of_lt' t.numOutputs_lt]

theorem LiesAt.readFindOutput (past : TxFromGateway → GatewayPayment)
    (h : LiesAt mem 0 (marshalTx tx)) (hend : ¬ AtEnd tx outputNum) :
    Pettycoin.readFindOutput C outputNum mem = .ok (findOutput C past tx outputNum) := by
  unfold Pettycoin.readFindOutput findOutput
  rw [bind_apply, h.readTxType]
  cases tx with
  | fromGateway t =>
    show (Pettycoin.readNumOutputsField >>= _) mem = _
    rw [bind_apply, h.readNumOutputsField]
    show (if outputNum > UInt16.ofNat t.outputs.length then _ else _ : Read UInt8 _) mem = _
    by_cases hgt : t.outputs.length < outputNum.toNat
    · rw [if_pos (ofNat_lt_iff.mpr hgt)]
      dsimp only
      rw [if_pos hgt]
      rfl
    have hi : outputNum.toNat < t.outputs.length := by
      have hne : outputNum.toNat ≠ t.outputs.length := fun heq => hend ⟨t, rfl, heq⟩
      omega
    have hpay := h.payment hi
    rw [if_neg fun hlt => hgt (ofNat_lt_iff.mp hlt)]
    dsimp only
    rw [if_neg hgt]
    unfold gatewayOutput
    rw [List.getElem?_eq_getElem hi]
    have haddr := hpay.right
    rw [le32_length] at haddr
    exact readOutput_apply haddr.readBytes hpay.left
  | normal t =>
    obtain ⟨-, haddr, hsend, hback, -⟩ := h.normal
    show (if outputNum = 0 then _ else if outputNum = 1 then _ else _ : Read UInt8 _) mem = _
    dsimp only
    by_cases h0 : outputNum = 0
    · rw [if_pos h0, if_pos h0]
      exact readOutput_apply haddr.readBytes hsend
    by_cases h1 : outputNum = 1
    · rw [if_neg h0, if_neg h0, if_pos h1, if_pos h1]
      exact readOutput_apply (h.readTxInputAddress rfl) hback
    · rw [if_neg h0, if_neg h0, if_neg h1, if_neg h1]
      rfl
  | claim t =>
    show (if outputNum = 0 then _ else _ : Read UInt8 _) mem = _
    dsimp only
    by_cases h0 : outputNum = 0
    · rw [if_pos h0, if_pos h0]
      exact readOutput_apply (h.readTxInputAddress rfl) h.claim.2.1
    · rw [if_neg h0, if_neg h0]
      rfl
  | toGateway t => rfl

/-- At the end of the payments `find_output` reads what is not there. -/
theorem readFindOutput_overrun (hend : AtEnd tx outputNum) :
    ¬ Within (Pettycoin.readFindOutput C outputNum) (marshalTx tx) := by
  obtain ⟨t, rfl, heq⟩ := hend
  have h := LiesAt.self (marshalTx (.fromGateway t : Tx (Bytes 32)))
  intro hwithin
  obtain ⟨type, htype, hwithin⟩ := hwithin.of_bind
  obtain rfl := Except.ok.inj (h.readTxType.symm.trans htype)
  obtain ⟨num, hnum, hwithin⟩ := Within.of_bind hwithin
  obtain rfl := Except.ok.inj (h.readNumOutputsField.symm.trans hnum)
  rw [if_neg fun hlt => absurd (ofNat_lt_iff.mp hlt) (by omega)] at hwithin
  obtain ⟨addr, haddr, -⟩ := Within.of_bind hwithin
  refine readBytes_overrun ?_ ⟨addr, haddr⟩
  rw [length_marshalTx_fromGateway, heq]
  omega

theorem LiesAt.readTxAmountSent (h : LiesAt mem 0 (marshalTx tx)) :
    Pettycoin.readTxAmountSent mem = .ok (txAmountSent tx) := by
  have hsum : ∀ {send change : UInt32}, LiesAt mem 56 (le32 send) → LiesAt mem 60 (le32 change) →
      (do
        let send ← Pettycoin.readLe32 56
        let change ← Pettycoin.readLe32 60
        return send + change : Read UInt8 UInt32) mem = .ok (send + change) := fun hsend hchange => by
    rw [bind_apply, hsend.readLe32]
    show (Pettycoin.readLe32 60 >>= _) mem = _
    rw [bind_apply, hchange.readLe32]
    rfl
  unfold Pettycoin.readTxAmountSent
  rw [bind_apply, h.readTxType]
  cases tx with
  | normal t => exact hsum h.normal.2.2.1 h.normal.2.2.2.1
  | toGateway t => exact hsum h.toGateway.2.1 h.toGateway.2.2.1
  | claim t => exact h.claim.2.1.readLe32
  | fromGateway t =>
    show (Pettycoin.readNumOutputsField >>= _) mem = _
    rw [bind_apply, h.readNumOutputsField]
    show (List.foldlM _ 0 (List.range (UInt16.ofNat t.outputs.length).toNat) : Read UInt8 _) mem = _
    rw [UInt16.toNat_ofNat_of_lt' t.numOutputs_lt]
    refine foldlM_range (f := fun total (out : GatewayPayment) => total + out.sendAmount)
      (fun total i hi => ?_) 0
    rw [bind_apply, (h.payment hi).left.readLe32]
    rfl

theorem inputAt_marshalInput (inp : Input (Bytes 32)) : inputAt (marshalInput inp) 0 = inp := by
  have h := LiesAt.self (marshalInput inp)
  unfold marshalInput at h
  have hinput := h.left.left
  have houtput := h.left.right
  have hunused := h.right
  have hlen : (Digest.bytes inp.input).length = 32 := inp.input.2
  rw [hlen] at houtput
  rw [List.length_append, hlen, le16_length] at hunused
  unfold inputAt marshalInput
  rw [houtput.le16At, hunused.le16At, show bytesAt _ 0 32 = inp.input from
    Subtype.ext (hinput.bytesAt hlen.symm)]

/-- Every input that there is lies within the transaction. -/
theorem LiesAt.readTxInput (h : LiesAt mem 0 (marshalTx tx)) {i : UInt32}
    (hi : i.toNat < numInputs tx) :
    Pettycoin.readTxInput i mem = .ok (txInput tx i.toNat) := by
  have hcount : numInputs tx < 2 ^ 32 := by
    cases tx with
    | normal t => exact t.numInputs_lt
    | toGateway t => exact t.numInputs_lt
    | fromGateway t => exact Nat.two_pow_pos 32
    | claim t => exact (by decide : 1 < 2 ^ 32)
  have hlt : ¬ i ≥ UInt32.ofNat (numInputs tx) := by
    rw [ge_iff_le, UInt32.le_iff_toNat_le, UInt32.toNat_ofNat_of_lt' hcount]
    omega
  have hread : ∀ (first : Nat) (inp : Input (Bytes 32)),
      LiesAt mem (first + 36 * i.toNat) (marshalInput inp) →
      (do
        let count ← Pettycoin.readNumInputs
        if i ≥ count then return none
        else do
          let bytes ← BoundedRead.read (first + 36 * i.toNat) 36
          return some (inputAt bytes 0) : Read UInt8 (Option (Input (Bytes 32)))) mem
        = .ok (some inp) := fun first inp hlies => by
    rw [bind_apply, h.readNumInputs]
    show (if i ≥ UInt32.ofNat (numInputs tx) then _ else _ : Read UInt8 _) mem = _
    rw [if_neg hlt, bind_apply, hlies.read (marshalInput_length inp).symm]
    show Except.ok (some (inputAt _ 0)) = _
    rw [inputAt_marshalInput]
  unfold Pettycoin.readTxInput
  rw [bind_apply, bind_apply, h.readTxType]
  unfold txInput
  cases tx with
  | normal t =>
    have hlies := h.tail.records marshalInput_length hi
    rw [show (txInputs (.normal t))[i.toNat]? = some t.inputs[i.toNat] from
      List.getElem?_eq_getElem hi]
    exact hread 132 _ hlies
  | toGateway t =>
    have hlies := h.tail.records marshalInput_length hi
    rw [show (txInputs (.toGateway t))[i.toNat]? = some t.inputs[i.toNat] from
      List.getElem?_eq_getElem hi]
    exact hread 132 _ hlies
  | fromGateway t => exact absurd hi (Nat.not_lt_zero _)
  | claim t =>
    have hzero : i.toNat = 0 := Nat.lt_one_iff.mp hi
    rw [show (txInputs (.claim t))[i.toNat]? = some t.input by rw [hzero]; rfl]
    refine hread 40 t.input ?_
    rw [hzero]
    exact h.claim.2.2

theorem LiesAt.readTxHome (past : TxFromGateway → GatewayPayment)
    (h : LiesAt mem 0 (marshalTx tx)) (hout : HasOutput tx) :
    Pettycoin.readTxHome C mem = .ok (txHomeAddress C past tx) := by
  unfold Pettycoin.readTxHome
  rw [bind_apply, h.readTxType]
  cases tx with
  | normal t => exact h.readTxInputAddress rfl
  | toGateway t => exact h.readTxInputAddress rfl
  | claim t => exact h.readTxInputAddress rfl
  | fromGateway t =>
    have hpos : 0 < t.outputs.length := List.length_pos_iff.mpr (hout t rfl)
    have haddr := (h.payment hpos).right
    rw [le32_length] at haddr
    rw [show txHomeAddress C past (.fromGateway t) = t.outputs[0].outputAddr by
      show (t.outputs[0]?.getD (past t)).outputAddr = _
      rw [List.getElem?_eq_getElem hpos, Option.getD_some]]
    exact haddr.readBytes

/-- Where there is no payment, its address is read none the less. -/
theorem readTxHome_overrun (hout : ¬ HasOutput tx) :
    ¬ Within (Pettycoin.readTxHome C) (marshalTx tx) := by
  unfold HasOutput at hout
  rw [not_forall] at hout
  obtain ⟨t, hout⟩ := hout
  rw [Classical.not_imp, not_not] at hout
  obtain ⟨rfl, hempty⟩ := hout
  have h := LiesAt.self (marshalTx (.fromGateway t : Tx (Bytes 32)))
  intro hwithin
  obtain ⟨type, htype, hwithin⟩ := hwithin.of_bind
  obtain rfl := Except.ok.inj (h.readTxType.symm.trans htype)
  refine readBytes_overrun ?_ hwithin
  rw [length_marshalTx_fromGateway, hempty]
  decide

/-- What no proof looks at: the bytes behind a transaction. -/
def nothingPast : TxFromGateway → GatewayPayment := fun _ => ⟨0, Bytes.zero 20⟩

theorem LiesAt.readShardOfTx {shardOrder : UInt8} (past : TxFromGateway → GatewayPayment)
    (h : LiesAt mem 0 (marshalTx tx)) (hout : HasOutput tx) :
    Pettycoin.readShardOfTx C shardOrder mem = .ok (shardOfTx C past tx shardOrder) := by
  unfold Pettycoin.readShardOfTx
  rw [bind_apply, h.readTxHome past hout]
  rfl

theorem readShardOfTx_within_iff {shardOrder : UInt8} :
    Within (readShardOfTx C shardOrder) (marshalTx tx) ↔ HasOutput tx := by
  constructor
  · intro hwithin
    by_contra hout
    obtain ⟨addr, haddr, -⟩ := hwithin.of_bind
    exact readTxHome_overrun hout ⟨addr, haddr⟩
  · intro hout
    exact ⟨_, (LiesAt.self (marshalTx tx)).readShardOfTx nothingPast hout⟩

theorem LiesAt.readMarshalTxLen (h : LiesAt mem 0 (marshalTx tx)) :
    Pettycoin.readMarshalTxLen mem = .ok (UInt64.ofNat (marshalTx tx).length) ∧
      (UInt64.ofNat (marshalTx tx).length).toNat = (marshalTx tx).length := by
  have hle := h.le
  have hlen := marshalTx_length tx
  rw [← h.grammarLen]
  exact ⟨readMarshalTxLen_apply h.txTypeAt (by omega), toNat_ofNat_grammarLen _ _⟩

/-- Only as much of the longer area matters as there is of the shorter. -/
theorem memcmp_take (xs ys : List UInt8) :
    memcmp xs (ys.take xs.length) = memcmp xs ys ∧ memcmp (xs.take ys.length) ys = memcmp xs ys := by
  induction xs generalizing ys with
  | nil => cases ys <;> exact ⟨rfl, rfl⟩
  | cons x xs ih =>
    cases ys with
    | nil => exact ⟨rfl, rfl⟩
    | cons y ys =>
      obtain ⟨hright, hleft⟩ := ih ys
      exact ⟨congrArg (compare x y).then hright, congrArg (compare x y).then hleft⟩

/-- `tx_cmp` of two transactions that have the payments it looks at. -/
theorem readTxCmp_apply {mem' : List UInt8} (past : TxFromGateway → GatewayPayment)
    (h : LiesAt mem 0 (marshalTx tx)) (h' : LiesAt mem' 0 (marshalTx tx')) (hout : HasOutput tx)
    (hout' : HasOutput tx') : readTxCmp C mem mem' = .ok (txCmp C past tx tx') := by
  obtain ⟨hlen, hnat⟩ := h.readMarshalTxLen
  obtain ⟨hlen', hnat'⟩ := h'.readMarshalTxLen
  obtain ⟨hright, hleft⟩ := memcmp_take (marshalTx tx) (marshalTx tx')
  unfold readTxCmp txCmp
  rw [h.readTxHome past hout, h'.readTxHome past hout']
  show (if memcmp (txHomeAddress C past tx).1 (txHomeAddress C past tx').1 ≠ .eq then _ else _
    : Except Stop Ordering) = _
  by_cases haddr : memcmp (txHomeAddress C past tx).1 (txHomeAddress C past tx').1 = .eq
  · rw [if_neg (not_not_intro haddr), haddr, hlen, hlen']
    have hread : ∀ {contents mid : List UInt8} {n : Nat}, LiesAt contents 0 mid → n ≤ mid.length →
        read 0 n contents = .ok (mid.take n) := fun {contents mid n} hlies hn => by
      have hle := hlies.le
      have htake : contents.take n = mid.take n := by
        rw [← hlies.take, List.take_take, Nat.min_eq_left hn]
      rw [read_of_le (by omega), List.drop_zero, htake]
    show (if UInt64.ofNat (marshalTx tx).length < UInt64.ofNat (marshalTx tx').length then _
      else if UInt64.ofNat (marshalTx tx').length < UInt64.ofNat (marshalTx tx).length then _
      else _ : Except Stop Ordering) = _
    have hlt_iff := @UInt64.lt_iff_toNat_lt (UInt64.ofNat (marshalTx tx).length)
      (UInt64.ofNat (marshalTx tx').length)
    have hgt_iff := @UInt64.lt_iff_toNat_lt (UInt64.ofNat (marshalTx tx').length)
      (UInt64.ofNat (marshalTx tx).length)
    rw [hnat, hnat'] at hlt_iff hgt_iff ⊢
    rcases Nat.lt_trichotomy (marshalTx tx).length (marshalTx tx').length with hlt | heq | hlt
    · rw [if_pos (hlt_iff.mpr hlt), hread h (Nat.le_refl _), hread h' (Nat.le_of_lt hlt),
        Nat.compare_eq_lt.mpr hlt, List.take_length]
      show Except.ok ((memcmp _ _).then .lt) = _
      rw [hright]
      rfl
    · rw [if_neg fun hlt => absurd (hlt_iff.mp hlt) (by omega),
        if_neg fun hlt => absurd (hgt_iff.mp hlt) (by omega), hread h (Nat.le_of_eq heq.symm),
        hread h' (Nat.le_refl _), Nat.compare_eq_eq.mpr heq, Ordering.then_eq, List.take_length]
      show Except.ok (memcmp _ _) = _
      rw [hleft]
      rfl
    · rw [if_neg fun hlt' => absurd (hlt_iff.mp hlt') (by omega), if_pos (hgt_iff.mpr hlt),
        hread h (Nat.le_of_lt hlt), hread h' (Nat.le_refl _),
        Nat.compare_eq_gt.mpr hlt, List.take_length]
      show Except.ok ((memcmp _ _).then .gt) = _
      rw [hleft]
      rfl
  · rw [if_pos haddr]
    cases hcmp : memcmp (txHomeAddress C past tx).1 (txHomeAddress C past tx').1 with
    | eq => exact absurd hcmp haddr
    | lt => rfl
    | gt => rfl

theorem readTxCmp_ok_iff :
    (∃ ord, readTxCmp C (marshalTx tx) (marshalTx tx') = .ok ord) ↔ HasOutput tx ∧ HasOutput tx' := by
  constructor
  · rintro ⟨ord, hord⟩
    obtain ⟨addra, haddra, hrest⟩ := ExceptRules.of_bind_eq_ok hord
    obtain ⟨addrb, haddrb, -⟩ := ExceptRules.of_bind_eq_ok hrest
    constructor
    · by_contra hout
      exact readTxHome_overrun hout ⟨addra, haddra⟩
    · by_contra hout
      exact readTxHome_overrun hout ⟨addrb, haddrb⟩
  · rintro ⟨hout, hout'⟩
    exact ⟨_, readTxCmp_apply nothingPast (.self _) (.self _) hout hout'⟩

-- ---------------------------------------------------------------------------
-- The loop over the payments
-- ---------------------------------------------------------------------------

theorem paymentAt_marshalPayment (p : GatewayPayment) : paymentAt (marshalPayment p) 0 = p := by
  have h := LiesAt.self (marshalPayment p)
  have hamount := h.left
  have haddr := h.right
  rw [le32_length] at haddr
  unfold paymentAt
  rw [hamount.le32At, show bytesAt (marshalPayment p) (0 + 4) 20 = p.outputAddr from
    Subtype.ext (haddr.bytesAt p.outputAddr.2.symm)]

theorem LiesAt.readPayment {t : TxFromGateway}
    (h : LiesAt mem 0 (marshalTx (.fromGateway t : Tx (Bytes 32)))) {i : Nat}
    (hi : i < t.outputs.length) : Pettycoin.readPayment i mem = .ok t.outputs[i] := by
  unfold Pettycoin.readPayment
  rw [bind_apply, (h.payment hi).read (marshalPayment_length _).symm]
  show Except.ok (paymentAt _ 0) = _
  rw [paymentAt_marshalPayment]

/-- From the second payment on the shard is fixed. -/
theorem readPaymentsFrom_apply {shardOrd : UInt8} {theShard : Nat} {idx : List Nat}
    {outs : List GatewayPayment}
    (h : List.Forall₂ (fun i out => i ≠ 0 ∧ readPayment i mem = .ok out) idx outs) :
    readPaymentsFrom shardOrd idx theShard mem = .ok (checkPayments shardOrd theShard outs) := by
  induction h with
  | nil => rfl
  | @cons i out idx outs hhead _ ih =>
    obtain ⟨hne, hread⟩ := hhead
    unfold readPaymentsFrom checkPayments
    rw [bind_apply, hread]
    show (if shardOf out.outputAddr shardOrd ≠ (if i = 0 then _ else theShard) then _
      else if out.sendAmount > protocolMaxSatoshi then _
      else if out.sendAmount = 0 then _ else _ : Read UInt8 Ecode) mem = _
    rw [if_neg hne]
    split_ifs
    · rfl
    · rfl
    · rfl
    · exact ih

/-- The loop of `check_tx_from_gateway` on the bytes. -/
theorem LiesAt.readCheckPayments {t : TxFromGateway} {shardOrd : UInt8}
    (h : LiesAt mem 0 (marshalTx (.fromGateway t : Tx (Bytes 32)))) :
    Pettycoin.readCheckPayments shardOrd mem = .ok (checkPayments shardOrd
      ((t.outputs.head?.map fun out => shardOf out.outputAddr shardOrd).getD 0) t.outputs) := by
  have hread := fun (i : Nat) (hi : i < t.outputs.length) => h.readPayment hi
  unfold Pettycoin.readCheckPayments
  rw [bind_apply, h.readNumOutputsField]
  show readPaymentsFrom shardOrd (List.range (UInt16.ofNat t.outputs.length).toNat) 0 mem = _
  rw [UInt16.toNat_ofNat_of_lt' t.numOutputs_lt]
  revert hread
  generalize t.outputs = outs
  intro hread
  cases outs with
  | nil => rfl
  | cons out outs =>
    have hrest : List.Forall₂ (fun i out => i ≠ 0 ∧ Pettycoin.readPayment i mem = .ok out)
        ((List.range outs.length).map Nat.succ) outs := by
      rw [List.forall₂_iff_get]
      refine ⟨by simp, fun i hi hi' => ⟨?_, ?_⟩⟩
      · simp
      · have hout := hread (i + 1) (Nat.succ_lt_succ hi')
        simpa using hout
    rw [List.length_cons, List.range_succ_eq_map]
    unfold readPaymentsFrom checkPayments
    rw [bind_apply, hread 0 (Nat.succ_pos _)]
    show (if shardOf out.outputAddr shardOrd ≠ shardOf out.outputAddr shardOrd then _
      else if out.sendAmount > protocolMaxSatoshi then _
      else if out.sendAmount = 0 then _ else _ : Read UInt8 Ecode) mem
      = .ok (if shardOf out.outputAddr shardOrd ≠ shardOf out.outputAddr shardOrd then _ else _)
    rw [if_neg (not_not_intro rfl), if_neg (not_not_intro rfl)]
    by_cases hlarge : out.sendAmount > protocolMaxSatoshi
    · rw [if_pos hlarge, if_pos hlarge]
      rfl
    by_cases hsmall : out.sendAmount = 0
    · rw [if_neg hlarge, if_neg hlarge, if_pos hsmall, if_pos hsmall]
      rfl
    · rw [if_neg hlarge, if_neg hlarge, if_neg hsmall, if_neg hsmall]
      exact readPaymentsFrom_apply hrest

-- ---------------------------------------------------------------------------
-- Inside the transaction
-- ---------------------------------------------------------------------------

/-- The bytes below `marshal_tx_len`. -/
def readTxBytes : Read UInt8 (List UInt8) := do
  let len ← readMarshalTxLen
  read 0 len.toNat

theorem LiesAt.readTxBytes (h : LiesAt mem 0 (marshalTx tx)) :
    Pettycoin.readTxBytes mem = .ok (marshalTx tx) := by
  obtain ⟨hlen, hnat⟩ := h.readMarshalTxLen
  unfold Pettycoin.readTxBytes
  rw [bind_apply, hlen]
  exact h.read hnat

/-- With the bytes of the transactions and no more, every accessor stays within them, and
`find_output` finds the outputs that there are. -/
structure AccessorsInside (C : Crypto (Bytes 32)) (a b : List UInt8) (outputNum : UInt16)
    (shardOrder : UInt8) : Prop where
  findOutput : ∃ found outputs, readFindOutput C outputNum a = .ok found ∧
    readNumOutputs a = .ok outputs ∧ (found.isSome = true ↔ outputNum.toNat < outputs.toNat)
  txCmp : ∃ ord, readTxCmp C a b = .ok ord
  shardOfTx : Within (readShardOfTx C shardOrder) a
  txAmountSent : Within readTxAmountSent a
  txInput : ∃ count, readNumInputs a = .ok count ∧ ∀ i < count, Within (readTxInput i) a
  payments : txTypeAt a = some .fromGateway → Within (readCheckPayments shardOrder) a

theorem toNat_ofNat_numOutputs (tx : Tx (Bytes 32)) :
    (UInt32.ofNat (numOutputs tx)).toNat = numOutputs tx := by
  refine UInt32.toNat_ofNat_of_lt' ?_
  cases tx with
  | fromGateway t => exact Nat.lt_trans t.numOutputs_lt (by decide)
  | normal t => exact (by decide : 2 < 2 ^ 32)
  | toGateway t => exact (by decide : 0 < 2 ^ 32)
  | claim t => exact (by decide : 1 < 2 ^ 32)

/-- Apart from the number after the last payment, what is found are the outputs. -/
theorem findOutput_isSome_iff (hend : ¬ AtEnd tx outputNum) :
    (findOutput C past tx outputNum).isSome = true ↔ outputNum.toNat < numOutputs tx := by
  have hzero : outputNum = 0 ↔ outputNum.toNat = 0 := UInt16.toNat_inj.symm
  have hone : outputNum = 1 ↔ outputNum.toNat = 1 := UInt16.toNat_inj.symm
  cases tx with
  | fromGateway t =>
    have hne : outputNum.toNat ≠ t.outputs.length := fun heq => hend ⟨t, rfl, heq⟩
    show (if outputNum.toNat > t.outputs.length then _ else _ : Option _).isSome = true ↔
      outputNum.toNat < t.outputs.length
    by_cases hgt : outputNum.toNat > t.outputs.length
    · rw [if_pos hgt]
      exact ⟨fun h => absurd h Bool.false_ne_true, fun h => absurd h (by omega)⟩
    · rw [if_neg hgt]
      exact ⟨fun _ => by omega, fun _ => rfl⟩
  | normal t =>
    show (if outputNum = 0 then _ else if outputNum = 1 then _ else _ : Option _).isSome = true ↔
      outputNum.toNat < 2
    by_cases h0 : outputNum = 0
    · rw [if_pos h0, hzero.mp h0]
      exact ⟨fun _ => Nat.two_pos, fun _ => rfl⟩
    by_cases h1 : outputNum = 1
    · rw [if_neg h0, if_pos h1, hone.mp h1]
      exact ⟨fun _ => Nat.one_lt_two, fun _ => rfl⟩
    · have hne0 := mt hzero.mpr h0
      have hne1 := mt hone.mpr h1
      rw [if_neg h0, if_neg h1]
      exact ⟨fun h => absurd h Bool.false_ne_true, fun h => absurd h (by omega)⟩
  | claim t =>
    show (if outputNum = 0 then _ else _ : Option _).isSome = true ↔ outputNum.toNat < 1
    by_cases h0 : outputNum = 0
    · rw [if_pos h0, hzero.mp h0]
      exact ⟨fun _ => Nat.one_pos, fun _ => rfl⟩
    · have hne0 := mt hzero.mpr h0
      rw [if_neg h0]
      exact ⟨fun h => absurd h Bool.false_ne_true, fun h => absurd h (by omega)⟩
  | toGateway t => exact ⟨fun h => absurd h Bool.false_ne_true, fun h => absurd h (Nat.not_lt_zero _)⟩

theorem eq_fromGateway_of_txType (h : txType tx = .fromGateway) : ∃ t, tx = .fromGateway t := by
  cases tx with
  | fromGateway t => exact ⟨t, rfl⟩
  | normal t => exact nomatch h
  | toGateway t => exact nomatch h
  | claim t => exact nomatch h

/-- The accessors of a transaction, of which a place in memory holds nothing else. -/
theorem accessorsInside_marshalTx_iff {shardOrder : UInt8} :
    AccessorsInside C (marshalTx tx) (marshalTx tx') outputNum shardOrder ↔
      ¬ AtEnd tx outputNum ∧ HasOutput tx ∧ HasOutput tx' := by
  have h := LiesAt.self (marshalTx tx)
  constructor
  · intro hinside
    refine ⟨fun hend => ?_, readTxCmp_ok_iff.mp hinside.txCmp⟩
    obtain ⟨found, -, hfound, -⟩ := hinside.findOutput
    exact readFindOutput_overrun hend ⟨found, hfound⟩
  · rintro ⟨hend, hout, hout'⟩
    refine ⟨⟨_, _, h.readFindOutput nothingPast hend, h.readNumOutputs, ?_⟩,
      readTxCmp_ok_iff.mpr ⟨hout, hout'⟩, readShardOfTx_within_iff.mpr hout,
      ⟨_, h.readTxAmountSent⟩, ⟨_, h.readNumInputs, fun i hi => ?_⟩, fun htype => ?_⟩
    · rw [toNat_ofNat_numOutputs]
      exact findOutput_isSome_iff hend
    · refine ⟨_, h.readTxInput ?_⟩
      rw [UInt32.lt_iff_toNat_lt] at hi
      exact Nat.lt_of_lt_of_le hi (by rw [UInt32.toNat_ofNat']; exact Nat.mod_le _ _)
    · rw [h.txTypeAt] at htype
      obtain ⟨t, rfl⟩ := eq_fromGateway_of_txType (Option.some.inj htype)
      exact ⟨_, h.readCheckPayments⟩

/-- The number of payments, as it is in the bytes. -/
theorem atEnd_iff (h : LiesAt mem 0 (marshalTx tx)) (outputNum : UInt16) :
    AtEnd tx outputNum ↔ txTypeAt mem = some .fromGateway ∧ outputNum = le16At mem 36 := by
  rw [h.txTypeAt]
  constructor
  · rintro ⟨t, rfl, heq⟩
    refine ⟨rfl, UInt16.toNat_inj.mp ?_⟩
    rw [heq, h.fromGateway.2.le16At, UInt16.toNat_ofNat_of_lt' t.numOutputs_lt]
  · rintro ⟨htype, rfl⟩
    obtain ⟨t, rfl⟩ := eq_fromGateway_of_txType (Option.some.inj htype)
    refine ⟨t, rfl, ?_⟩
    rw [h.fromGateway.2.le16At, UInt16.toNat_ofNat_of_lt' t.numOutputs_lt]

theorem hasOutput_iff (h : LiesAt mem 0 (marshalTx tx)) :
    HasOutput tx ↔ (txTypeAt mem = some .fromGateway → le16At mem 36 ≠ 0) := by
  rw [h.txTypeAt]
  constructor
  · intro hout htype hzero
    obtain ⟨t, rfl⟩ := eq_fromGateway_of_txType (Option.some.inj htype)
    have hnat := UInt16.toNat_ofNat_of_lt' t.numOutputs_lt
    rw [← h.fromGateway.2.le16At, hzero] at hnat
    exact hout t rfl (List.eq_nil_of_length_eq_zero hnat.symm)
  · rintro hne t rfl hempty
    refine hne rfl ?_
    rw [h.fromGateway.2.le16At, hempty]
    rfl

/-- **Where the accessors stay inside.** `find_output` must not be asked for the number
after the last payment, and a gateway transaction that is compared or sharded must have
one. -/
theorem accessors_inside_iff {size size' : UInt64} {used used' : Bool} {u u' : Option UInt64}
    {a : Bytes size.toNat} {b : Bytes size'.toNat}
    (ha : unmarshalTx size used a.1 = .ok (.ok u)) (hb : unmarshalTx size' used' b.1 = .ok (.ok u'))
    (C : Crypto (Bytes 32)) (outputNum : UInt16) (shardOrder : UInt8) :
    ∃ bytes bytes', readTxBytes a.1 = .ok bytes ∧ readTxBytes b.1 = .ok bytes' ∧
      (AccessorsInside C bytes bytes' outputNum shardOrder ↔
        (txTypeAt a.1 = some .fromGateway → le16At a.1 36 ≠ 0 ∧ outputNum ≠ le16At a.1 36) ∧
          (txTypeAt b.1 = some .fromGateway → le16At b.1 36 ≠ 0)) := by
  obtain ⟨tx, -, hlies, -, -⟩ := exists_marshalTx a.2 ha
  obtain ⟨tx', -, hlies', -, -⟩ := exists_marshalTx b.2 hb
  refine ⟨_, _, hlies.readTxBytes, hlies'.readTxBytes, ?_⟩
  rw [accessorsInside_marshalTx_iff, atEnd_iff hlies, hasOutput_iff hlies, hasOutput_iff hlies',
    ← and_assoc]
  refine and_congr_left fun _ => ?_
  constructor
  · rintro ⟨hend, hout⟩ htype
    exact ⟨hout htype, fun heq => hend ⟨htype, heq⟩⟩
  · intro h
    exact ⟨fun hend => (h hend.1).2 hend.2, fun htype => (h htype).1⟩

/-- A gateway pays these. -/
def gatewayPays (outputs : List GatewayPayment) (h : outputs.length < 2 ^ 16) : Tx (Bytes 32) :=
  .fromGateway
    { version := 1, paysFee := false, features := 0, gatewayKey := Bytes.zero 33, unused := 0
      signature := ⟨Bytes.zero 32, Bytes.zero 32⟩, outputs := outputs, numOutputs_lt := h }

/-- Every signature is good. -/
def zeroCrypto : Crypto (Bytes 32) where
  doubleSha _ := Bytes.zero 32
  pubkeyToAddr _ := Bytes.zero 20
  ecdsaVerify _ _ _ := true

/-- A node with a genesis block. -/
def zeroNode : State (Bytes 32) :=
  newState (genesisBlock (Bytes.zero 32) (Bytes.zero 32) (Bytes.zero 13) ⟨0, 0, 0⟩) 0

theorem gatewayPays_accepted {outputs : List GatewayPayment} (h : outputs.length < 2 ^ 16)
    (hcheck : checkTx zeroCrypto zeroNode (gatewayPays outputs h) none = .none) {size : UInt64}
    (hsize : size.toNat = (marshalTx (gatewayPays outputs h)).length) :
    unmarshalTx size false (marshalTx (gatewayPays outputs h)) = .ok (.ok none) ∧
      checkTx zeroCrypto zeroNode (gatewayPays outputs h) none = .none :=
  ⟨unmarshalTx_marshalTx (by rfl) hsize, hcheck⟩

/-- A gateway pays one satoshi, and `find_output` looks for a second payment; another
pays nothing, and has no address to be sorted by. -/
theorem accessors_not_inside :
    (∃ tx : Tx (Bytes 32),
      (unmarshalTx 128 false (marshalTx tx) = .ok (.ok none) ∧
        checkTx zeroCrypto zeroNode tx none = .none) ∧
      ¬ AccessorsInside zeroCrypto (marshalTx tx) (marshalTx tx) 1 2) ∧
    ∃ tx : Tx (Bytes 32),
      (unmarshalTx 104 false (marshalTx tx) = .ok (.ok none) ∧
        checkTx zeroCrypto zeroNode tx none = .none) ∧
      ¬ AccessorsInside zeroCrypto (marshalTx tx) (marshalTx tx) 1 2 := by
  constructor
  · refine ⟨gatewayPays [⟨1, Bytes.zero 20⟩] (by decide),
      gatewayPays_accepted _ (by decide +kernel) (by decide +kernel), fun h => ?_⟩
    exact (accessorsInside_marshalTx_iff.mp h).1 ⟨_, rfl, rfl⟩
  · refine ⟨gatewayPays [] (by decide),
      gatewayPays_accepted _ (by decide +kernel) (by decide +kernel), fun h => ?_⟩
    exact (accessorsInside_marshalTx_iff.mp h).2.1 _ rfl rfl

/-- The accessors stay inside of two payments, compared with a claim. -/
theorem accessors_inside_iff_outputs : AccessorsInside zeroCrypto twoOutputs zeroClaim 1 2 := by
  obtain ⟨bytes, bytes', hbytes, hbytes', hinside⟩ := @accessors_inside_iff 152 140 true false
    (some 152) none ⟨twoOutputs, by decide +kernel⟩ ⟨zeroClaim, by decide +kernel⟩
    (by decide +kernel) (by decide +kernel) zeroCrypto 1 2
  have hread : readTxBytes twoOutputs = .ok twoOutputs := by decide +kernel
  have hread' : readTxBytes zeroClaim = .ok zeroClaim := by decide +kernel
  obtain rfl := Except.ok.inj (hbytes.symm.trans hread)
  obtain rfl := Except.ok.inj (hbytes'.symm.trans hread')
  exact hinside.mpr ⟨fun _ => by decide +kernel, by decide +kernel⟩

end Pettycoin
