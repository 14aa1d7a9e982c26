import Pettycoin.UnmarshalTx

/-!
# Pettycoin — transactions and their bytes

The bytes that `unmarshal_tx` accepts are those of a transaction, and the bytes of
every transaction of a known version are accepted. So what is shown of the fields of a
transaction holds of the accepted bytes (`exists_marshalTx`).

* `liesAt_txAt` — accepted bytes are the bytes of the transaction they are read as;
* `exists_marshalTx` — so there is one;
* `unmarshalTx_marshalTx` — its bytes are accepted.
-/

namespace Pettycoin

open BoundedRead

-- ---------------------------------------------------------------------------
-- Lengths
-- ---------------------------------------------------------------------------

variable {mem contents rest : List UInt8} {off : Nat}

theorem marshalInput_length (i : Input (Bytes 32)) : (marshalInput i).length = 36 := by
  have h : (Digest.bytes i.input).length = 32 := i.input.2
  unfold marshalInput
  simp only [List.length_append, le16_length, h]

theorem marshalPayment_length (p : GatewayPayment) : (marshalPayment p).length = 24 := by
  unfold marshalPayment
  rw [List.length_append, le32_length, p.outputAddr.2]

theorem marshalSignature_length (s : Signature) : (marshalSignature s).length = 64 := by
  unfold marshalSignature
  rw [List.length_append, s.r.2, s.s.2]

/-- Where `get_signature()` points. -/
def sigOffset : TxType → Nat
  | .normal => 68
  | .fromGateway => 40
  | .toGateway => 68
  | .claim => 76

theorem marshalTxHead_length (tx : Tx (Bytes 32)) :
    (marshalTxHead tx).length = sigOffset (txType tx) := by
  cases tx <;> simp only [marshalTxHead, List.length_append, List.length_cons, List.length_nil,
    le32_length, le16_length, marshalInput_length, txType, sigOffset] <;>
    rename_i t
  · rw [t.inputKey.2, t.outputAddr.2]
  · rw [t.gatewayKey.2]
  · rw [t.inputKey.2, t.toGatewayAddr.2]
  · rw [t.inputKey.2]

/-- How many records follow the fixed part, and of what size. -/
def recordsLen : Tx (Bytes 32) → Nat
  | .normal t => 36 * t.inputs.length
  | .fromGateway t => 24 * t.outputs.length
  | .toGateway t => 36 * t.inputs.length
  | .claim _ => 0

theorem marshalTxTail_length (tx : Tx (Bytes 32)) : (marshalTxTail tx).length = recordsLen tx := by
  cases tx
  · exact records_length marshalInput_length _
  · exact records_length marshalPayment_length _
  · exact records_length marshalInput_length _
  · rfl

theorem marshalTx_length (tx : Tx (Bytes 32)) :
    (marshalTx tx).length = fixedLen (txType tx) + recordsLen tx := by
  unfold marshalTx
  rw [List.length_append, List.length_append, marshalTxHead_length, marshalSignature_length,
    marshalTxTail_length]
  cases tx <;> rfl

-- ---------------------------------------------------------------------------
-- From a transaction to its bytes
-- ---------------------------------------------------------------------------

/-- `hdr.version`. -/
def txVersion : Tx (Bytes 32) → UInt8
  | .normal t => t.version
  | .fromGateway t => t.version
  | .toGateway t => t.version
  | .claim t => t.version

/-- The type is read back without the fee bit. -/
theorem ofByte?_typeByte (type : TxType) (fee : Bool) :
    TxType.ofByte? (typeByte type fee &&& ~~~0x80) = some type := by
  cases type <;> cases fee <;> decide

theorem LiesAt.head {tx : Tx (Bytes 32)} (h : LiesAt contents 0 (marshalTx tx)) :
    LiesAt contents 0 (marshalTxHead tx) := h.left.left

theorem LiesAt.tail {tx : Tx (Bytes 32)} (h : LiesAt contents 0 (marshalTx tx)) :
    LiesAt contents (fixedLen (txType tx)) (marshalTxTail tx) := by
  have htail := h.right
  rw [List.length_append, marshalTxHead_length, marshalSignature_length] at htail
  cases tx <;> exact htail

/-- The first bytes give the version and the type. -/
theorem LiesAt.txHdr {tx : Tx (Bytes 32)} (h : LiesAt contents 0 (marshalTx tx)) :
    Pettycoin.byteAt contents 0 = txVersion tx ∧
      Pettycoin.byteAt contents 1 = typeByte (txType tx) (txPaysFee tx) := by
  have hbyte : ∀ {version byte features : UInt8} {l : List UInt8},
      LiesAt contents 0 ([version, byte, features] ++ l) →
      Pettycoin.byteAt contents 0 = version ∧ Pettycoin.byteAt contents 1 = byte := fun hl =>
    ⟨hl.left.byteAt (i := 0) (by simp), hl.left.byteAt (i := 1) (by simp)⟩
  have hhead := h.head
  cases tx <;> simp only [marshalTxHead, List.append_assoc] at hhead <;> exact hbyte hhead

theorem LiesAt.txTypeAt {tx : Tx (Bytes 32)} (h : LiesAt contents 0 (marshalTx tx)) :
    Pettycoin.txTypeAt contents = some (txType tx) := by
  unfold Pettycoin.txTypeAt
  rw [h.txHdr.2]
  exact ofByte?_typeByte _ _

/-- The fields of a `struct protocol_tx_normal`. -/
theorem LiesAt.normal {t : TxNormal (Bytes 32)} (h : LiesAt contents 0 (marshalTx (.normal t))) :
    LiesAt contents 3 t.inputKey.1 ∧ LiesAt contents 36 t.outputAddr.1 ∧
      LiesAt contents 56 (le32 t.sendAmount) ∧ LiesAt contents 60 (le32 t.changeAmount) ∧
      LiesAt contents 64 (le32 (UInt32.ofNat t.inputs.length)) := by
  obtain ⟨h, hnum⟩ := h.head.append
  obtain ⟨h, hchange⟩ := h.append
  obtain ⟨h, hsend⟩ := h.append
  obtain ⟨h, haddr⟩ := h.append
  have hkey := h.right
  simp only [List.length_append, List.length_cons, List.length_nil, t.inputKey.2, t.outputAddr.2,
    le32_length] at hnum hchange hsend haddr hkey
  exact ⟨hkey, haddr, hsend, hchange, hnum⟩

/-- The fields of a `struct protocol_tx_from_gateway`. -/
theorem LiesAt.fromGateway {t : TxFromGateway}
    (h : LiesAt contents 0 (marshalTx (.fromGateway t : Tx (Bytes 32)))) :
    LiesAt contents 3 t.gatewayKey.1 ∧
      LiesAt contents 36 (le16 (UInt16.ofNat t.outputs.length)) := by
  have hhead := h.head
  unfold marshalTxHead at hhead
  obtain ⟨h, -⟩ := hhead.append
  obtain ⟨h, hnum⟩ := h.append
  have hkey := h.right
  simp only [List.length_append, List.length_cons, List.length_nil, t.gatewayKey.2] at hnum hkey
  exact ⟨hkey, hnum⟩

/-- The fields of a `struct protocol_tx_to_gateway`. -/
theorem LiesAt.toGateway {t : TxToGateway (Bytes 32)}
    (h : LiesAt contents 0 (marshalTx (.toGateway t))) :
    LiesAt contents 3 t.inputKey.1 ∧ LiesAt contents 56 (le32 t.sendAmount) ∧
      LiesAt contents 60 (le32 t.changeAmount) ∧
      LiesAt contents 64 (le32 (UInt32.ofNat t.inputs.length)) := by
  obtain ⟨h, hnum⟩ := h.head.append
  obtain ⟨h, hchange⟩ := h.append
  obtain ⟨h, hsend⟩ := h.append
  have hkey := h.left.right
  simp only [List.length_append, List.length_cons, List.length_nil, t.inputKey.2,
    t.toGatewayAddr.2, le32_length] at hnum hchange hsend hkey
  exact ⟨hkey, hsend, hchange, hnum⟩

/-- The fields of a `struct protocol_tx_claim`. -/
theorem LiesAt.claim {t : TxClaim (Bytes 32)} (h : LiesAt contents 0 (marshalTx (.claim t))) :
    LiesAt contents 3 t.inputKey.1 ∧ LiesAt contents 36 (le32 t.amount) ∧
      LiesAt contents 40 (marshalInput t.input) := by
  obtain ⟨h, hinput⟩ := h.head.append
  obtain ⟨h, hamount⟩ := h.append
  have hkey := h.right
  simp only [List.length_append, List.length_cons, List.length_nil, t.inputKey.2,
    le32_length] at hinput hamount hkey
  exact ⟨hkey, hamount, hinput⟩

/-- The count of records gives the length. -/
theorem LiesAt.grammarLen {tx : Tx (Bytes 32)} (h : LiesAt contents 0 (marshalTx tx)) :
    Pettycoin.grammarLen contents (txType tx) = (marshalTx tx).length := by
  rw [marshalTx_length]
  cases tx with
  | normal t =>
    show 132 + 36 * (Pettycoin.le32At contents 64).toNat = _
    rw [h.normal.2.2.2.2.le32At, UInt32.toNat_ofNat_of_lt' t.numInputs_lt]
    rfl
  | fromGateway t =>
    show 104 + 24 * (Pettycoin.le16At contents 36).toNat = _
    rw [h.fromGateway.2.le16At, UInt16.toNat_ofNat_of_lt' t.numOutputs_lt]
    rfl
  | toGateway t =>
    show 132 + 36 * (Pettycoin.le32At contents 64).toNat = _
    rw [h.toGateway.2.2.2.le32At, UInt32.toNat_ofNat_of_lt' t.numInputs_lt]
    rfl
  | claim t => rfl

/-- The bytes of a transaction of a known version are of the grammar. -/
theorem inGrammar_marshalTx {tx : Tx (Bytes 32)} (hversion : versionOk (txVersion tx) = true) :
    InGrammar (marshalTx tx) (marshalTx tx).length false (txType tx) := by
  have hlies := LiesAt.self (marshalTx tx)
  refine ⟨?_, hlies.txTypeAt, hlies.grammarLen⟩
  rw [hlies.txHdr.1]
  exact hversion

-- ---------------------------------------------------------------------------
-- From bytes to a transaction
-- ---------------------------------------------------------------------------

/-- The `struct protocol_input` at an offset. -/
def inputAt (mem : List UInt8) (off : Nat) : Input (Bytes 32) where
  input := bytesAt mem off 32
  output := le16At mem (off + 32)
  unused := le16At mem (off + 34)

/-- The `struct protocol_gateway_payment` at an offset. -/
def paymentAt (mem : List UInt8) (off : Nat) : GatewayPayment where
  sendAmount := le32At mem off
  outputAddr := bytesAt mem (off + 4) 20

/-- The `struct protocol_signature` at an offset. -/
def signatureAt (mem : List UInt8) (off : Nat) : Signature where
  r := bytesAt mem off 32
  s := bytesAt mem (off + 32) 32

/-- The inputs that follow a transaction. -/
def inputsAt (mem : List UInt8) : List (Input (Bytes 32)) :=
  (List.range (le32At mem 64).toNat).map fun i => inputAt mem (132 + 36 * i)

/-- The payments that follow a transaction. -/
def paymentsAt (mem : List UInt8) : List GatewayPayment :=
  (List.range (le16At mem 36).toNat).map fun i => paymentAt mem (104 + 24 * i)

/-- The transaction of a type that the bytes are. -/
def txAt (mem : List UInt8) : TxType → Tx (Bytes 32)
  | .normal => .normal
    { version := byteAt mem 0
      paysFee := byteAt mem 1 &&& 0x80 != 0
      features := byteAt mem 2
      inputKey := bytesAt mem 3 33
      outputAddr := bytesAt mem 36 20
      sendAmount := le32At mem 56
      changeAmount := le32At mem 60
      signature := signatureAt mem 68
      inputs := inputsAt mem
      numInputs_lt := by simpa [inputsAt] using (le32At mem 64).toNat_lt }
  | .fromGateway => .fromGateway
    { version := byteAt mem 0
      paysFee := byteAt mem 1 &&& 0x80 != 0
      features := byteAt mem 2
      gatewayKey := bytesAt mem 3 33
      unused := le16At mem 38
      signature := signatureAt mem 40
      outputs := paymentsAt mem
      numOutputs_lt := by simpa [paymentsAt] using (le16At mem 36).toNat_lt }
  | .toGateway => .toGateway
    { version := byteAt mem 0
      paysFee := byteAt mem 1 &&& 0x80 != 0
      features := byteAt mem 2
      inputKey := bytesAt mem 3 33
      toGatewayAddr := bytesAt mem 36 20
      sendAmount := le32At mem 56
      changeAmount := le32At mem 60
      signature := signatureAt mem 68
      inputs := inputsAt mem
      numInputs_lt := by simpa [inputsAt] using (le32At mem 64).toNat_lt }
  | .claim => .claim
    { version := byteAt mem 0
      paysFee := byteAt mem 1 &&& 0x80 != 0
      features := byteAt mem 2
      inputKey := bytesAt mem 3 33
      amount := le32At mem 36
      input := inputAt mem 40
      signature := signatureAt mem 76 }

theorem txType_txAt (mem : List UInt8) (type : TxType) : txType (txAt mem type) = type := by
  cases type <;> rfl

/-- The type byte is its type and its fee bit. -/
theorem typeByte_of_ofByte? {byte : UInt8} {type : TxType}
    (h : TxType.ofByte? (byte &&& ~~~0x80) = some type) :
    typeByte type (byte &&& 0x80 != 0) = byte := by
  have hall : ∀ n < 256, ∀ type : TxType,
      TxType.ofByte? (UInt8.ofNat n &&& ~~~0x80) = some type →
        typeByte type (UInt8.ofNat n &&& 0x80 != 0) = UInt8.ofNat n := by
    intro n hn type
    revert n
    cases type <;> decide +kernel
  have hbyte : UInt8.ofNat byte.toNat = byte := UInt8.ofNat_toNat
  rw [← hbyte] at h ⊢
  exact hall _ byte.toNat_lt type h

theorem liesAt_inputAt (h : off + 36 ≤ mem.length) :
    LiesAt mem off (marshalInput (inputAt mem off)) := by
  refine ((liesAt_bytesAt (n := 32) (by omega)).join ?_).join ?_
  · rw [(bytesAt mem off 32).2]
    exact liesAt_le16At (by omega)
  · rw [List.length_append, (bytesAt mem off 32).2, le16_length]
    exact liesAt_le16At (by omega)

theorem liesAt_paymentAt (h : off + 24 ≤ mem.length) :
    LiesAt mem off (marshalPayment (paymentAt mem off)) :=
  (liesAt_le32At (by omega)).join (liesAt_bytesAt (n := 20) (by rw [le32_length]; omega))

theorem liesAt_signatureAt (h : off + 64 ≤ mem.length) :
    LiesAt mem off (marshalSignature (signatureAt mem off)) := by
  refine (liesAt_bytesAt (n := 32) (by omega)).join ?_
  rw [(bytesAt mem off 32).2]
  exact liesAt_bytesAt (by omega)

theorem liesAt_inputsAt (h : 132 + 36 * (le32At mem 64).toNat ≤ mem.length) :
    LiesAt mem 132 ((inputsAt mem).flatMap marshalInput) := by
  refine liesAt_records marshalInput_length (by omega) _ fun i hi => liesAt_inputAt ?_
  omega

theorem liesAt_paymentsAt (h : 104 + 24 * (le16At mem 36).toNat ≤ mem.length) :
    LiesAt mem 104 ((paymentsAt mem).flatMap marshalPayment) := by
  refine liesAt_records marshalPayment_length (by omega) _ fun i hi => liesAt_paymentAt ?_
  omega

/-- The three bytes that every transaction begins with. -/
theorem liesAt_txHdr {type : TxType} (htype : txTypeAt mem = some type) (h : 3 ≤ mem.length) :
    LiesAt mem 0 [byteAt mem 0, typeByte type (byteAt mem 1 &&& 0x80 != 0), byteAt mem 2] := by
  rw [typeByte_of_ofByte? htype]
  exact liesAt_bytesAt (n := 3) (by omega)

theorem length_inputsAt (mem : List UInt8) :
    UInt32.ofNat (inputsAt mem).length = le32At mem 64 := by
  unfold inputsAt
  rw [List.length_map, List.length_range, UInt32.ofNat_toNat]

theorem length_paymentsAt (mem : List UInt8) :
    UInt16.ofNat (paymentsAt mem).length = le16At mem 36 := by
  unfold paymentsAt
  rw [List.length_map, List.length_range, UInt16.ofNat_toNat]

/-- What comes before the signature of a transaction that spends. -/
theorem liesAt_spend {hdr : List UInt8} (hhdr : LiesAt mem 0 hdr) (hlen : hdr.length = 3)
    (h : 68 ≤ mem.length) :
    LiesAt mem 0 (hdr ++ (bytesAt mem 3 33).1 ++ (bytesAt mem 36 20).1 ++ le32 (le32At mem 56)
      ++ le32 (le32At mem 60) ++ le32 (le32At mem 64)) := by
  have hkey : LiesAt mem 3 (bytesAt mem 3 33).1 := liesAt_bytesAt (by omega)
  have haddr : LiesAt mem 36 (bytesAt mem 36 20).1 := liesAt_bytesAt (by omega)
  refine ((((hhdr.join ?_).join ?_).join ?_).join ?_).join ?_
  all_goals
    simp only [List.length_append, (bytesAt mem 3 33).2, (bytesAt mem 36 20).2, le32_length, hlen]
  · exact hkey
  · exact haddr
  · exact liesAt_le32At (by omega)
  · exact liesAt_le32At (by omega)
  · exact liesAt_le32At (by omega)

/-- The three pieces of a transaction. -/
theorem liesAt_marshalTx_of_parts {tx : Tx (Bytes 32)}
    (hhead : LiesAt mem 0 (marshalTxHead tx))
    (hsignature : LiesAt mem (sigOffset (txType tx)) (marshalSignature (getSignature tx)))
    (htail : LiesAt mem (fixedLen (txType tx)) (marshalTxTail tx)) :
    LiesAt mem 0 (marshalTx tx) := by
  refine (hhead.join ?_).join ?_
  · rw [marshalTxHead_length, Nat.zero_add]
    exact hsignature
  · rw [List.length_append, marshalTxHead_length, marshalSignature_length, Nat.zero_add]
    cases tx <;> exact htail

/-- The transaction that was read lies there. -/
theorem liesAt_txAt {type : TxType} (htype : txTypeAt mem = some type)
    (h : grammarLen mem type ≤ mem.length) : LiesAt mem 0 (marshalTx (txAt mem type)) := by
  have hfixed : fixedLen type ≤ mem.length := (fixedLen_le mem type).trans h
  have hmin : 104 ≤ fixedLen type := by cases type <;> decide
  have hhdr := liesAt_txHdr htype (by omega)
  refine liesAt_marshalTx_of_parts ?_ ?_ ?_
  · cases type with
    | normal =>
      have hspend := liesAt_spend hhdr rfl (Nat.le_trans (by decide) hfixed)
      rw [← length_inputsAt] at hspend
      exact hspend
    | toGateway =>
      have hspend := liesAt_spend hhdr rfl (Nat.le_trans (by decide) hfixed)
      rw [← length_inputsAt] at hspend
      exact hspend
    | fromGateway =>
      have hkey : LiesAt mem 3 (bytesAt mem 3 33).1 := liesAt_bytesAt (by omega)
      show LiesAt mem 0 (_ ++ _ ++ le16 (UInt16.ofNat (paymentsAt mem).length) ++ _)
      rw [length_paymentsAt]
      refine ((hhdr.join hkey).join ?_).join ?_
      all_goals
        simp only [List.length_append, (bytesAt mem 3 33).2, le16_length, List.length_cons,
          List.length_nil]
      · exact liesAt_le16At (by omega)
      · exact liesAt_le16At (by omega)
    | claim =>
      have hkey : LiesAt mem 3 (bytesAt mem 3 33).1 := liesAt_bytesAt (by omega)
      refine ((hhdr.join hkey).join ?_).join ?_
      all_goals
        simp only [List.length_append, (bytesAt mem 3 33).2, le32_length, List.length_cons,
          List.length_nil]
      · exact liesAt_le32At (by omega)
      · exact liesAt_inputAt (by omega)
  · rw [txType_txAt]
    have hsig : sigOffset type + 64 ≤ mem.length := Nat.le_trans (by cases type <;> decide) hfixed
    cases type <;> exact liesAt_signatureAt hsig
  · rw [txType_txAt]
    cases type with
    | normal => exact liesAt_inputsAt h
    | fromGateway => exact liesAt_paymentsAt h
    | toGateway => exact liesAt_inputsAt h
    | claim => exact liesAt_nil h

theorem txVersion_txAt (mem : List UInt8) (type : TxType) :
    txVersion (txAt mem type) = byteAt mem 0 := by
  cases type <;> rfl

/-- **Accepted bytes are a transaction's**, and begin with no other. -/
theorem exists_marshalTx {size : UInt64} {used : Bool} {u : Option UInt64}
    (hsize : mem.length = size.toNat) (h : unmarshalTx size used mem = .ok (.ok u)) :
    ∃ tx : Tx (Bytes 32), versionOk (txVersion tx) = true ∧ LiesAt mem 0 (marshalTx tx) ∧
      readMarshalTxLen mem = .ok (UInt64.ofNat (marshalTx tx).length) ∧
      (used = false → mem = marshalTx tx) := by
  have hparse : parseTx size used mem = .ok u :=
    Except.ok.inj ((unmarshalTx_apply (Nat.le_of_eq hsize.symm)).symm.trans h)
  obtain ⟨type, hgrammar, -⟩ := parseTx_eq_ok_iff.mp hparse
  have hlies := liesAt_txAt hgrammar.knownType (hgrammar.len_le.trans (Nat.le_of_eq hsize.symm))
  have hlen := hlies.grammarLen
  rw [txType_txAt] at hlen
  refine ⟨txAt mem type, ?_, hlies, ?_, ?_⟩
  · rw [txVersion_txAt]
    exact hgrammar.knownVersion
  · rw [← hlen]
    exact hgrammar.readMarshalTxLen (Nat.le_of_eq hsize.symm)
  · rintro rfl
    have hexact : grammarLen mem type = size.toNat := hgrammar.len
    exact hlies.eq (by omega)

/-- The bytes of a transaction are accepted, with their length. -/
theorem unmarshalTx_marshalTx {tx : Tx (Bytes 32)} (hversion : versionOk (txVersion tx) = true)
    {size : UInt64} (hsize : size.toNat = (marshalTx tx).length) :
    unmarshalTx size false (marshalTx tx) = .ok (.ok none) := by
  rw [unmarshalTx_apply (Nat.le_of_eq hsize)]
  refine congrArg Except.ok (parseTx_eq_ok_iff.mpr ⟨txType tx, ?_, rfl⟩)
  rw [hsize]
  exact inGrammar_marshalTx hversion

end Pettycoin
