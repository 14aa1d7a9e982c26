import Pettycoin.Layout

/-!
# Pettycoin — the bytes of a transaction, read back

`unmarshal_tx` and `marshal_tx_len` of `marshal.c` and the appending of
`tal_packet.c`, on the bytes themselves. Every length is worked out in `size_t`; none
that is accepted has wrapped (`unmarshalTx_accepts_iff`).

* `unmarshalTx_apply` — what the reader comes to;
* `local_unmarshalTx` — it depends on nothing behind the bytes;
* `InGrammar.parseTx_take` — the bytes of the grammar are enough;
* `unmarshalTx_accepts_iff` — what is accepted, and with which length.
-/

namespace Pettycoin

open BoundedRead

-- ---------------------------------------------------------------------------
-- Sizes
-- ---------------------------------------------------------------------------

/-- `sizeof(struct protocol_tx_hdr)`. -/
def sizeofTxHdr : UInt64 := 3
/-- `sizeof(struct protocol_tx_normal)`. -/
def sizeofTxNormal : UInt64 := 132
/-- `sizeof(struct protocol_tx_from_gateway)`. -/
def sizeofTxFromGateway : UInt64 := 104
/-- `sizeof(struct protocol_tx_to_gateway)`. -/
def sizeofTxToGateway : UInt64 := 132
/-- `sizeof(struct protocol_tx_claim)`. -/
def sizeofTxClaim : UInt64 := 140
/-- `sizeof(struct protocol_input)`. -/
def sizeofInput : UInt64 := 36
/-- `sizeof(struct protocol_gateway_payment)`. -/
def sizeofGatewayPayment : UInt64 := 24
-- ---------------------------------------------------------------------------
-- tx.h
-- ---------------------------------------------------------------------------

/-- The constants of `enum protocol_tx_type`. -/
def TxType.ofByte? (byte : UInt8) : Option TxType :=
  if byte = 0 then some .normal
  else if byte = 1 then some .fromGateway
  else if byte = 2 then some .toGateway
  else if byte = 3 then some .claim
  else none

/-- `tx_type()`: `none` is a value that `enum protocol_tx_type` has no name for. -/
def readTxType : Read UInt8 (Option TxType) := do
  let type ← readU8 1
  return TxType.ofByte? (type &&& ~~~0x80)

/-- `num_inputs` of `struct protocol_tx_normal` and `struct protocol_tx_to_gateway`. -/
def readNumInputsField : Read UInt8 UInt32 := readLe32 64

/-- `num_outputs` of `struct protocol_tx_from_gateway`. -/
def readNumOutputsField : Read UInt8 UInt16 := readLe16 36

/-- `num_inputs()`. -/
def readNumInputs : Read UInt8 UInt32 := do
  match ← readTxType with
  | some .normal => readNumInputsField
  | some .fromGateway => return 0
  | some .toGateway => readNumInputsField
  | some .claim => return 1
  | none => abort

-- ---------------------------------------------------------------------------
-- marshal.c
-- ---------------------------------------------------------------------------

/-- The length of a structure with `num` records after it, or an overflow. -/
def lenWithRecords (base fieldsize num : UInt64) : Except Ecode UInt64 :=
  if mulOverflows fieldsize num then .error .invalidLen
  else
    let i := fieldsize * num
    if addOverflows base i then .error .invalidLen
    else .ok (base + i)

/-- `unmarshal_tx()`, from `known` on: what `*used` is set to, if it is given. -/
def knownTx (size : UInt64) (used : Bool) (len : UInt64) : Except Ecode (Option UInt64) :=
  if size < len then .error .invalidLen
  else if used then .ok (some len)
  else if size ≠ len then .error .invalidLen
  else .ok none

/-- `unmarshal_tx()` of the bytes from `buffer` on, with or without `used`. -/
def unmarshalTx (size : UInt64) (used : Bool) : Read UInt8 (Except Ecode (Option UInt64)) :=
  if size < sizeofTxHdr then return .error .invalidLen
  else do
    let version ← readU8 0
    if !versionOk version then return .error .txHighVersion
    else
      match ← readTxType with
      | some .normal =>
        if size < sizeofTxNormal then return .error .invalidLen
        else do
          let num ← readNumInputsField
          return lenWithRecords sizeofTxNormal sizeofInput num.toUInt64 >>= knownTx size used
      | some .fromGateway =>
        if size < sizeofTxFromGateway then return .error .invalidLen
        else do
          let num ← readNumOutputsField
          return lenWithRecords sizeofTxFromGateway sizeofGatewayPayment num.toUInt64
            >>= knownTx size used
      | some .toGateway =>
        if size < sizeofTxToGateway then return .error .invalidLen
        else do
          let num ← readNumInputsField
          return lenWithRecords sizeofTxToGateway sizeofInput num.toUInt64 >>= knownTx size used
      | some .claim => return knownTx size used sizeofTxClaim
      | none => return .error .txTypeUnknown

/-- `varsize_()`: zero is an overflow. Its `base` is the size of a structure. -/
def varsize (base num fieldsize : UInt64) : UInt64 :=
  if mulOverflows fieldsize num then 0
  else if addOverflows base (fieldsize * num) then 0
  else base + fieldsize * num

/-- `marshal_tx_len()`. -/
def readMarshalTxLen : Read UInt8 UInt64 := do
  match ← readTxType with
  | some .normal => do
    let num ← readNumInputsField
    return varsize sizeofTxNormal num.toUInt64 sizeofInput
  | some .fromGateway => do
    let num ← readNumOutputsField
    return varsize sizeofTxFromGateway num.toUInt64 sizeofGatewayPayment
  | some .toGateway => do
    let num ← readNumInputsField
    return varsize sizeofTxToGateway num.toUInt64 sizeofInput
  | some .claim => return sizeofTxClaim
  | none => abort

-- ---------------------------------------------------------------------------
-- tal_packet.c
-- ---------------------------------------------------------------------------

/-- `tal_packet_append_()`. The packet is as long as it says. -/
def talPacketAppend (pkt mem : List UInt8) : List UInt8 :=
  let origLen := le32At pkt 0
  le32 (UInt32.ofNat (origLen.toNat + mem.length)) ++ (pkt.take origLen.toNat).drop 4 ++ mem

/-- `tal_packet_append_tx_()` of the transaction that the memory begins with. -/
def talPacketAppendTx (pkt : List UInt8) : Read UInt8 (List UInt8) := do
  let len ← readMarshalTxLen
  let mem ← read 0 len.toNat
  return talPacketAppend pkt mem

-- ---------------------------------------------------------------------------
-- The lengths, as numbers
-- ---------------------------------------------------------------------------

/-- The length of a transaction of a type: a header, and records of a size. -/
def grammarLen (mem : List UInt8) : TxType → Nat
  | .normal => 132 + 36 * (le32At mem 64).toNat
  | .fromGateway => 104 + 24 * (le16At mem 36).toNat
  | .toGateway => 132 + 36 * (le32At mem 64).toNat
  | .claim => 140

/-- Products and sums of the sizes that come up do not overflow. -/
theorem lenWithRecords_eq {base fieldsize num : UInt64} (hbase : base.toNat < 2 ^ 10)
    (hfield : fieldsize.toNat < 2 ^ 10) (hnum : num.toNat < 2 ^ 32) :
    lenWithRecords base fieldsize num = .ok (base + fieldsize * num) ∧
      varsize base num fieldsize = base + fieldsize * num ∧
      (base + fieldsize * num).toNat = base.toNat + fieldsize.toNat * num.toNat := by
  have hprod : fieldsize.toNat * num.toNat < 2 ^ 42 :=
    calc fieldsize.toNat * num.toNat ≤ 2 ^ 10 * num.toNat :=
          Nat.mul_le_mul_right _ (Nat.le_of_lt hfield)
      _ < 2 ^ 42 := by omega
  have hmul : (fieldsize * num).toNat = fieldsize.toNat * num.toNat := by
    rw [UInt64.toNat_mul, Nat.mod_eq_of_lt (by omega)]
  have hadd : (base + fieldsize * num).toNat = base.toNat + fieldsize.toNat * num.toNat := by
    rw [UInt64.toNat_add, hmul, Nat.mod_eq_of_lt (by omega)]
  have hmulOk : ¬ mulOverflows fieldsize num = true := by
    unfold mulOverflows
    rw [Bool.and_eq_true, bne_iff_ne, bne_iff_ne, not_and, not_not]
    intro hne
    have hpos : 0 < num.toNat := Nat.pos_of_ne_zero fun h => hne (UInt64.toNat_inj.mp h)
    rw [← UInt64.toNat_inj, UInt64.toNat_div, hmul, Nat.mul_div_cancel _ hpos]
  have haddOk : ¬ addOverflows base (fieldsize * num) = true := by
    unfold addOverflows
    rw [decide_eq_true_eq, UInt64.lt_iff_toNat_lt, hadd, hmul]
    omega
  refine ⟨?_, ?_, hadd⟩
  · unfold lenWithRecords
    rw [if_neg hmulOk]
    exact if_neg haddOk
  · unfold varsize
    rw [if_neg hmulOk, if_neg haddOk]

theorem toNat_lt_of_le32 (num : UInt32) : num.toUInt64.toNat < 2 ^ 32 := num.toNat_lt

theorem toNat_lt_of_le16 (num : UInt16) : num.toUInt64.toNat < 2 ^ 32 := by
  have h := num.toNat_lt
  rw [UInt16.toNat_toUInt64]
  omega

/-- A structure with records after it, as long as the grammar says. -/
theorem ofNat_eq_of_toNat {len : UInt64} {n : Nat} (h : len.toNat = n) : len = UInt64.ofNat n := by
  rw [← h, UInt64.ofNat_toNat]

variable {mem buffer : List UInt8} {size : UInt64} {used : Bool}

theorem lenWithRecords_le32 {base : UInt64} (hbase : base.toNat < 2 ^ 10) (num : UInt32) :
    lenWithRecords base sizeofInput num.toUInt64
        = .ok (UInt64.ofNat (base.toNat + 36 * num.toNat)) ∧
      varsize base num.toUInt64 sizeofInput = UInt64.ofNat (base.toNat + 36 * num.toNat) := by
  obtain ⟨hlen, hvar, hnat⟩ := lenWithRecords_eq hbase (by decide : sizeofInput.toNat < 2 ^ 10)
    (toNat_lt_of_le32 num)
  rw [UInt32.toNat_toUInt64] at hnat
  rw [hlen, hvar, ofNat_eq_of_toNat hnat]
  exact ⟨rfl, rfl⟩

theorem lenWithRecords_le16 {base : UInt64} (hbase : base.toNat < 2 ^ 10) (num : UInt16) :
    lenWithRecords base sizeofGatewayPayment num.toUInt64
        = .ok (UInt64.ofNat (base.toNat + 24 * num.toNat)) ∧
      varsize base num.toUInt64 sizeofGatewayPayment
        = UInt64.ofNat (base.toNat + 24 * num.toNat) := by
  obtain ⟨hlen, hvar, hnat⟩ := lenWithRecords_eq hbase
    (by decide : sizeofGatewayPayment.toNat < 2 ^ 10) (toNat_lt_of_le16 num)
  rw [UInt16.toNat_toUInt64] at hnat
  rw [hlen, hvar, ofNat_eq_of_toNat hnat]
  exact ⟨rfl, rfl⟩

-- ---------------------------------------------------------------------------
-- What is worked out
-- ---------------------------------------------------------------------------

/-- The type that the bytes of a transaction give. -/
def txTypeAt (mem : List UInt8) : Option TxType := TxType.ofByte? (byteAt mem 1 &&& ~~~0x80)

/-- How much of a transaction has to be there before its length is known. -/
def fixedLen : TxType → Nat
  | .normal => 132
  | .fromGateway => 104
  | .toGateway => 132
  | .claim => 140

theorem fixedLen_le (mem : List UInt8) (type : TxType) : fixedLen type ≤ grammarLen mem type := by
  cases type
  case claim => exact Nat.le_refl _
  all_goals exact Nat.le_add_right _ _

theorem grammarLen_lt (mem : List UInt8) (type : TxType) : grammarLen mem type < 2 ^ 38 := by
  have h32 := (le32At mem 64).toNat_lt
  have h16 := (le16At mem 36).toNat_lt
  cases type <;> simp only [grammarLen] <;> omega

theorem toNat_ofNat_grammarLen (mem : List UInt8) (type : TxType) :
    (UInt64.ofNat (grammarLen mem type)).toNat = grammarLen mem type :=
  UInt64.toNat_ofNat_of_lt' (Nat.lt_trans (grammarLen_lt mem type) (by decide))

theorem readTxType_apply (h : 2 ≤ mem.length) : readTxType mem = .ok (txTypeAt mem) := by
  unfold readTxType
  rw [bind_apply, readU8_apply h]
  rfl

/-- The length, once the fixed part is there. -/
theorem readMarshalTxLen_apply {type : TxType} (htype : txTypeAt mem = some type)
    (h : fixedLen type ≤ mem.length) :
    readMarshalTxLen mem = .ok (UInt64.ofNat (grammarLen mem type)) := by
  unfold readMarshalTxLen
  have hmin : 2 ≤ mem.length := Nat.le_trans (by cases type <;> decide) h
  rw [bind_apply, readTxType_apply hmin, htype]
  cases type with
  | normal =>
    show (readNumInputsField >>= _) mem = _
    rw [bind_apply, readNumInputsField, readLe32_apply (Nat.le_trans (by decide) h)]
    exact congrArg Except.ok (@lenWithRecords_le32 sizeofTxNormal (by decide) _).2
  | fromGateway =>
    show (readNumOutputsField >>= _) mem = _
    rw [bind_apply, readNumOutputsField, readLe16_apply (Nat.le_trans (by decide) h)]
    exact congrArg Except.ok (@lenWithRecords_le16 sizeofTxFromGateway (by decide) _).2
  | toGateway =>
    show (readNumInputsField >>= _) mem = _
    rw [bind_apply, readNumInputsField, readLe32_apply (Nat.le_trans (by decide) h)]
    exact congrArg Except.ok (@lenWithRecords_le32 sizeofTxToGateway (by decide) _).2
  | claim => rfl

/-- What `unmarshal_tx` comes to, with lengths that are numbers. -/
def parseTx (size : UInt64) (used : Bool) (mem : List UInt8) : Except Ecode (Option UInt64) :=
  if size.toNat < 3 then .error .invalidLen
  else if !versionOk (byteAt mem 0) then .error .txHighVersion
  else
    match txTypeAt mem with
    | some type =>
      if size.toNat < fixedLen type then .error .invalidLen
      else knownTx size used (UInt64.ofNat (grammarLen mem type))
    | none => .error .txTypeUnknown

/-- `unmarshal_tx` stays within the bytes there are. -/
theorem unmarshalTx_apply (h : size.toNat ≤ mem.length) :
    unmarshalTx size used mem = .ok (parseTx size used mem) := by
  unfold unmarshalTx parseTx
  by_cases hhdr : size < sizeofTxHdr
  · have hhdr' : size.toNat < 3 := UInt64.lt_iff_toNat_lt.mp hhdr
    rw [if_pos hhdr, if_pos hhdr']
    rfl
  have hhdr' : ¬ size.toNat < 3 := fun hlt => hhdr (UInt64.lt_iff_toNat_lt.mpr hlt)
  rw [if_neg hhdr, if_neg hhdr', bind_apply, readU8_apply (by omega)]
  show (if !versionOk (byteAt mem 0) then _ else _ : Read UInt8 _) mem = _
  by_cases hversion : (!versionOk (byteAt mem 0)) = true
  · rw [if_pos hversion, if_pos hversion]
    rfl
  rw [if_neg hversion, if_neg hversion, bind_apply, readTxType_apply (by omega)]
  cases htype : txTypeAt mem with
  | none => rfl
  | some type =>
    cases type with
    | normal =>
      show (if size < sizeofTxNormal then _ else _ : Read UInt8 _) mem
        = .ok (if size < sizeofTxNormal then _ else _)
      by_cases hfixed : size < sizeofTxNormal
      · rw [if_pos hfixed, if_pos hfixed]
        rfl
      have hle : 132 ≤ size.toNat :=
        Nat.le_of_not_lt fun hlt => hfixed (UInt64.lt_iff_toNat_lt.mpr hlt)
      rw [if_neg hfixed, if_neg hfixed, bind_apply, readNumInputsField, readLe32_apply (by omega)]
      show Except.ok (lenWithRecords _ _ _ >>= _) = _
      rw [(lenWithRecords_le32 (by decide) _).1]
      rfl
    | fromGateway =>
      show (if size < sizeofTxFromGateway then _ else _ : Read UInt8 _) mem
        = .ok (if size < sizeofTxFromGateway then _ else _)
      by_cases hfixed : size < sizeofTxFromGateway
      · rw [if_pos hfixed, if_pos hfixed]
        rfl
      have hle : 104 ≤ size.toNat :=
        Nat.le_of_not_lt fun hlt => hfixed (UInt64.lt_iff_toNat_lt.mpr hlt)
      rw [if_neg hfixed, if_neg hfixed, bind_apply, readNumOutputsField, readLe16_apply (by omega)]
      show Except.ok (lenWithRecords _ _ _ >>= _) = _
      rw [(lenWithRecords_le16 (by decide) _).1]
      rfl
    | toGateway =>
      show (if size < sizeofTxToGateway then _ else _ : Read UInt8 _) mem
        = .ok (if size < sizeofTxToGateway then _ else _)
      by_cases hfixed : size < sizeofTxToGateway
      · rw [if_pos hfixed, if_pos hfixed]
        rfl
      have hle : 132 ≤ size.toNat :=
        Nat.le_of_not_lt fun hlt => hfixed (UInt64.lt_iff_toNat_lt.mpr hlt)
      rw [if_neg hfixed, if_neg hfixed, bind_apply, readNumInputsField, readLe32_apply (by omega)]
      show Except.ok (lenWithRecords _ _ _ >>= _) = _
      rw [(lenWithRecords_le32 (by decide) _).1]
      rfl
    | claim =>
      show Except.ok (knownTx size used sizeofTxClaim) = .ok (if size.toNat < 140 then _ else _)
      by_cases hfixed : size.toNat < 140
      · rw [if_pos hfixed]
        unfold knownTx
        rw [if_pos (UInt64.lt_iff_toNat_lt.mpr hfixed)]
      · rw [if_neg hfixed]
        rfl

-- ---------------------------------------------------------------------------
-- What is accepted
-- ---------------------------------------------------------------------------

/-- A transaction that the bytes begin with: of a known version and type, and as long as
the bytes are or, with `used`, no longer. -/
structure InGrammar (mem : List UInt8) (size : Nat) (used : Bool) (type : TxType) : Prop where
  knownVersion : versionOk (byteAt mem 0) = true
  knownType : txTypeAt mem = some type
  len : if used then grammarLen mem type ≤ size else grammarLen mem type = size

theorem InGrammar.len_le {type : TxType} {n : Nat} (h : InGrammar mem n used type) :
    grammarLen mem type ≤ n := by
  have hlen := h.len
  cases used
  · exact Nat.le_of_eq hlen
  · exact hlen

theorem knownTx_eq_ok_iff {len : UInt64} {u : Option UInt64} :
    knownTx size used len = .ok u ↔
      (if used then len.toNat ≤ size.toNat else len.toNat = size.toNat) ∧
        u = if used then some len else none := by
  unfold knownTx
  by_cases hlt : size < len
  · have hlt' := UInt64.lt_iff_toNat_lt.mp hlt
    rw [if_pos hlt]
    refine ⟨fun h => (nomatch h), fun h => ?_⟩
    have hlen := h.1
    cases used
    · exact absurd hlen (by simpa using Nat.ne_of_gt hlt')
    · exact absurd hlen (Nat.not_le_of_lt hlt')
  have hle : len.toNat ≤ size.toNat := Nat.le_of_not_lt fun h => hlt (UInt64.lt_iff_toNat_lt.mpr h)
  rw [if_neg hlt]
  cases used with
  | true =>
    refine ⟨fun h => ⟨hle, (Except.ok.inj h).symm⟩, fun h => ?_⟩
    rw [h.2]
    rfl
  | false =>
    by_cases hne : size ≠ len
    · refine ⟨fun h => ?_, fun h => absurd (UInt64.toNat_inj.mp h.1).symm hne⟩
      rw [if_neg Bool.false_ne_true, if_pos hne] at h
      exact nomatch h
    · rw [if_neg Bool.false_ne_true, if_neg hne]
      have heq : len.toNat = size.toNat := by rw [not_not.mp hne]
      exact ⟨fun h => ⟨heq, (Except.ok.inj h).symm⟩, fun h => by rw [h.2]; rfl⟩

/-- Exactly the transactions of the grammar are accepted. -/
theorem parseTx_eq_ok_iff {u : Option UInt64} : parseTx size used mem = .ok u ↔
    ∃ type, InGrammar mem size.toNat used type ∧
      u = if used then some (UInt64.ofNat (grammarLen mem type)) else none := by
  constructor
  · intro h
    unfold parseTx at h
    obtain ⟨-, h⟩ := ExceptRules.of_guard_eq_ok h
    obtain ⟨hversion, h⟩ := ExceptRules.of_guard_eq_ok h
    rw [Bool.not_eq_true', Bool.not_eq_false] at hversion
    cases htype : txTypeAt mem with
    | none =>
      rw [htype] at h
      exact nomatch h
    | some type =>
      rw [htype] at h
      obtain ⟨-, h⟩ := ExceptRules.of_guard_eq_ok h
      obtain ⟨hlen, hu⟩ := knownTx_eq_ok_iff.mp h
      rw [toNat_ofNat_grammarLen] at hlen
      exact ⟨type, ⟨hversion, htype, hlen⟩, hu⟩
  · rintro ⟨type, hgrammar, hu⟩
    have hfixed : fixedLen type ≤ size.toNat := (fixedLen_le mem type).trans hgrammar.len_le
    have hmin : 104 ≤ fixedLen type := by cases type <;> decide
    unfold parseTx
    rw [if_neg (by omega), hgrammar.knownVersion, if_neg (by decide), hgrammar.knownType]
    show (if size.toNat < fixedLen type then _ else _) = _
    rw [if_neg (Nat.not_lt.mpr hfixed)]
    refine knownTx_eq_ok_iff.mpr ⟨?_, hu⟩
    rw [toNat_ofNat_grammarLen]
    exact hgrammar.len

/-- Only the fixed part decides on the type and the length. -/
theorem InGrammar.congr {type : TxType} {other : List UInt8} {n n' : Nat} {used' : Bool}
    (h : InGrammar mem n used type) (hsame : ∀ i < fixedLen type, byteAt other i = byteAt mem i)
    (hlen : if used' then grammarLen mem type ≤ n' else grammarLen mem type = n') :
    InGrammar other n' used' type ∧ grammarLen other type = grammarLen mem type := by
  have hmin : 104 ≤ fixedLen type := by cases type <;> decide
  have hgrammar : grammarLen other type = grammarLen mem type := by
    cases type with
    | claim => rfl
    | fromGateway =>
      unfold grammarLen le16At
      rw [hsame _ (by decide), hsame _ (by decide)]
    | normal =>
      unfold grammarLen le32At
      rw [hsame _ (by decide), hsame _ (by decide), hsame _ (by decide), hsame _ (by decide)]
    | toGateway =>
      unfold grammarLen le32At
      rw [hsame _ (by decide), hsame _ (by decide), hsame _ (by decide), hsame _ (by decide)]
  refine ⟨⟨?_, ?_, ?_⟩, hgrammar⟩
  · rw [hsame 0 (by omega)]
    exact h.knownVersion
  · rw [← h.knownType]
    unfold txTypeAt
    rw [hsame 1 (by omega)]
  · rw [hgrammar]
    exact hlen

theorem local_readTxType : Local readTxType := (local_readU8 1).bind fun _ => .pure _

theorem local_readMarshalTxLen : Local readMarshalTxLen := by
  refine local_readTxType.bind fun type => ?_
  rcases type with _ | ⟨_ | _ | _ | _⟩
  · exact .abort
  · exact (local_readLe32 64).bind fun _ => .pure _
  · exact (local_readLe16 36).bind fun _ => .pure _
  · exact (local_readLe32 64).bind fun _ => .pure _
  · exact .pure _

/-- What lies behind the bytes makes no difference to `unmarshal_tx`. -/
theorem local_unmarshalTx (size : UInt64) (used : Bool) : Local (unmarshalTx size used) := by
  refine .ite (.pure _) ((local_readU8 0).bind fun version => .ite (.pure _)
    (local_readTxType.bind fun type => ?_))
  rcases type with _ | ⟨_ | _ | _ | _⟩
  · exact .pure _
  · exact .ite (.pure _) ((local_readLe32 64).bind fun _ => .pure _)
  · exact .ite (.pure _) ((local_readLe16 36).bind fun _ => .pure _)
  · exact .ite (.pure _) ((local_readLe32 64).bind fun _ => .pure _)
  · exact .pure _

-- ---------------------------------------------------------------------------
-- Appending
-- ---------------------------------------------------------------------------

/-- Appending leaves what was there, apart from the length, and adds the bytes. -/
theorem drop_talPacketAppend {pkt : List UInt8} (hframed : Framed pkt) (mem : List UInt8) :
    (talPacketAppend pkt mem).drop pkt.length = mem := by
  have hmin : 8 ≤ pkt.length := hframed.min
  unfold talPacketAppend
  dsimp only
  rw [hframed.len, List.take_length]
  refine List.drop_left' ?_
  rw [List.length_append, le32_length, List.length_drop]
  omega

/-- A packet stays one, unless it gets longer than a length can say. -/
theorem Framed.talPacketAppend {pkt : List UInt8} (hframed : Framed pkt) {mem : List UInt8}
    (hlen : pkt.length + mem.length < 2 ^ 32) : Framed (talPacketAppend pkt mem) := by
  have hmin : 8 ≤ pkt.length := hframed.min
  have hlength : (Pettycoin.talPacketAppend pkt mem).length = pkt.length + mem.length := by
    unfold Pettycoin.talPacketAppend
    dsimp only
    rw [hframed.len, List.take_length, List.length_append, List.length_append, le32_length,
      List.length_drop]
    omega
  have hlies : LiesAt (Pettycoin.talPacketAppend pkt mem) 0
      (le32 (UInt32.ofNat ((le32At pkt 0).toNat + mem.length))) :=
    ⟨[], _, List.append_assoc .., rfl⟩
  refine ⟨?_, ?_⟩
  · rw [hlies.le32At, hlength, hframed.len, UInt32.toNat_ofNat_of_lt' hlen]
  · rw [hlength]
    exact Nat.le_trans hframed.min (Nat.le_add_right _ _)

/-- An accepted transaction, with its length. -/
theorem InGrammar.readMarshalTxLen {type : TxType} {n : Nat} (h : InGrammar mem n used type)
    (hn : n ≤ mem.length) :
    Pettycoin.readMarshalTxLen mem = .ok (UInt64.ofNat (grammarLen mem type)) :=
  readMarshalTxLen_apply h.knownType (((fixedLen_le mem type).trans h.len_le).trans hn)

/-- A transaction that is cut out of the bytes it was accepted in is accepted again,
whatever comes behind it. -/
theorem InGrammar.parseTx_take {type : TxType} {n : Nat} (h : InGrammar mem n used type)
    (hn : n ≤ mem.length) (rest : List UInt8)
    (hsize : size.toNat = grammarLen mem type + rest.length) :
    parseTx size true (mem.take (grammarLen mem type) ++ rest)
      = .ok (some (UInt64.ofNat (grammarLen mem type))) := by
  have hle : grammarLen mem type ≤ mem.length := h.len_le.trans hn
  have hsame : ∀ i < fixedLen type,
      byteAt (mem.take (grammarLen mem type) ++ rest) i = byteAt mem i := fun i hi => by
    have hi' : i < grammarLen mem type := Nat.lt_of_lt_of_le hi (fixedLen_le mem type)
    unfold byteAt
    rw [List.getElem?_append_left (by rw [List.length_take]; omega), List.getElem?_take_of_lt hi']
  have hlen : if true then grammarLen mem type ≤ size.toNat
      else grammarLen mem type = size.toNat := by
    rw [if_pos rfl, hsize]
    exact Nat.le_add_right _ _
  obtain ⟨hgrammar, hsamelen⟩ := h.congr hsame hlen
  refine parseTx_eq_ok_iff.mpr ⟨type, hgrammar, ?_⟩
  rw [hsamelen]
  rfl

/-- **`unmarshal_tx` accepts exactly the grammar**, with the length that
`marshal_tx_len` gives and without a look at what lies behind; and it takes back what
`tal_packet_append_tx` appended. -/
theorem unmarshalTx_accepts_iff :
    (∀ (size : UInt64) (used : Bool) (buffer : Bytes size.toNat) (rest : List UInt8),
      ∃ result, unmarshalTx size used buffer.1 = .ok result ∧
        unmarshalTx size used (buffer.1 ++ rest) = .ok result ∧
        ((∃ u, result = .ok u) ↔ ∃ type, InGrammar buffer.1 size.toNat used type) ∧
        ∀ u, result = .ok u → ∃ (type : TxType) (len : UInt64),
          InGrammar buffer.1 size.toNat used type ∧ len.toNat = grammarLen buffer.1 type ∧
          readMarshalTxLen (buffer.1 ++ rest) = .ok len ∧ len ≠ 0 ∧
          u = if used then some len else none) ∧
    ∀ (size : UInt64) (used : Bool) (tx : Bytes size.toNat) (u : Option UInt64)
      (pkt : List UInt8), unmarshalTx size used tx.1 = .ok (.ok u) → Framed pkt →
      ∃ (len : UInt64) (pkt' : List UInt8), readMarshalTxLen tx.1 = .ok len ∧
        talPacketAppendTx pkt tx.1 = .ok pkt' ∧ len.toNat ≤ size.toNat ∧
        pkt'.drop pkt.length = tx.1.take len.toNat ∧
        ∀ (size' : UInt64) (rest : List UInt8), size'.toNat = len.toNat + rest.length →
          unmarshalTx size' true (pkt'.drop pkt.length ++ rest) = .ok (.ok (some len)) := by
  constructor
  · intro size used buffer rest
    have hparse : unmarshalTx size used buffer.1 = .ok (parseTx size used buffer.1) :=
      unmarshalTx_apply (Nat.le_of_eq buffer.2.symm)
    refine ⟨_, hparse, local_unmarshalTx size used hparse, ?_, fun u hu => ?_⟩
    · constructor
      · rintro ⟨u, hu⟩
        obtain ⟨type, hgrammar, -⟩ := parseTx_eq_ok_iff.mp hu
        exact ⟨type, hgrammar⟩
      · rintro ⟨type, hgrammar⟩
        exact ⟨_, parseTx_eq_ok_iff.mpr ⟨type, hgrammar, rfl⟩⟩
    · obtain ⟨type, hgrammar, hu⟩ := parseTx_eq_ok_iff.mp hu
      have hnat := toNat_ofNat_grammarLen buffer.1 type
      have hlen : readMarshalTxLen buffer.1 = .ok (UInt64.ofNat (grammarLen buffer.1 type)) :=
        hgrammar.readMarshalTxLen (Nat.le_of_eq buffer.2.symm)
      refine ⟨type, _, hgrammar, hnat, local_readMarshalTxLen hlen, fun h0 => ?_, hu⟩
      have hpos : 0 < fixedLen type := by cases type <;> decide
      have hle := fixedLen_le buffer.1 type
      rw [← hnat, h0] at hle
      exact absurd hle (Nat.not_le.mpr hpos)
  · intro size used tx u pkt htx hframed
    have hparse : unmarshalTx size used tx.1 = .ok (parseTx size used tx.1) :=
      unmarshalTx_apply (Nat.le_of_eq tx.2.symm)
    obtain ⟨type, hgrammar, -⟩ := parseTx_eq_ok_iff.mp (Except.ok.inj (hparse.symm.trans htx))
    have hnat := toNat_ofNat_grammarLen tx.1 type
    have hle : grammarLen tx.1 type ≤ tx.1.length := by
      rw [tx.2]
      exact hgrammar.len_le
    have hlen : readMarshalTxLen tx.1 = .ok (UInt64.ofNat (grammarLen tx.1 type)) :=
      hgrammar.readMarshalTxLen (Nat.le_of_eq tx.2.symm)
    have happend : talPacketAppendTx pkt tx.1
        = .ok (talPacketAppend pkt (tx.1.take (grammarLen tx.1 type))) := by
      unfold talPacketAppendTx
      rw [bind_apply, hlen]
      show (read 0 _ >>= _) tx.1 = _
      rw [bind_apply, hnat, read_of_le (by omega)]
      rfl
    refine ⟨_, _, hlen, happend, ?_, ?_, ?_⟩
    · rw [hnat]
      exact hgrammar.len_le
    · rw [hnat, drop_talPacketAppend hframed]
    · intro size' rest hsize'
      rw [hnat] at hsize'
      rw [drop_talPacketAppend hframed, unmarshalTx_apply
        (by rw [List.length_append, List.length_take]; omega),
        hgrammar.parseTx_take (Nat.le_of_eq tx.2.symm) rest hsize']

/-- A claim of nothing. -/
def zeroClaim : List UInt8 := 1 :: 3 :: List.replicate 138 0

/-- A gateway makes two payments. -/
def twoOutputs : List UInt8 :=
  [1, 1] ++ List.replicate 34 0 ++ [2, 0, 0, 0] ++ List.replicate 64 0
    ++ ([5, 0, 0, 0] ++ List.replicate 20 7) ++ ([6, 0, 0, 0] ++ List.replicate 20 9)

/-- They are appended to a packet without the three bytes behind them, and taken back. -/
theorem unmarshalTx_accepts_iff_outputs : ∃ pkt',
    talPacketAppendTx [12, 0, 0, 0, 5, 0, 0, 0, 0, 0, 0, 0] (twoOutputs ++ [1, 2, 3]) = .ok pkt' ∧
      pkt'.drop 12 = twoOutputs ∧
      unmarshalTx 152 true (pkt'.drop 12) = .ok (.ok (some 152)) ∧
      unmarshalTx 153 true (pkt'.drop 12 ++ [4]) = .ok (.ok (some 152)) := by
  obtain ⟨len, pkt', hlen, happend, -, hdrop, hback⟩ := unmarshalTx_accepts_iff.2 155 true
    ⟨twoOutputs ++ [1, 2, 3], by decide +kernel⟩ (some 152)
    [12, 0, 0, 0, 5, 0, 0, 0, 0, 0, 0, 0] (by decide +kernel) ⟨by decide, by decide⟩
  have hsaid : readMarshalTxLen (twoOutputs ++ [1, 2, 3]) = .ok 152 := by decide +kernel
  obtain rfl := Except.ok.inj (hlen.symm.trans hsaid)
  have hback₀ := hback 152 [] rfl
  rw [List.append_nil] at hback₀
  exact ⟨pkt', happend, hdrop.trans (by decide +kernel), hback₀, hback 153 [4] rfl⟩

end Pettycoin
