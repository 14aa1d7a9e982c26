import Pettycoin.Tx
import Pettycoin.Lib.SelfDelimiting

/-!
# Pettycoin — the bytes of a transaction

Every record of the protocol has one length, and a transaction says of what
kind it is and how many records follow, so that its bytes determine it
(`marshalTx_injective`).

* `selfDelimiting_tx` — a reader can tell where a transaction ends;
* `marshalTx_injective` — its bytes determine it;
* `hashTx_injective` — and so does its hash.
-/

namespace Pettycoin

open Encoding

variable {D : Type} [Digest D]

-- ---------------------------------------------------------------------------
-- Fields
-- ---------------------------------------------------------------------------

theorem selfDelimiting_bytes (n : Nat) : SelfDelimiting (fun b : Bytes n => b.1) :=
  .of_length n (fun b => b.2) Subtype.val_injective

theorem selfDelimiting_digest : SelfDelimiting (Digest.bytes : D → List UInt8) :=
  fun _ _ _ _ h => Digest.bytes_append_inj h

theorem selfDelimiting_le16 : SelfDelimiting le16 := by
  refine .of_length 2 le16_length fun x y h => ?_
  unfold le16 at h
  simp only [List.cons.injEq, and_true] at h
  have hlow := congrArg UInt8.toNat h.1
  have hhigh := congrArg UInt8.toNat h.2
  rw [← UInt16.toNat_inj]
  simp only [UInt16.toNat_toUInt8, UInt16.toNat_shiftRight, UInt16.reduceToNat,
    Nat.shiftRight_eq_div_pow, show 2 ^ (8 % 16) = 256 from rfl] at hlow hhigh
  have hx := x.toNat_lt
  have hy := y.toNat_lt
  omega

theorem selfDelimiting_le32 : SelfDelimiting le32 := by
  refine .of_length 4 le32_length fun x y h => ?_
  unfold le32 at h
  simp only [List.cons.injEq, and_true] at h
  have h0 := congrArg UInt8.toNat h.1
  have h1 := congrArg UInt8.toNat h.2.1
  have h2 := congrArg UInt8.toNat h.2.2.1
  have h3 := congrArg UInt8.toNat h.2.2.2
  rw [← UInt32.toNat_inj]
  simp only [UInt32.toNat_toUInt8, UInt32.toNat_shiftRight, UInt32.reduceToNat,
    Nat.shiftRight_eq_div_pow, show 2 ^ (8 % 32) = 256 from rfl,
    show 2 ^ (16 % 32) = 65536 from rfl, show 2 ^ (24 % 32) = 16777216 from rfl] at h0 h1 h2 h3
  have hx := x.toNat_lt
  have hy := y.toNat_lt
  omega

theorem selfDelimiting_input : SelfDelimiting (marshalInput : Input D → List UInt8) := by
  rintro ⟨input, output, unused⟩ ⟨input', output', unused'⟩ x y h
  simp only [marshalInput, List.append_assoc] at h
  obtain ⟨hinput, h⟩ := selfDelimiting_digest h
  obtain ⟨houtput, h⟩ := selfDelimiting_le16 h
  obtain ⟨hunused, h⟩ := selfDelimiting_le16 h
  exact ⟨by rw [hinput, houtput, hunused], h⟩

theorem selfDelimiting_payment : SelfDelimiting marshalPayment := by
  rintro ⟨amount, addr⟩ ⟨amount', addr'⟩ x y h
  simp only [marshalPayment, List.append_assoc] at h
  obtain ⟨hamount, h⟩ := selfDelimiting_le32 h
  obtain ⟨haddr, h⟩ := selfDelimiting_bytes 20 h
  exact ⟨by rw [hamount, haddr], h⟩

theorem selfDelimiting_signature : SelfDelimiting marshalSignature := by
  rintro ⟨r, s⟩ ⟨r', s'⟩ x y h
  simp only [marshalSignature, List.append_assoc] at h
  obtain ⟨hr, h⟩ := selfDelimiting_bytes 32 h
  obtain ⟨hs, h⟩ := selfDelimiting_bytes 32 h
  exact ⟨by rw [hr, hs], h⟩

-- ---------------------------------------------------------------------------
-- Transactions
-- ---------------------------------------------------------------------------

/-- The second byte says of what kind a transaction is, and whether it pays. -/
theorem typeByte_injective {type type' : TxType} {fee fee' : Bool}
    (h : typeByte type fee = typeByte type' fee') : type = type' ∧ fee = fee' := by
  revert h
  cases type <;> cases type' <;> cases fee <;> cases fee' <;> decide

/-- A count of records that fits its field. -/
theorem length_eq_of_ofNat32 {α : Type} {l l' : List α} (hl : l.length < 2 ^ 32)
    (hl' : l'.length < 2 ^ 32) (h : UInt32.ofNat l.length = UInt32.ofNat l'.length) :
    l.length = l'.length := by
  have hnat := congrArg UInt32.toNat h
  rwa [UInt32.toNat_ofNat_of_lt' hl, UInt32.toNat_ofNat_of_lt' hl'] at hnat

theorem length_eq_of_ofNat16 {α : Type} {l l' : List α} (hl : l.length < 2 ^ 16)
    (hl' : l'.length < 2 ^ 16) (h : UInt16.ofNat l.length = UInt16.ofNat l'.length) :
    l.length = l'.length := by
  have hnat := congrArg UInt16.toNat h
  rwa [UInt16.toNat_ofNat_of_lt' hl, UInt16.toNat_ofNat_of_lt' hl'] at hnat

/-- The bytes of a transaction determine it, and where it ends. -/
theorem selfDelimiting_tx : SelfDelimiting (marshalTx : Tx D → List UInt8) := by
  intro a b x y h
  cases a <;> cases b <;>
    simp only [marshalTx, marshalTxHead, marshalTxTail, getSignature, List.append_assoc,
      List.cons_append, List.nil_append, List.cons.injEq] at h <;>
    obtain ⟨hversion, hbyte, hfeatures, h⟩ := h <;>
    obtain ⟨htype, hfee⟩ := typeByte_injective hbyte <;>
    clear hbyte <;>
    try exact absurd htype (by decide)
  case normal.normal t t' =>
    obtain ⟨hkey, h⟩ := selfDelimiting_bytes 33 h
    obtain ⟨haddr, h⟩ := selfDelimiting_bytes 20 h
    obtain ⟨hsend, h⟩ := selfDelimiting_le32 h
    obtain ⟨hchange, h⟩ := selfDelimiting_le32 h
    obtain ⟨hnum, h⟩ := selfDelimiting_le32 h
    obtain ⟨hsig, h⟩ := selfDelimiting_signature h
    obtain ⟨hinputs, h⟩ := selfDelimiting_input.flatMap_inj
      (length_eq_of_ofNat32 t.numInputs_lt t'.numInputs_lt hnum) h
    cases t
    cases t'
    simp_all
  case fromGateway.fromGateway t t' =>
    obtain ⟨hkey, h⟩ := selfDelimiting_bytes 33 h
    obtain ⟨hnum, h⟩ := selfDelimiting_le16 h
    obtain ⟨hunused, h⟩ := selfDelimiting_le16 h
    obtain ⟨hsig, h⟩ := selfDelimiting_signature h
    obtain ⟨houtputs, h⟩ := selfDelimiting_payment.flatMap_inj
      (length_eq_of_ofNat16 t.numOutputs_lt t'.numOutputs_lt hnum) h
    cases t
    cases t'
    simp_all
  case toGateway.toGateway t t' =>
    obtain ⟨hkey, h⟩ := selfDelimiting_bytes 33 h
    obtain ⟨haddr, h⟩ := selfDelimiting_bytes 20 h
    obtain ⟨hsend, h⟩ := selfDelimiting_le32 h
    obtain ⟨hchange, h⟩ := selfDelimiting_le32 h
    obtain ⟨hnum, h⟩ := selfDelimiting_le32 h
    obtain ⟨hsig, h⟩ := selfDelimiting_signature h
    obtain ⟨hinputs, h⟩ := selfDelimiting_input.flatMap_inj
      (length_eq_of_ofNat32 t.numInputs_lt t'.numInputs_lt hnum) h
    cases t
    cases t'
    simp_all
  case claim.claim t t' =>
    obtain ⟨hkey, h⟩ := selfDelimiting_bytes 33 h
    obtain ⟨hamount, h⟩ := selfDelimiting_le32 h
    obtain ⟨hinput, h⟩ := selfDelimiting_input h
    obtain ⟨hsig, h⟩ := selfDelimiting_signature h
    cases t
    cases t'
    simp_all

theorem marshalTx_injective : Function.Injective (marshalTx : Tx D → List UInt8) :=
  selfDelimiting_tx.injective

/-- Without collisions the hash determines the transaction. -/
theorem hashTx_injective {C : Crypto D} (hC : Function.Injective C.doubleSha) :
    Function.Injective (hashTx C) :=
  hC.comp marshalTx_injective

end Pettycoin
