import Pettycoin.TxBytes
import Pettycoin.Marshal

/-!
# Pettycoin — what a signature covers

`sighash_tx` of `signature.c`: a transaction is hashed in two pieces, what comes before
the signature and what comes after. The first piece tells where the second begins, so
the hash determines every byte but the signature's (`sighashTx_determines`).

* `LiesAt.readSighashTx` — the bytes that are hashed are those of the transaction;
* `eq_of_pieces_eq` — the two pieces determine what lies outside of the signature;
* `sighashTx_determines` — and so does the hash.
-/

namespace Pettycoin

open BoundedRead

/-- `sizeof(struct protocol_signature)`. -/
def sizeofSignature : Nat := 64

/-- `sighash_tx()` of the transaction that the memory begins with, with `sha` for the
double hash. -/
def readSighashTx {E : Type} (sha : List UInt8 → E) : Read UInt8 E := do
  let len ← readMarshalTxLen
  match ← readTxType with
  | some type => do
    let before := sigOffset type
    let head ← read 0 before
    let tail ← read (before + sizeofSignature)
      (len - UInt64.ofNat (before + sizeofSignature)).toNat
    return sha (head ++ tail)
  | none => abort

variable {E : Type} {sha : List UInt8 → E} {mem : List UInt8} {tx tx' : Tx (Bytes 32)}

/-- The two pieces, of a transaction that lies there. -/
theorem LiesAt.readSighashTx (h : LiesAt mem 0 (marshalTx tx))
    (hlen : readMarshalTxLen mem = .ok (UInt64.ofNat (marshalTx tx).length))
    (hmax : (marshalTx tx).length < 2 ^ 64) :
    Pettycoin.readSighashTx sha mem = .ok (sha (marshalTxHead tx ++ marshalTxTail tx)) := by
  have hle := h.le
  have hfixed : fixedLen (txType tx) = sigOffset (txType tx) + 64 := by
    cases tx <;> rfl
  have htail := h.tail
  have hsub : (UInt64.ofNat (marshalTx tx).length
      - UInt64.ofNat (sigOffset (txType tx) + sizeofSignature)).toNat = recordsLen tx := by
    have hoff : (UInt64.ofNat (sigOffset (txType tx) + sizeofSignature)).toNat
        = sigOffset (txType tx) + 64 := by
      cases tx <;> rfl
    have htotal : (UInt64.ofNat (marshalTx tx).length).toNat = (marshalTx tx).length :=
      UInt64.toNat_ofNat_of_lt' hmax
    have hparts := marshalTx_length tx
    rw [UInt64.toNat_sub_of_le _ _ (by rw [UInt64.le_iff_toNat_le]; omega), hoff, htotal]
    omega
  have hmin : 2 ≤ mem.length := by
    have hpos : 2 ≤ fixedLen (txType tx) := by cases txType tx <;> decide
    have hparts := marshalTx_length tx
    omega
  unfold Pettycoin.readSighashTx
  rw [bind_apply, hlen]
  show (readTxType >>= _) mem = _
  rw [bind_apply, readTxType_apply hmin, h.txTypeAt]
  show (BoundedRead.read 0 _ >>= _) mem = _
  rw [bind_apply, h.head.read (marshalTxHead_length tx).symm]
  show (BoundedRead.read _ _ >>= _) mem = _
  rw [hfixed] at htail
  rw [bind_apply, hsub, show sizeofSignature = 64 from rfl,
    htail.read (marshalTxTail_length tx).symm]
  rfl

/-- It is the hash that the signature is checked against. -/
theorem readSighashTx_marshalTx {C : Crypto (Bytes 32)} (hmax : (marshalTx tx).length < 2 ^ 64)
    (hversion : versionOk (txVersion tx) = true) :
    Pettycoin.readSighashTx C.doubleSha (marshalTx tx) = .ok (sighashTx C tx) := by
  have hlies := LiesAt.self (marshalTx tx)
  have hlen := (inGrammar_marshalTx hversion).readMarshalTxLen (Nat.le_refl _)
  rw [hlies.grammarLen] at hlen
  exact hlies.readSighashTx hlen hmax

/-- The second byte of a transaction. -/
theorem marshalTxHead_second (tx : Tx (Bytes 32)) (l : List UInt8) :
    (marshalTxHead tx ++ l)[1]? = some (typeByte (txType tx) (txPaysFee tx)) := by
  cases tx <;> rfl

/-- The first piece tells where it ends. -/
theorem eq_of_pieces_eq
    (h : marshalTxHead tx ++ marshalTxTail tx = marshalTxHead tx' ++ marshalTxTail tx') :
    txType tx = txType tx' ∧ marshalTxHead tx = marshalTxHead tx' ∧
      marshalTxTail tx = marshalTxTail tx' := by
  have hbyte : typeByte (txType tx) (txPaysFee tx) = typeByte (txType tx') (txPaysFee tx') := by
    have hsecond := congrArg (·[1]?) h
    rw [marshalTxHead_second, marshalTxHead_second] at hsecond
    exact Option.some.inj hsecond
  have htype := (typeByte_injective hbyte).1
  refine ⟨htype, List.append_inj h ?_⟩
  rw [marshalTxHead_length, marshalTxHead_length, htype]

/-- What lies at the beginning, byte by byte. -/
theorem LiesAt.getElem? {mid : List UInt8} (h : LiesAt mem 0 mid) {i : Nat} (hi : i < mid.length) :
    mem[i]? = mid[i]? := by
  obtain ⟨pre, post, rfl, hpre⟩ := h
  obtain rfl := List.eq_nil_of_length_eq_zero hpre.symm
  rw [List.nil_append, List.getElem?_append_left hi]

/-- Transactions with the same pieces differ in the signature at most. -/
theorem marshalTx_getElem?_eq (hhead : marshalTxHead tx = marshalTxHead tx')
    (htail : marshalTxTail tx = marshalTxTail tx') {i : Nat}
    (hi : i < sigOffset (txType tx) ∨ sigOffset (txType tx) + 64 ≤ i) :
    (marshalTx tx)[i]? = (marshalTx tx')[i]? := by
  have hlen := marshalTxHead_length tx
  have hsig := marshalSignature_length (getSignature tx)
  have hsig' := marshalSignature_length (getSignature tx')
  unfold marshalTx
  rw [← hhead, ← htail]
  rcases hi with hi | hi
  · rw [List.append_assoc, List.append_assoc, List.getElem?_append_left (by omega),
      List.getElem?_append_left (by omega)]
  · rw [List.getElem?_append_right (by rw [List.length_append]; omega),
      List.getElem?_append_right (by rw [List.length_append]; omega), List.length_append,
      List.length_append, hsig, hsig']

/-- **The signed hash determines every byte but the signature's.** Two accepted transactions with
one hash are of one type and of one length, and where the signature lies hangs on the type only. So
whoever changes any other byte, a length or the type among them, changes what is signed. -/
theorem sighashTx_determines (hsha : Function.Injective sha) {size size' : UInt64}
    {used used' : Bool} {u u' : Option UInt64} {a : Bytes size.toNat} {b : Bytes size'.toNat}
    (ha : unmarshalTx size used a.1 = .ok (.ok u)) (hb : unmarshalTx size' used' b.1 = .ok (.ok u'))
    (h : readSighashTx sha a.1 = readSighashTx sha b.1) :
    ∃ (type : TxType) (len : UInt64), txTypeAt a.1 = some type ∧ txTypeAt b.1 = some type ∧
      readMarshalTxLen a.1 = .ok len ∧ readMarshalTxLen b.1 = .ok len ∧
      ∀ i < len.toNat, i < sigOffset type ∨ sigOffset type + 64 ≤ i → a.1[i]? = b.1[i]? := by
  obtain ⟨tx, -, hlies, hlen, -⟩ := exists_marshalTx a.2 ha
  obtain ⟨tx', -, hlies', hlen', -⟩ := exists_marshalTx b.2 hb
  have hmax : (marshalTx tx).length < 2 ^ 64 := by
    have hle := hlies.le
    have hsize := a.2
    have hlt := size.toNat_lt
    omega
  have hmax' : (marshalTx tx').length < 2 ^ 64 := by
    have hle := hlies'.le
    have hsize := b.2
    have hlt := size'.toNat_lt
    omega
  rw [hlies.readSighashTx hlen hmax, hlies'.readSighashTx hlen' hmax'] at h
  obtain ⟨htype, hhead, htail⟩ := eq_of_pieces_eq (hsha (Except.ok.inj h))
  have hsame : (marshalTx tx').length = (marshalTx tx).length := by
    rw [marshalTx_length, marshalTx_length, htype, ← marshalTxTail_length, ← marshalTxTail_length,
      htail]
  refine ⟨txType tx, _, hlies.txTypeAt, htype ▸ hlies'.txTypeAt, hlen, hsame ▸ hlen', ?_⟩
  intro i hi hout
  rw [UInt64.toNat_ofNat_of_lt' hmax] at hi
  rw [hlies.getElem? hi, hlies'.getElem? (hsame ▸ hi)]
  exact marshalTx_getElem?_eq hhead htail hout

/-- The same claim with another signature. -/
def signedClaim : List UInt8 := 1 :: 3 :: List.replicate 137 0 ++ [1]

theorem sighashTx_determines_claim :
    ∃ (type : TxType) (len : UInt64), txTypeAt zeroClaim = some type ∧
      txTypeAt signedClaim = some type ∧ readMarshalTxLen zeroClaim = .ok len ∧
      readMarshalTxLen signedClaim = .ok len ∧
      ∀ i < len.toNat, i < sigOffset type ∨ sigOffset type + 64 ≤ i →
        zeroClaim[i]? = signedClaim[i]? :=
  @sighashTx_determines (List UInt8) id Function.injective_id 140 140 false false none none
    ⟨zeroClaim, by decide +kernel⟩ ⟨signedClaim, by decide +kernel⟩
    (by decide +kernel) (by decide +kernel) (by decide +kernel)

end Pettycoin
