import Pettycoin.Blockfile
import Pettycoin.Doublespends
import Pettycoin.TxAccess

/-!
# Pettycoin — complaints as packets

The packets of `complain.c`, byte by byte, and `recv_complain.c` on these bytes. Where
`Complain` and `RecvComplain` hand a complaint over as it is, here it is written and read.

`unmarshal_proven_tx` takes the length of the proof off what is left, and leaves `*p` at the
proof: it reads the proof as a transaction. So none of the complaints that begin with a proof
is understood; the one that `recv_complain_tx_invalid` reads by itself is, if the transaction
has no refs and the length of it, which `complain_bad_tx` does not fill in, happens to be
there (`complaint_understood_iff`).

* `Complaint.pkt_eq` — the bytes that a complaint is sent as;
* `unmarshalProvenTx_foreign` — a proof taken for a transaction is not understood;
* `recvComplainTxInvalid_iff` — when the handler that reads by itself gets through;
* `complaint_understood_iff` — which complaints are understood.
-/

namespace Pettycoin

open BoundedRead ExceptRules

-- ---------------------------------------------------------------------------
-- Error codes
-- ---------------------------------------------------------------------------

/-- The numbers of `enum protocol_ecode`. -/
def Ecode.code : Ecode → UInt32
  | .none => 0
  | .unknownCommand => 1
  | .invalidLen => 2
  | .unknownErrcode => 4
  | .highVersion => 5
  | .noInterest => 7
  | .wrongGenesis => 8
  | .badShardOrder => 9
  | .unknownBlock => 12
  | .badShardnum => 16
  | .blockHighVersion => 17
  | .badTimestamp => 19
  | .badPrevTxhashes => 20
  | .badDifficulty => 21
  | .insufficientWork => 22
  | .badDepth => 23
  | .txHighVersion => 24
  | .txTypeUnknown => 26
  | .txBadGateway => 27
  | .txCrossShards => 28
  | .txTooLarge => 29
  | .txTooSmall => 30
  | .txBadSig => 31
  | .txTooManyInputs => 32
  | .badProof => 33
  | .refBadBlocksAgo => 34
  | .refBadShard => 35
  | .refBadTxoff => 36
  | .badMerkle => 37
  | .complaintInvalid => 38
  | .badInputnum => 39
  | .badInput => 40
  | .badMisorderPos => 41
  | .badDoublespendBlocks => 42
  | .privUnknownPrev => 44

theorem Ecode.code_injective : Function.Injective Ecode.code := by
  intro e e' h
  cases e <;> cases e' <;> first | rfl | exact absurd h (by decide)

-- ---------------------------------------------------------------------------
-- Proofs and refs
-- ---------------------------------------------------------------------------

/-- `sizeof(struct protocol_proof)`. -/
def sizeofProof : Nat := 292

/-- `struct protocol_position`. -/
def marshalPosition (pos : Position (Bytes 32)) : List UInt8 :=
  pos.block.1 ++ (le16 pos.shard ++ [pos.txoff, pos.unused])

/-- `struct protocol_proof`. -/
def marshalProof (proof : Proof (Bytes 32)) : List UInt8 :=
  marshalPosition proof.pos ++ (List.finRange 8).flatMap fun i => (proof.merkle i).1

/-- The proof that the memory begins with. -/
def proofAt (mem : List UInt8) : Proof (Bytes 32) where
  pos :=
    { block := bytesAt mem 0 32, shard := le16At mem 32, txoff := byteAt mem 34
      unused := byteAt mem 35 }
  merkle i := bytesAt mem (36 + 32 * i.val) 32

/-- The refs that the memory begins with. -/
def refsAt (mem : List UInt8) (num : Nat) : List InputRef :=
  (List.range num).map fun i =>
    { blocksAgo := le32At mem (8 * i), shard := le16At mem (8 * i + 4)
      txoff := byteAt mem (8 * i + 6), unused := byteAt mem (8 * i + 7) }

/-- A cast of the pointer to `struct protocol_tx_with_proof`. -/
def readProof : Read UInt8 (Proof (Bytes 32)) := do
  let mem ← read 0 sizeofProof
  return proofAt mem

/-- A cast of the pointer to `union protocol_tx`, of what `unmarshal_tx` has accepted. -/
def readTx : Read UInt8 (Tx (Bytes 32)) := do
  let type ← readTxType
  let mem ← readTxBytes
  match type with
  | some type => return txAt mem type
  | none => abort

/-- A cast of the pointer to `struct protocol_input_ref`. -/
def readRefs (num : Nat) : Read UInt8 (List InputRef) := do
  let mem ← read 0 (8 * num)
  return refsAt mem num

-- ---------------------------------------------------------------------------
-- complain.c
-- ---------------------------------------------------------------------------

/-- `tal_packet_()`, with what is put into the fields behind the header. -/
def talPacket (type : UInt32) (fields : List UInt8) : List UInt8 :=
  le32 (UInt32.ofNat (sizeofNetHdr + fields.length)) ++ (le32 type ++ fields)

/-- `tal_packet_append_proven_tx_()`. -/
def talPacketAppendProvenTx (pkt : List UInt8) (t : ProvenTx (Bytes 32)) : List UInt8 :=
  talPacketAppend (talPacketAppend (talPacketAppend pkt (marshalProof t.proof)) (marshalTx t.tx))
    (marshalRefs t.refs)

/-- `PROTOCOL_PKT_COMPLAIN_*`. -/
def Complaint.type : Complaint (Bytes 32) → UInt32
  | .txMisorder .. => 24
  | .txInvalid .. => 25
  | .txMalformed .. => 25
  | .txBadInput .. => 26
  | .doublespend .. => 27
  | .badInputRef .. => 28
  | .txBadAmount .. => 29
  | .claimInputInvalid .. => 30

/-- The fields behind the header. `complain_bad_tx` leaves `txlen` as `tal` gave it. -/
def Complaint.fields (txlen : UInt32) : Complaint (Bytes 32) → List UInt8
  | .txMisorder .. => []
  | .txInvalid error _ => le32 error.code ++ le32 txlen
  | .txMalformed error _ _ => le32 error.code ++ le32 txlen
  | .txBadInput inputnum _ _ => le32 (UInt32.ofNat inputnum)
  | .doublespend input1 input2 _ _ => le32 (UInt32.ofNat input1) ++ le32 (UInt32.ofNat input2)
  | .badInputRef inputnum _ _ => le32 (UInt32.ofNat inputnum)
  | .txBadAmount .. => []
  | .claimInputInvalid .. => []

/-- The packets that `complain_*` build, and `recv_complain_tx_invalid` passes on
(`txMalformed`). -/
def Complaint.pkt (txlen : UInt32) (c : Complaint (Bytes 32)) : List UInt8 :=
  let pkt := talPacket c.type (c.fields txlen)
  match c with
  | .txMisorder tx conflict => talPacketAppendProvenTx (talPacketAppendProvenTx pkt tx) conflict
  | .txInvalid _ tx => talPacketAppendProvenTx pkt tx
  | .txMalformed _ proof tx => talPacketAppend (talPacketAppend pkt (marshalProof proof)) tx
  | .txBadInput _ tx intx => talPacketAppend (talPacketAppendProvenTx pkt tx) (marshalTx intx)
  | .doublespend _ _ tx1 tx2 => talPacketAppendProvenTx (talPacketAppendProvenTx pkt tx1) tx2
  | .badInputRef _ tx intx => talPacketAppendProvenTx (talPacketAppendProvenTx pkt tx) intx
  | .txBadAmount tx intx =>
    intx.foldl (fun pkt intx => talPacketAppend pkt (marshalTx intx))
      (talPacketAppendProvenTx pkt tx)
  | .claimInputInvalid claim reward =>
    talPacketAppendProvenTx (talPacketAppendProvenTx pkt claim) reward

/-- The switch of `complain_bad_tx`, which aborts for any other error. -/
def complainsOf (err : Ecode) (tx : Tx (Bytes 32)) : Bool :=
  match err with
  | .txHighVersion | .txTypeUnknown | .txTooLarge | .txBadSig => true
  | .txBadGateway | .txCrossShards => txType tx == .fromGateway
  | .txTooManyInputs => txType tx == .normal || txType tx == .toGateway
  | _ => false

-- ---------------------------------------------------------------------------
-- recv_complain.c
-- ---------------------------------------------------------------------------

/-- What `unmarshal_proven_tx` sets. -/
structure Unmarshalled where
  t : ProvenTx (Bytes 32)
  /-- The block, once the transaction is found in order and proven. -/
  block : Except Ecode BlockId
  /-- How far `*p` is advanced. -/
  used : Nat
  len : UInt64

/-- `unmarshal_input_refs()`. -/
def unmarshalInputRefs (size : UInt64) (tx : Tx (Bytes 32)) : Except Ecode Nat :=
  let need := 8 * numInputs tx
  if size.toNat < need then .error .invalidLen else .ok need

/-- `unmarshal_proven_tx()`, from `*p` on. -/
def unmarshalProvenTx (C : Crypto (Bytes 32)) (s : State (Bytes 32)) (len : UInt64) :
    Read UInt8 (Except Ecode Unmarshalled) :=
  if len.toNat < sizeofProof then return .error .invalidLen
  else do
    let proof ← readProof
    let len := len - UInt64.ofNat sizeofProof
    -- `*p` is still where the proof is.
    match ← unmarshalTx len true with
    | .error e => return .error e
    | .ok used => do
      let txlen := (used.getD 0).toNat
      let tx ← readTx
      let len := len - UInt64.ofNat txlen
      match unmarshalInputRefs len tx with
      | .error e => return .error e
      | .ok reflen => do
        let refs ← seek txlen (readRefs (numInputs tx))
        let t : ProvenTx (Bytes 32) := ⟨proof, tx, refs⟩
        return .ok ⟨t, provenTxBlock C s t, txlen + reflen, len - UInt64.ofNat reflen⟩

/-- A handler of a packet, as far as a verdict on it. -/
abbrev Handler := Read UInt8 (Res (Verdict (Bytes 32)))

/-- Go on with the next proven transaction, or ask for its block. -/
def withProvenTx (C : Crypto (Bytes 32)) (s : State (Bytes 32)) (off : Nat) (len : UInt64)
    (next : ProvenTx (Bytes 32) → BlockId → Nat → UInt64 → Handler) : Handler := do
  match ← seek off (unmarshalProvenTx C s len) with
  | .error e => return .ok (.refuse e)
  | .ok u =>
    match u.block with
    | .ok b => next u.t b (off + u.used) u.len
    | .error .unknownBlock => return .ok (.askFor u.t.proof.pos.block)
    | .error e => return .ok (.refuse e)

/-- How the handlers begin: a packet of at least `size` bytes, and a proven transaction. -/
def recvProven (C : Crypto (Bytes 32)) (s : State (Bytes 32)) (size : Nat)
    (next : ProvenTx (Bytes 32) → BlockId → Nat → UInt64 → Handler) : Handler := do
  let len := (← readLe32 0).toUInt64
  if len.toNat < size then return .ok (.refuse .invalidLen)
  else withProvenTx C s size (len - UInt64.ofNat size) next

/-- `recv_complain_tx_misorder()`. -/
def recvComplainTxMisorder (E : Env (Bytes 32)) (s : State (Bytes 32)) : Handler :=
  recvProven E.crypto s 8 fun t1 b1 off len => do
    match ← seek off (unmarshalProvenTx E.crypto s len) with
    | .error e => return .ok (.refuse e)
    | .ok u =>
      match u.block with
      | .error e => return .ok (.refuse e)
      | .ok b2 =>
        if u.len ≠ 0 then return .ok (.refuse .invalidLen)
        else return .ok (complainTxMisorderVerdict E t1 u.t (.ok b1) (.ok b2))

/-- "Figure out what's wrong with it." -/
def whatIsWrong (C : Crypto (Bytes 32)) (s : State (Bytes 32)) (b : BlockId) (txlen : Nat) :
    Read UInt8 Ecode := do
  match ← unmarshalTx (UInt64.ofNat txlen) false with
  | .error e => return e
  | .ok _ => do
    let tx ← readTx
    return checkTx C s tx (some b)

/-- `recv_complain_tx_invalid()`. -/
def recvComplainTxInvalid (E : Env (Bytes 32)) (s : State (Bytes 32)) : Handler := do
  let len := (← readLe32 0).toNat
  if len < 16 then return .ok (.refuse .invalidLen)
  else
    let len := len - 16
    if len < sizeofProof then return .ok (.refuse .invalidLen)
    else do
      let proof ← seek 16 readProof
      let len := len - sizeofProof
      let p := 16 + sizeofProof
      match blockFindAny s proof.pos.block with
      | none => return .ok (.askFor proof.pos.block)
      | some b => do
        let txlen := (← readLe32 12).toNat
        if len < txlen then return .ok (.refuse .invalidLen)
        else do
          let len := len - txlen
          let e ← seek p (whatIsWrong E.crypto s b txlen)
          if e = .none then return .ok (.refuse .complaintInvalid)
          -- `reflen` is set to this, and not taken off it.
          else if len ≠ 0 then return .ok (.refuse .invalidLen)
          else do
            let error ← readLe32 8
            if e.code ≠ error then return .ok (.refuse .complaintInvalid)
            else do
              let tx ← read p txlen
              let refs ← read (p + txlen) len
              let h : TxRefHash (Bytes 32) := ⟨E.crypto.doubleSha tx, E.crypto.doubleSha refs⟩
              if !checkProofByhash E.crypto proof (s.blk b) h then
                return .ok (.refuse .badProof)
              else return .ok (.publish b)

/-- `unmarshal_and_check_tx()`: the transaction, and the rest. -/
def unmarshalAndCheckTx (C : Crypto (Bytes 32)) (s : State (Bytes 32)) (off : Nat) (len : UInt64) :
    Read UInt8 (Except Ecode (Tx (Bytes 32) × Nat × UInt64)) := do
  match ← seek off (unmarshalTx len true) with
  | .error e => return .error e
  | .ok used => do
    let tx ← seek off readTx
    match checkTx C s tx none with
    | .none => return .ok (tx, off + (used.getD 0).toNat, len - used.getD 0)
    | e => return .error e

/-- `recv_complain_tx_bad_input()`. -/
def recvComplainTxBadInput (E : Env (Bytes 32)) (s : State (Bytes 32)) : Handler :=
  recvProven E.crypto s 12 fun t b off len => do
    match ← unmarshalAndCheckTx E.crypto s off len with
    | .error e => return .ok (.refuse e)
    | .ok (intx, _, len) =>
      if len ≠ 0 then return .ok (.refuse .invalidLen)
      else do
        let inputnum ← readLe32 8
        return .ok (complainTxBadInputVerdict E s inputnum.toNat t intx (.ok b))

/-- The loop of `unmarshal_and_check_bad_amount`, from input `i` on. -/
def unmarshalInputs (E : Env (Bytes 32)) (s : State (Bytes 32)) (tx : Tx (Bytes 32)) :
    (num i off : Nat) → (len : UInt64) → (total : UInt32) →
      Read UInt8 (Except Ecode (UInt32 × UInt64))
  | 0, _, _, len, total => return .ok (total, len)
  | num + 1, i, off, len, total => do
    match ← unmarshalAndCheckTx E.crypto s off len with
    | .error e => return .error e
    | .ok (intx, off, len) =>
      match verifyProblemInput E tx i intx with
      | .error e => return .error e
      | .ok (.ok, amount) => unmarshalInputs E s tx num (i + 1) off len (total + amount)
      | .ok _ => return .error .badInput

/-- `recv_complain_tx_bad_amount()`. -/
def recvComplainTxBadAmount (E : Env (Bytes 32)) (s : State (Bytes 32)) : Handler :=
  recvProven E.crypto s 8 fun t b off len => do
    if numInputs t.tx = 0 then return .ok (.refuse .badInputnum)
    else
      match ← unmarshalInputs E s t.tx (numInputs t.tx) 0 off len 0 with
      | .error e => return .ok (.refuse e)
      | .ok (total, len) =>
        if len ≠ 0 then return .ok (.refuse .invalidLen)
        else if total = txAmountSent t.tx then return .ok (.refuse .complaintInvalid)
        else return .ok (.publish b)

/-- `recv_complain_doublespend()`. -/
def recvComplainDoublespend (E : Env (Bytes 32)) (s : State (Bytes 32)) : Handler :=
  recvProven E.crypto s 16 fun t1 b1 off len => do
    let input1 ← readLe32 8
    if numInputs t1.tx ≤ input1.toNat then return .ok (.refuse .badInputnum)
    else withProvenTx E.crypto s off len fun t2 b2 _ len => do
      if len ≠ 0 then return .ok (.refuse .invalidLen)
      else do
        let input2 ← readLe32 12
        let input2 := input2.toNat
        return .ok (complainDoublespendVerdict s input1.toNat input2 t1 t2 (.ok b1) (.ok b2))

/-- `recv_complain_bad_input_ref()`. -/
def recvComplainBadInputRef (E : Env (Bytes 32)) (s : State (Bytes 32)) : Handler :=
  recvProven E.crypto s 12 fun t b off len => do
    let inputnum ← readLe32 8
    if numInputs t.tx ≤ inputnum.toNat then return .ok (.refuse .badInputnum)
    else withProvenTx E.crypto s off len fun intx inb _ len =>
      if len ≠ 0 then return .ok (.refuse .invalidLen)
      else
        return .ok (complainBadInputRefVerdict E.crypto s inputnum.toNat t intx (.ok b) (.ok inb))

/-- `recv_complain_claim_input_invalid()`. -/
def recvComplainClaimInputInvalid (E : Env (Bytes 32)) (s : State (Bytes 32)) : Handler :=
  recvProven E.crypto s 8 fun claim claimB off len =>
    withProvenTx E.crypto s off len fun reward rewardB _ len =>
      if len ≠ 0 then return .ok (.refuse .invalidLen)
      else return complainClaimVerdict E.crypto s claim reward (.ok claimB) (.ok rewardB)

/-- The part of `pkt_in` that is about complaints. -/
def recvComplain (E : Env (Bytes 32)) (s : State (Bytes 32)) : Handler := do
  let type ← readLe32 4
  if type = 24 then recvComplainTxMisorder E s
  else if type = 25 then recvComplainTxInvalid E s
  else if type = 26 then recvComplainTxBadInput E s
  else if type = 27 then recvComplainDoublespend E s
  else if type = 28 then recvComplainBadInputRef E s
  else if type = 29 then recvComplainTxBadAmount E s
  else if type = 30 then recvComplainClaimInputInvalid E s
  else return .ok (.refuse .unknownCommand)

-- ---------------------------------------------------------------------------
-- What the packets look like
-- ---------------------------------------------------------------------------

/-- A transaction with its proof and its refs. -/
def marshalProvenTx (t : ProvenTx (Bytes 32)) : List UInt8 :=
  marshalProof t.proof ++ (marshalTx t.tx ++ marshalRefs t.refs)

theorem marshalProvenTx_append (t : ProvenTx (Bytes 32)) (rest : List UInt8) :
    marshalProvenTx t ++ rest
      = marshalProof t.proof ++ (marshalTx t.tx ++ (marshalRefs t.refs ++ rest)) := by
  rw [marshalProvenTx, List.append_assoc, List.append_assoc]

/-- The first proof in the packet. -/
def Complaint.accused : Complaint (Bytes 32) → Proof (Bytes 32)
  | .txMisorder tx _ | .txInvalid _ tx | .txBadInput _ tx _ | .doublespend _ _ tx _
  | .badInputRef _ tx _ | .txBadAmount tx _ | .claimInputInvalid tx _ => tx.proof
  | .txMalformed _ proof _ => proof

/-- The bytes behind the first proof. -/
def Complaint.evidence : Complaint (Bytes 32) → List UInt8
  | .txMisorder tx conflict => marshalTx tx.tx ++ marshalRefs tx.refs ++ marshalProvenTx conflict
  | .txInvalid _ tx => marshalTx tx.tx ++ marshalRefs tx.refs
  | .txMalformed _ _ tx => tx
  | .txBadInput _ tx intx => marshalTx tx.tx ++ marshalRefs tx.refs ++ marshalTx intx
  | .doublespend _ _ tx1 tx2 => marshalTx tx1.tx ++ marshalRefs tx1.refs ++ marshalProvenTx tx2
  | .badInputRef _ tx intx => marshalTx tx.tx ++ marshalRefs tx.refs ++ marshalProvenTx intx
  | .txBadAmount tx intx => marshalTx tx.tx ++ marshalRefs tx.refs ++ intx.flatMap marshalTx
  | .claimInputInvalid claim reward =>
    marshalTx claim.tx ++ marshalRefs claim.refs ++ marshalProvenTx reward

/-- The bytes from the first proof on. -/
def Complaint.proven (c : Complaint (Bytes 32)) : List UInt8 := marshalProof c.accused ++ c.evidence

variable {type : UInt32} {fields body mem rest : List UInt8}

theorem talPacket_length : (talPacket type body).length = 8 + body.length := by
  unfold talPacket
  rw [List.length_append, List.length_append, le32_length, le32_length]
  omega

theorem le32At_talPacket (h : 8 + body.length < 2 ^ 32) :
    (le32At (talPacket type body) 0).toNat = 8 + body.length := by
  have hlies : LiesAt (talPacket type body) 0 (le32 (UInt32.ofNat (sizeofNetHdr + body.length))) :=
    ⟨[], _, rfl, rfl⟩
  rw [hlies.le32At]
  exact UInt32.toNat_ofNat_of_lt' h

/-- Appending to a packet lengthens its body. -/
theorem talPacketAppend_talPacket (h : 8 + (body ++ mem).length < 2 ^ 32) :
    talPacketAppend (talPacket type body) mem = talPacket type (body ++ mem) := by
  rw [List.length_append] at h
  have hbody : 8 + body.length < 2 ^ 32 := by omega
  unfold talPacketAppend
  dsimp only
  rw [le32At_talPacket hbody, ← talPacket_length, List.take_length, talPacket_length]
  unfold talPacket
  rw [List.length_append, ← Nat.add_assoc]
  simp only [sizeofNetHdr, List.append_assoc]
  rfl

theorem talPacketAppendProvenTx_talPacket {t : ProvenTx (Bytes 32)}
    (h : 8 + (body ++ marshalProvenTx t).length < 2 ^ 32) :
    talPacketAppendProvenTx (talPacket type body) t
      = talPacket type (body ++ marshalProvenTx t) := by
  unfold marshalProvenTx at h ⊢
  simp only [List.length_append] at h
  unfold talPacketAppendProvenTx
  rw [talPacketAppend_talPacket (by simp only [List.length_append]; omega),
    talPacketAppend_talPacket (by simp only [List.length_append]; omega),
    talPacketAppend_talPacket (by simp only [List.length_append]; omega)]
  simp only [List.append_assoc]

theorem talPacketAppendTxs_talPacket {txs : List (Tx (Bytes 32))}
    (h : 8 + (body ++ txs.flatMap marshalTx).length < 2 ^ 32) :
    txs.foldl (fun pkt tx => talPacketAppend pkt (marshalTx tx)) (talPacket type body)
      = talPacket type (body ++ txs.flatMap marshalTx) := by
  induction txs generalizing body with
  | nil => rw [List.foldl_nil, List.flatMap_nil, List.append_nil]
  | cons tx txs ih =>
    rw [List.flatMap_cons] at h ⊢
    rw [← List.append_assoc] at h ⊢
    have hone : 8 + (body ++ marshalTx tx).length < 2 ^ 32 := by
      rw [List.length_append] at h
      omega
    rw [List.foldl_cons, talPacketAppend_talPacket hone, ih h]

/-- A complaint is its fields, and then what starts with a proof. -/
theorem Complaint.pkt_eq {c : Complaint (Bytes 32)} {txlen : UInt32}
    (h : 8 + (c.fields txlen ++ c.proven).length < 2 ^ 32) :
    c.pkt txlen = talPacket c.type (c.fields txlen ++ c.proven) := by
  have hone : ∀ {t : ProvenTx (Bytes 32)} {more : List UInt8},
      c.proven = marshalProvenTx t ++ more →
      talPacketAppendProvenTx (talPacket c.type (c.fields txlen)) t
        = talPacket c.type (c.fields txlen ++ marshalProvenTx t) := fun heq => by
    refine talPacketAppendProvenTx_talPacket ?_
    rw [heq] at h
    simp only [List.length_append] at h ⊢
    omega
  have htwo : ∀ {t t' : ProvenTx (Bytes 32)}, c.proven = marshalProvenTx t ++ marshalProvenTx t' →
      talPacketAppendProvenTx (talPacketAppendProvenTx (talPacket c.type (c.fields txlen)) t) t'
        = talPacket c.type (c.fields txlen ++ c.proven) := fun heq => by
    rw [hone heq, heq, ← List.append_assoc]
    refine talPacketAppendProvenTx_talPacket ?_
    rwa [List.append_assoc, ← heq]
  have hproven : c.proven = marshalProof c.accused ++ c.evidence := rfl
  cases c <;> simp only [Complaint.accused, Complaint.evidence, List.append_assoc] at hproven
  case txInvalid error tx => exact hone (hproven.trans (List.append_nil _).symm)
  case txMalformed error proof tx =>
    simp only [Complaint.pkt]
    rw [talPacketAppend_talPacket, talPacketAppend_talPacket, List.append_assoc, ← hproven]
    · rwa [List.append_assoc, ← hproven]
    · rw [hproven] at h
      simp only [List.length_append] at h ⊢
      omega
  case txBadInput inputnum tx intx =>
    have heq := hproven.trans (marshalProvenTx_append tx (marshalTx intx)).symm
    simp only [Complaint.pkt]
    rw [hone heq, talPacketAppend_talPacket, List.append_assoc, ← heq]
    rwa [List.append_assoc, ← heq]
  case txBadAmount tx intx =>
    have heq := hproven.trans (marshalProvenTx_append tx (intx.flatMap marshalTx)).symm
    simp only [Complaint.pkt]
    rw [hone heq, talPacketAppendTxs_talPacket, List.append_assoc, ← heq]
    rwa [List.append_assoc, ← heq]
  all_goals exact htwo (hproven.trans (marshalProvenTx_append _ _).symm)

theorem readLe32_len :
    readLe32 0 (talPacket type body) = .ok (UInt32.ofNat (8 + body.length)) :=
  LiesAt.readLe32 ⟨[], _, rfl, rfl⟩

theorem lies_talPacket : LiesAt (talPacket type body) 8 body :=
  ⟨le32 (UInt32.ofNat (sizeofNetHdr + body.length)) ++ le32 type, [], by
    rw [List.append_nil, List.append_assoc]
    rfl, rfl⟩

theorem readLe32_type : readLe32 4 (talPacket type body) = .ok type :=
  LiesAt.readLe32 ⟨le32 (UInt32.ofNat (sizeofNetHdr + body.length)), body, rfl, rfl⟩

theorem drop_talPacket : (talPacket type (fields ++ rest)).drop (8 + fields.length) = rest := by
  unfold talPacket
  rw [← List.append_assoc, ← List.append_assoc]
  refine List.drop_left' ?_
  simp only [List.length_append, le32_length]

-- ---------------------------------------------------------------------------
-- Reading back
-- ---------------------------------------------------------------------------

theorem marshalPosition_length (pos : Position (Bytes 32)) : (marshalPosition pos).length = 36 := by
  unfold marshalPosition
  rw [List.length_append, pos.block.2]
  rfl

theorem merkles_length (proof : Proof (Bytes 32)) :
    ((List.finRange 8).flatMap fun i => (proof.merkle i).1).length = 256 := by
  rw [records_length (fun i => (proof.merkle i).2), List.length_finRange]

theorem marshalProof_length (proof : Proof (Bytes 32)) :
    (marshalProof proof).length = sizeofProof := by
  unfold marshalProof
  rw [List.length_append, marshalPosition_length, merkles_length]
  rfl

/-- A proof is read as it was written. -/
theorem LiesAt.proofAt {proof : Proof (Bytes 32)} (h : LiesAt mem 0 (marshalProof proof)) :
    Pettycoin.proofAt mem = proof := by
  have hpos := h.left
  have hblock := hpos.left
  have hrest := hpos.right
  rw [proof.pos.block.2] at hrest
  have hmerkle := h.right
  rw [marshalPosition_length, Nat.zero_add] at hmerkle
  obtain ⟨⟨block, shard, txoff, unused⟩, merkle⟩ := proof
  unfold Pettycoin.proofAt
  have htxoff : LiesAt mem 34 [txoff] := hrest.right.left
  have hunused : LiesAt mem 35 [unused] := LiesAt.right (a := [txoff]) hrest.right
  congr 1
  · congr 1
    · exact Subtype.ext (hblock.bytesAt block.2.symm)
    · exact hrest.left.le16At
    · exact htxoff.byteAt Nat.zero_lt_one
    · exact hunused.byteAt Nat.zero_lt_one
  · funext i
    have hi : i.val < (List.finRange 8).length := by
      rw [List.length_finRange]
      exact i.isLt
    have hone := hmerkle.records (fun i => (merkle i).2) hi
    rw [List.getElem_finRange] at hone
    exact Subtype.ext (hone.bytesAt (merkle _).2.symm)

theorem LiesAt.readProof {proof : Proof (Bytes 32)} (h : LiesAt mem 0 (marshalProof proof)) :
    Pettycoin.readProof mem = .ok proof := by
  unfold Pettycoin.readProof
  rw [bind_apply, h.read (marshalProof_length proof).symm]
  exact congrArg Except.ok (LiesAt.self _).proofAt

/-- A transaction is read as it was written. -/
theorem LiesAt.readTx {tx : Tx (Bytes 32)} (h : LiesAt mem 0 (marshalTx tx)) :
    Pettycoin.readTx mem = .ok tx := by
  have hself := LiesAt.self (marshalTx tx)
  have hlies : LiesAt (marshalTx tx) 0 (marshalTx (txAt (marshalTx tx) (txType tx))) :=
    liesAt_txAt hself.txTypeAt (Nat.le_of_eq hself.grammarLen)
  have heq : txAt (marshalTx tx) (txType tx) = tx := by
    obtain ⟨pre, post, hsplit, hpre⟩ := hlies
    obtain rfl := List.eq_nil_of_length_eq_zero hpre.symm
    rw [List.nil_append] at hsplit
    refine (selfDelimiting_tx (x := []) (y := post) ?_).1.symm
    rw [List.append_nil]
    exact hsplit
  unfold Pettycoin.readTx
  simp only [bind_apply, h.readTxType, h.readTxBytes, ok_bind]
  exact congrArg Except.ok heq

/-- What is accepted with something behind it can be read. -/
theorem exists_readTx {size : UInt64} {used : Option UInt64} (hsize : size.toNat ≤ mem.length)
    (h : unmarshalTx size true mem = .ok (.ok used)) :
    ∃ tx : Tx (Bytes 32), LiesAt mem 0 (marshalTx tx) ∧ readTx mem = .ok tx := by
  have hparse : parseTx size true mem = .ok used :=
    Except.ok.inj ((unmarshalTx_apply hsize).symm.trans h)
  obtain ⟨type, hgrammar, -⟩ := parseTx_eq_ok_iff.mp hparse
  have hlies := liesAt_txAt hgrammar.knownType (hgrammar.len_le.trans hsize)
  exact ⟨_, hlies, hlies.readTx⟩

-- ---------------------------------------------------------------------------
-- Where the proof is taken for a transaction
-- ---------------------------------------------------------------------------

variable {E : Env (Bytes 32)} {C : Crypto (Bytes 32)} {s : State (Bytes 32)} {b : BlockId}

/-- No transaction that these bytes begin with has that proof. They begin with the digest of
the block, and that commits to the transactions in the block. -/
def NoneProven (C : Crypto (Bytes 32)) (s : State (Bytes 32)) (proof : Proof (Bytes 32))
    (mem : List UInt8) : Prop :=
  ∀ (b : BlockId) (tx : Tx (Bytes 32)) (refs : List InputRef),
    blockFindAny s proof.pos.block = some b → marshalTx tx <+: mem →
    checkProof C proof (s.blk b) tx refs = false

theorem LiesAt.begins {mid : List UInt8} (h : LiesAt mem 0 mid) : mid <+: mem := by
  obtain ⟨pre, post, rfl, hpre⟩ := h
  obtain rfl := List.eq_nil_of_length_eq_zero hpre.symm
  exact ⟨post, rfl⟩

/-- A proven transaction is not found in order. -/
theorem unmarshalProvenTx_foreign {proof : Proof (Bytes 32)} {len : UInt64} {u : Unmarshalled}
    (hmem : LiesAt mem 0 (marshalProof proof)) (hnone : NoneProven C s proof mem)
    (hlen : len.toNat ≤ mem.length) (h : unmarshalProvenTx C s len mem = .ok (.ok u)) :
    u.block ≠ .ok b := by
  intro hblock
  unfold unmarshalProvenTx at h
  split_ifs at h with hshort
  · cases h
  have hsub : (len - UInt64.ofNat sizeofProof).toNat ≤ mem.length := by
    have hle : UInt64.ofNat sizeofProof ≤ len :=
      UInt64.le_iff_toNat_le.mpr (Nat.le_of_not_lt hshort)
    rw [UInt64.toNat_sub_of_le _ _ hle]
    exact (Nat.sub_le _ _).trans hlen
  simp only [bind_apply, hmem.readProof, ok_bind, unmarshalTx_apply hsub] at h
  cases hparse : parseTx (len - UInt64.ofNat sizeofProof) true mem with
  | error e =>
    rw [hparse] at h
    cases h
  | ok used =>
    obtain ⟨tx, hlies, hread⟩ :=
      exists_readTx hsub ((unmarshalTx_apply hsub).trans (congrArg Except.ok hparse))
    simp only [hparse, bind_apply, hread, ok_bind] at h
    cases hrefs : unmarshalInputRefs
        (len - UInt64.ofNat sizeofProof - UInt64.ofNat (used.getD 0).toNat) tx with
    | error e =>
      rw [hrefs] at h
      cases h
    | ok reflen =>
      simp only [hrefs, bind_apply, seek_apply] at h
      obtain ⟨refs, -, h⟩ := bind_eq_ok.mp h
      obtain rfl := Except.ok.inj (Except.ok.inj h)
      obtain ⟨hfind, hcheck⟩ := provenTxBlock_ok hblock
      rw [hnone b tx refs hfind hlies.begins] at hcheck
      exact Bool.false_ne_true hcheck

/-- A handler that begins with a proven transaction publishes nothing. -/
theorem recvProven_foreign {proof : Proof (Bytes 32)}
    {next : ProvenTx (Bytes 32) → BlockId → Nat → UInt64 → Handler}
    (hnone : NoneProven C s proof (marshalProof proof ++ rest))
    (hlen : 8 + (fields ++ (marshalProof proof ++ rest)).length < 2 ^ 32) :
    recvProven C s (8 + fields.length) next
        (talPacket type (fields ++ (marshalProof proof ++ rest)))
      ≠ .ok (.ok (.publish b)) := by
  intro h
  unfold recvProven at h
  simp only [bind_apply, readLe32_len, ok_bind] at h
  split_ifs at h with hshort
  · cases h
  unfold withProvenTx at h
  simp only [bind_apply, seek_apply, drop_talPacket] at h
  obtain ⟨r, hr, h⟩ := bind_eq_ok.mp h
  cases r with
  | error e => cases h
  | ok u =>
    have hforeign : ∀ b, u.block ≠ .ok b := fun b => by
      refine unmarshalProvenTx_foreign (LiesAt.left (b := rest) (LiesAt.self _)) hnone ?_ hr
      have hsize : (UInt64.ofNat (8 + fields.length)).toNat = 8 + fields.length := by
        rw [List.length_append] at hlen
        exact UInt64.toNat_ofNat_of_lt' (show _ < 2 ^ 64 by omega)
      rw [UInt64.toNat_sub_of_le, hsize, UInt32.toNat_toUInt64, UInt32.toNat_ofNat_of_lt' hlen]
      · rw [List.length_append]
        omega
      · rw [UInt64.le_iff_toNat_le, hsize]
        exact Nat.le_of_not_lt hshort
    cases hu : u.block with
    | ok b => exact hforeign b hu
    | error e =>
      simp only [hu] at h
      cases e <;> cases h

-- ---------------------------------------------------------------------------
-- The transaction that may be malformed
-- ---------------------------------------------------------------------------

/-- What is found wrong with a transaction, when so many bytes are taken for it. -/
theorem whatIsWrong_apply {tx : Tx (Bytes 32)} (hversion : versionOk (txVersion tx) = true)
    {n : Nat} (hn : n ≤ (marshalTx tx ++ rest).length)
    (hlen : (marshalTx tx ++ rest).length < 2 ^ 64) :
    whatIsWrong C s b n (marshalTx tx ++ rest)
      = .ok (if n = (marshalTx tx).length then checkTx C s tx (some b) else .invalidLen) := by
  have hlies : LiesAt (marshalTx tx ++ rest) 0 (marshalTx tx) :=
    LiesAt.left (b := rest) (LiesAt.self _)
  have hnat : (UInt64.ofNat n).toNat = n := UInt64.toNat_ofNat_of_lt' (Nat.lt_of_le_of_lt hn hlen)
  have happly : unmarshalTx (UInt64.ofNat n) false (marshalTx tx ++ rest)
      = .ok (parseTx (UInt64.ofNat n) false (marshalTx tx ++ rest)) :=
    unmarshalTx_apply (by rw [hnat]; exact hn)
  unfold whatIsWrong
  simp only [bind_apply, happly, ok_bind]
  by_cases hexact : n = (marshalTx tx).length
  · have hparse : parseTx (UInt64.ofNat n) false (marshalTx tx ++ rest) = .ok none := by
      refine parseTx_eq_ok_iff.mpr ⟨txType tx, ⟨?_, hlies.txTypeAt, ?_⟩, rfl⟩
      · rw [hlies.txHdr.1]
        exact hversion
      · rw [if_neg Bool.false_ne_true, hlies.grammarLen, hnat, hexact]
    simp only [hparse, bind_apply, hlies.readTx, ok_bind, if_pos hexact]
    rfl
  · have hparse : parseTx (UInt64.ofNat n) false (marshalTx tx ++ rest) = .error .invalidLen := by
      have hbound : (marshalTx tx).length < 2 ^ 64 := by
        rw [List.length_append] at hlen
        omega
      have hne : UInt64.ofNat n ≠ UInt64.ofNat (marshalTx tx).length := fun h => by
        rw [← UInt64.toNat_inj, hnat, UInt64.toNat_ofNat_of_lt' hbound] at h
        exact hexact h
      unfold parseTx knownTx
      rw [hlies.txHdr.1, hversion, hlies.txTypeAt]
      simp only [hlies.grammarLen, Bool.not_true, Bool.false_eq_true, if_false, hne, ne_eq,
        not_false_eq_true, if_true, ite_self]
    simp only [hparse, if_neg hexact]
    rfl

theorem marshalRefs_length (refs : List InputRef) :
    (marshalRefs refs).length = 8 * refs.length := by
  have hone : ∀ r, (marshalInputRef r).length = 8 := fun _ => rfl
  exact records_length hone refs

/-- The complaint about an invalid transaction is understood with the right length, if there
are no refs. -/
theorem recvComplainTxInvalid_iff {error : Ecode} {txlen : UInt32} {t : ProvenTx (Bytes 32)}
    (hheld : t.Held E.crypto s b) (hversion : versionOk (txVersion t.tx) = true)
    (herror : checkTx E.crypto s t.tx (some b) = error) (hof : complainsOf error t.tx = true)
    (hlen : 8 + (le32 error.code ++ le32 txlen ++ marshalProvenTx t).length < 2 ^ 32) :
    recvComplainTxInvalid E s (talPacket type (le32 error.code ++ le32 txlen ++ marshalProvenTx t))
        = .ok (.ok (.publish b)) ↔
      txlen.toNat = (marshalTx t.tx).length ∧ t.refs = [] := by
  have htotal : 8 + (le32 error.code ++ le32 txlen ++ marshalProvenTx t).length
      = 16 + sizeofProof + (marshalTx t.tx ++ marshalRefs t.refs).length := by
    unfold marshalProvenTx
    simp only [List.length_append, le32_length, marshalProof_length]
    omega
  have hne : error ≠ .none := fun h => by
    rw [h] at hof
    exact Bool.false_ne_true hof
  have hlenne : Ecode.invalidLen.code ≠ error.code := fun h => by
    rw [← Ecode.code_injective h] at hof
    exact Bool.false_ne_true hof
  have hrefs : (marshalRefs t.refs).length = 0 ↔ t.refs = [] := by
    rw [marshalRefs_length, ← List.length_eq_zero_iff]
    omega
  -- Where the parts of the packet are.
  generalize hpkt : talPacket type (le32 error.code ++ le32 txlen ++ marshalProvenTx t) = pkt
  have hpktlen : readLe32 0 pkt = .ok (UInt32.ofNat (16 + sizeofProof +
      (marshalTx t.tx ++ marshalRefs t.refs).length)) := by
    rw [← htotal, ← hpkt]
    exact readLe32_len
  have hbody : LiesAt pkt 8 (le32 error.code ++ le32 txlen ++ marshalProvenTx t) := by
    rw [← hpkt]
    exact lies_talPacket
  have herr : readLe32 8 pkt = .ok error.code := hbody.left.left.readLe32
  have htxlen : readLe32 12 pkt = .ok txlen := hbody.left.right.readLe32
  have hproven : pkt.drop (8 + (le32 error.code ++ le32 txlen).length) = marshalProvenTx t := by
    rw [← hpkt]
    exact drop_talPacket
  rw [List.length_append, le32_length, le32_length] at hproven
  have hdrop : pkt.drop (16 + sizeofProof) = marshalTx t.tx ++ marshalRefs t.refs := by
    rw [← List.drop_drop, hproven]
    exact List.drop_left' (marshalProof_length _)
  have hproof : readProof (pkt.drop 16) = .ok t.proof := by
    rw [hproven]
    exact (LiesAt.left (b := marshalTx t.tx ++ marshalRefs t.refs) (LiesAt.self _)).readProof
  have hlength : pkt.length = 16 + sizeofProof + (marshalTx t.tx ++ marshalRefs t.refs).length := by
    rw [← hpkt, talPacket_length, htotal]
  rw [htotal] at hlen
  unfold recvComplainTxInvalid
  simp only [bind_apply, hpktlen, ok_bind, UInt32.toNat_ofNat_of_lt' hlen]
  rw [if_neg (by omega), if_neg (by omega)]
  simp only [bind_apply, seek_apply, hproof, ok_bind, hheld.1, htxlen]
  have hrest : 16 + sizeofProof + (marshalTx t.tx ++ marshalRefs t.refs).length - 16 - sizeofProof
      = (marshalTx t.tx ++ marshalRefs t.refs).length := by omega
  rw [hrest]
  by_cases hshort : (marshalTx t.tx ++ marshalRefs t.refs).length < txlen.toNat
  · rw [if_pos hshort]
    refine iff_of_false (fun h => by cases h) fun h => ?_
    rw [List.length_append, h.1] at hshort
    omega
  have hwhat : whatIsWrong E.crypto s b txlen.toNat (pkt.drop (16 + sizeofProof))
      = .ok (if txlen.toNat = (marshalTx t.tx).length then error else .invalidLen) := by
    rw [hdrop, whatIsWrong_apply hversion (by omega) (by omega), herror]
  rw [if_neg hshort]
  simp only [bind_apply, seek_apply, hwhat, ok_bind]
  by_cases hexact : txlen.toNat = (marshalTx t.tx).length
  · rw [if_pos hexact, if_neg hne, hexact, List.length_append, Nat.add_sub_cancel_left]
    by_cases hnil : (marshalRefs t.refs).length = 0
    · have hempty : t.refs = [] := hrefs.mp hnil
      refine iff_of_true ?_ ⟨rfl, hempty⟩
      have htx : LiesAt pkt (16 + sizeofProof) (marshalTx t.tx) := by
        have hlies := hbody.right.right
        rw [List.length_append, le32_length, le32_length, marshalProof_length] at hlies
        exact hlies.left
      have hempties : read (16 + sizeofProof + (marshalTx t.tx).length) 0 pkt = .ok [] := by
        rw [read_of_le (by rw [hlength, List.length_append]; omega), List.take_zero]
      have hcheck : checkProofByhash E.crypto t.proof (s.blk b)
          ⟨E.crypto.doubleSha (marshalTx t.tx), E.crypto.doubleSha []⟩ = true := by
        have hcheck := hheld.2
        rw [hempty] at hcheck
        exact hcheck
      rw [if_neg (not_not.mpr hnil), hnil]
      simp only [bind_apply, herr, htx.read rfl, hempties, ok_bind, ne_eq, not_true_eq_false,
        if_false, hcheck, Bool.not_true, Bool.false_eq_true]
      rfl
    · rw [if_pos hnil]
      exact iff_of_false (fun h => by cases h) fun h => hnil (hrefs.mpr h.2)
  · refine iff_of_false (fun h => ?_) fun h => hexact h.1
    rw [if_neg hexact, if_neg (by decide)] at h
    split_ifs at h with hleft
    · cases h
    · simp only [bind_apply, herr, ok_bind, if_pos hlenne] at h
      cases h

-- ---------------------------------------------------------------------------
-- Real complaints
-- ---------------------------------------------------------------------------

/-- What the complaint says is so, and block `b` is invalid for it. A transaction has passed
`unmarshal_tx` when it came to the node. -/
def Complaint.Real (E : Env (Bytes 32)) (s : State (Bytes 32)) (b : BlockId) :
    Complaint (Bytes 32) → Prop
  | .txMisorder tx conflict =>
    tx.Held E.crypto s b ∧ conflict.Held E.crypto s b ∧
      tx.proof.pos.shard = conflict.proof.pos.shard ∧
      (tx.proof.pos.txoff < conflict.proof.pos.txoff ∧
          txCmp E.crypto E.past tx.tx conflict.tx ≠ .lt ∨
        conflict.proof.pos.txoff < tx.proof.pos.txoff ∧
          txCmp E.crypto E.past tx.tx conflict.tx ≠ .gt)
  | .txInvalid error tx =>
    tx.Held E.crypto s b ∧ versionOk (txVersion tx.tx) = true ∧
      checkTx E.crypto s tx.tx (some b) = error ∧ complainsOf error tx.tx = true
  | .txMalformed .. => False
  | .txBadInput inputnum tx intx =>
    tx.Held E.crypto s b ∧ ∃ inp addr, txInput tx.tx inputnum = some inp ∧
      getTxInputAddress E.crypto tx.tx = some addr ∧ inp.input = hashTx E.crypto intx ∧
      checkSimpleInput E inp intx addr = none
  | .txBadAmount tx intx =>
    tx.Held E.crypto s b ∧ ∃ total, SuppliedTotal E tx.tx intx total ∧
      correctAmount tx.tx total = false
  | .doublespend input1 input2 tx1 tx2 =>
    ∃ b1, tx1.Held E.crypto s b1 ∧ tx2.Held E.crypto s b ∧ blockPreceeds s b1 b = true ∧
      SameSpend tx1.tx tx2.tx input1 input2
  | .badInputRef inputnum tx intx =>
    ∃ inb ref inp, tx.Held E.crypto s b ∧ intx.Held E.crypto s inb ∧
      tx.refs[inputnum]? = some ref ∧ txInput tx.tx inputnum = some inp ∧
      blockAncestor s b ref.blocksAgo.toNat = some inb ∧ intx.proof.pos.shard = ref.shard ∧
      intx.proof.pos.txoff = ref.txoff ∧ inp.input ≠ hashTx E.crypto intx.tx
  | .claimInputInvalid claim reward =>
    ∃ rewardB, claim.Held E.crypto s b ∧ reward.Held E.crypto s rewardB ∧
      complainClaimVerdict E.crypto s claim reward (.ok b) (.ok rewardB) = .ok (.publish b)

/-- The handlers understand the complaint. -/
def Complaint.Understood (E : Env (Bytes 32)) (s : State (Bytes 32)) (b : BlockId) (txlen : UInt32)
    (c : Complaint (Bytes 32)) : Prop :=
  recvComplain E s (c.pkt txlen) = .ok (.ok (.publish b))

/-- It is about a transaction by itself, which has no refs, and the length that nobody filled in
is right. -/
def Complaint.LuckilyPlain (txlen : UInt32) : Complaint (Bytes 32) → Prop
  | .txInvalid _ t => txlen.toNat = (marshalTx t.tx).length ∧ t.refs = []
  | _ => False

/-- What begins with a proven transaction is not understood. -/
theorem Complaint.not_understood {c : Complaint (Bytes 32)} {txlen : UInt32} (htype : c.type ≠ 25)
    (hnone : NoneProven E.crypto s c.accused c.proven)
    (hlen : sizeofNetHdr + (c.fields txlen ++ c.proven).length ≤ protocolMaxPacketLen) :
    ¬ c.Understood E s b txlen := by
  have hbound : 8 + (c.fields txlen ++ c.proven).length < 2 ^ 32 :=
    Nat.lt_of_le_of_lt hlen (by decide)
  unfold Complaint.Understood recvComplain
  rw [Complaint.pkt_eq hbound, bind_apply, readLe32_type, ok_bind]
  have hforeign : ∀ next, recvProven E.crypto s (8 + (c.fields txlen).length) next
      (talPacket c.type (c.fields txlen ++ c.proven)) ≠ .ok (.ok (.publish b)) := fun next =>
    recvProven_foreign hnone hbound
  cases c with
  | txInvalid => exact absurd rfl htype
  | txMalformed => exact absurd rfl htype
  | txMisorder => exact hforeign _
  | txBadInput => exact hforeign _
  | txBadAmount => exact hforeign _
  | doublespend => exact hforeign _
  | badInputRef => exact hforeign _
  | claimInputInvalid => exact hforeign _

-- ---------------------------------------------------------------------------
-- Two blocks
-- ---------------------------------------------------------------------------

theorem length_numBytes (n : Nat) :
    ((List.range 32).map fun i => UInt8.ofNat (n / 256 ^ i % 256)).length = 32 := by
  rw [List.length_map, List.length_range]

/-- A hash of 32 bytes that can be computed here. -/
def mixSha (m : List UInt8) : Bytes 32 :=
  ⟨(List.range 32).map fun i =>
    UInt8.ofNat (m.foldl (fun n byte => (n * 257 + byte.toNat + 1) % (2 ^ 256 - 189)) 5381
      / 256 ^ i % 256), length_numBytes _⟩

def mixEnv : Env (Bytes 32) where
  crypto := ⟨mixSha, idealCrypto.pubkeyToAddr, fun _ _ _ => true⟩
  past := idealEnv.past
  txLayout := Layout.append _
  inputLayout := Layout.append _

def mixGenesis : Block (Bytes 32) :=
  genesisBlock (mixSha []) (Bytes.zero 32) (Bytes.zero 13) ⟨0, 0x20ffffff, 0⟩

theorem singleton_lt : 1 < 2 ^ 16 := by decide

/-- A gateway pays 100 to the first key. -/
def mixPayment : Tx (Bytes 32) :=
  .fromGateway
    { version := 1, paysFee := false, features := 0, gatewayKey := sampleKey 9, unused := 0
      signature := ⟨Bytes.zero 32, Bytes.zero 32⟩
      outputs := [⟨100, idealCrypto.pubkeyToAddr (sampleKey 1)⟩], numOutputs_lt := singleton_lt }

/-- The first key sends 60 to the second. -/
def mixSpend (inputs : List (Input (Bytes 32))) (h : inputs.length < 2 ^ 32) : Tx (Bytes 32) :=
  .normal
    { version := 1, paysFee := false, features := 0, inputKey := sampleKey 1
      outputAddr := idealCrypto.pubkeyToAddr (sampleKey 2), sendAmount := 60
      changeAmount := 40, signature := ⟨Bytes.zero 32, Bytes.zero 32⟩, inputs := inputs
      numInputs_lt := h }

/-- The proof of the only transaction of a block. Its maker may commit to anything: here to
zeros for all the rest. -/
def loneProof (sha : Bytes 32) : Proof (Bytes 32) where
  pos := { block := sha, shard := 0, txoff := 0, unused := 0 }
  merkle _ := Bytes.zero 32

/-- The block on the genesis block that holds the transaction. -/
def loneBlock (tx : Tx (Bytes 32)) (refs : List InputRef) : BlockParts (Bytes 32) where
  hdr := { mixGenesis.hdr with prevBlock := mixGenesis.sha, numPrevTxhashes := 4, depth := 1 }
  shardNums := [1, 0, 0, 0]
  merkles :=
    [proofMerklesTo mixEnv.crypto (hashTxAndRefs mixEnv.crypto tx refs) (loneProof mixGenesis.sha),
      Bytes.zero 32, Bytes.zero 32, Bytes.zero 32]
  prevTxhashes := [0, 0, 0, 0]
  tailer := ⟨10, 0x20ffffff, 0⟩
  shardNums_length := rfl
  merkles_length := rfl
  prevTxhashes_length := rfl

/-- The transaction, and its proof. -/
def loneTx (tx : Tx (Bytes 32)) (refs : List InputRef) : ProvenTx (Bytes 32) :=
  ⟨loneProof (hashBlock mixEnv.crypto (loneBlock tx refs)), tx, refs⟩

/-- A node learns of the block. -/
theorem exists_held (tx : Tx (Bytes 32)) (refs : List InputRef)
    (h : (nodeRun mixEnv (startNode mixGenesis 1000 ⟨false, false⟩)
      [.packet ⟨0, false⟩ (.block (loneBlock tx refs))]).toOption.any (fun s =>
        decide (blockFindAny s (loneTx tx refs).proof.pos.block = some 1) &&
          checkProof mixEnv.crypto (loneTx tx refs).proof (s.blk 1) tx refs) = true) :
    ∃ s : State (Bytes 32), NodeReach mixEnv s ∧ (loneTx tx refs).Held mixEnv.crypto s 1 := by
  obtain ⟨s, hs, hheld⟩ := (Option.any_eq_true _ _).mp h
  rw [Bool.and_eq_true, decide_eq_true_eq] at hheld
  exact ⟨s, NodeReach.run (.start _ _ _ _ _ _) (eq_ok_of_toOption hs), hheld⟩

/-- Bytes that have the type of no transaction. -/
theorem noneProven_of_type {proof : Proof (Bytes 32)} (h : txTypeAt mem = none) :
    NoneProven C s proof mem := by
  rintro b tx refs - ⟨behind, rfl⟩
  rw [(LiesAt.left (b := behind) (LiesAt.self _)).txTypeAt] at h
  cases h

/-- An input that names an output the payment does not have. -/
def strayInput : Tx (Bytes 32) := mixSpend [⟨hashTx mixEnv.crypto mixPayment, 5, 0⟩] (by decide)

/-- The complaint about it. -/
def strayComplaint : Complaint (Bytes 32) :=
  .txBadInput 0 (loneTx strayInput [⟨1, 0, 0, 0⟩]) mixPayment

/-- The complaint about a transaction that spends nothing. -/
def inputlessComplaint : Complaint (Bytes 32) :=
  .txInvalid .txTooManyInputs (loneTx (mixSpend [] (by decide)) [])

-- ---------------------------------------------------------------------------
-- The result
-- ---------------------------------------------------------------------------

/-- **Which complaints are understood**: of those that say what is so, the ones about an
invalid transaction without refs, if its length happens to be there. The proof that the other
handlers take for a transaction is none that proves anything (`NoneProven`), and a packet is no
longer than one may be. -/
theorem complaint_understood_iff {c : Complaint (Bytes 32)} {txlen : UInt32}
    (hreal : c.Real E s b) (hnone : NoneProven E.crypto s c.accused c.proven)
    (hlen : sizeofNetHdr + (c.fields txlen ++ c.proven).length ≤ protocolMaxPacketLen) :
    c.Understood E s b txlen ↔ c.LuckilyPlain txlen := by
  have hother : c.type ≠ 25 → ¬ c.Understood E s b txlen := fun h =>
    Complaint.not_understood h hnone hlen
  cases c with
  | txInvalid error t =>
    obtain ⟨hheld, hversion, herror, hof⟩ := hreal
    have hbound : 8 + _ < 2 ^ 32 := Nat.lt_of_le_of_lt hlen (by decide)
    unfold Complaint.Understood recvComplain
    rw [Complaint.pkt_eq hbound, bind_apply, readLe32_type, ok_bind]
    exact recvComplainTxInvalid_iff hheld hversion herror hof hbound
  | txMalformed => exact hreal.elim
  | txMisorder => exact iff_of_false (hother (by simp [Complaint.type])) id
  | txBadInput => exact iff_of_false (hother (by simp [Complaint.type])) id
  | txBadAmount => exact iff_of_false (hother (by simp [Complaint.type])) id
  | doublespend => exact iff_of_false (hother (by simp [Complaint.type])) id
  | badInputRef => exact iff_of_false (hother (by simp [Complaint.type])) id
  | claimInputInvalid => exact iff_of_false (hother (by simp [Complaint.type])) id

/-- A complaint that is understood. -/
theorem complaint_understood_iff_inputless : ∃ s : State (Bytes 32), NodeReach mixEnv s ∧
    inputlessComplaint.Understood mixEnv s 1 132 := by
  obtain ⟨s, hreach, hheld⟩ := exists_held (mixSpend [] (by decide)) [] (by decide +kernel)
  have hiff : inputlessComplaint.Understood mixEnv s 1 132 ↔ _ :=
    complaint_understood_iff ⟨hheld, rfl, rfl, rfl⟩ (noneProven_of_type (by decide +kernel))
      (by decide +kernel)
  exact ⟨s, hreach, hiff.mpr ⟨rfl, rfl⟩⟩

/-- A real complaint that the handlers refuse: they read the proof as a transaction. -/
theorem complaint_not_understood : ∃ s : State (Bytes 32), NodeReach mixEnv s ∧
    strayComplaint.Real mixEnv s 1 ∧ ¬ strayComplaint.Understood mixEnv s 1 0 := by
  obtain ⟨s, hreach, hheld⟩ := exists_held strayInput [⟨1, 0, 0, 0⟩] (by decide +kernel)
  refine ⟨s, hreach, ⟨hheld, _, _, rfl, rfl, rfl, rfl⟩, ?_⟩
  exact Complaint.not_understood (by decide) (noneProven_of_type (by decide +kernel))
    (by decide +kernel)

end Pettycoin
