import Pettycoin.Layout

/-!
# Pettycoin — block packets, byte by byte

`unmarshal_block` of a packet as `load_block` and `recv_pkt_block` hand it over: with a
length of its own, from the 8 bytes of the packet header up. `recv_pkt_block` has made
sure that the 12 bytes of a block packet's header are there, `load_block` has not
(`block_codec_iff`).

* `unmarshalBlockPkt_apply` — the readers compute what `unmarshalBlock` does, where
  they stay inside;
* `unmarshalBlockPkt_marshalBlock` — a marshalled block is taken apart again;
* `block_codec_iff` — the packets for which the codec is exact;
* `block_codec_not_exact` — a packet that is its own header only.
-/

namespace Pettycoin

open BoundedRead

-- ---------------------------------------------------------------------------
-- marshal.c
-- ---------------------------------------------------------------------------

/-- `unmarshal_block()`: where the parts lie, counted from the header of the block. The
length of the packet's own header is subtracted before anything is compared. -/
def readUnmarshalBlock : Read UInt8 (Except Ecode BlockLayout) := do
  let len ← readLe32 0
  let size := len.toUInt64 - UInt64.ofNat sizeofPktBlock
  if size < sizeofBlockHeader then return .error .invalidLen
  else do
    let version ← readU8 sizeofPktBlock
    if !versionOk version then return .error .blockHighVersion
    else do
      let shardOrder ← readU8 (sizeofPktBlock + 2)
      if shardOrder > protocolMaxShardOrder then return .error .badShardOrder
      else do
        let numPrevTxhashes ← readLe32 (sizeofPktBlock + 48)
        return unmarshalBlockInto size version shardOrder numPrevTxhashes

/-- `unmarshal_block()`, with the fields that the pointers it sets lead to. -/
def unmarshalBlockPkt (pkt : List UInt8) : Except Stop (Except Ecode (BlockParts (Bytes 32))) := do
  let result ← readUnmarshalBlock pkt
  return result.map fun layout => partsAt readSha (pkt.drop sizeofPktBlock) layout

/-- `block_lengths()`, the whole of it. -/
def blockLengths (shardOrder : UInt8) (numPrevTxhashes : UInt32) : UInt64 :=
  let numShards : UInt32 := 1 <<< shardOrder.toUInt32
  let shardnumLen := numShards.toUInt64
  let merkleLen := sizeofDoubleSha * numShards.toUInt64
  let prevMerkleLen := numPrevTxhashes.toUInt64
  sizeofBlockHeader + shardnumLen + merkleLen + prevMerkleLen + sizeofBlockTailer

theorem blockLengths_toNat {shardOrder : UInt8} (h : shardOrder.toNat ≤ 16)
    (numPrevTxhashes : UInt32) : (blockLengths shardOrder numPrevTxhashes).toNat
      = 88 + 33 * 2 ^ shardOrder.toNat + numPrevTxhashes.toNat := by
  have hpow : 2 ^ shardOrder.toNat ≤ 2 ^ 16 := Nat.pow_le_pow_right (by omega) h
  have hnum := numPrevTxhashes.toNat_lt
  have hshards : ((1 : UInt32) <<< shardOrder.toUInt32).toNat = 2 ^ shardOrder.toNat := by
    rw [UInt32.toNat_shiftLeft, UInt8.toNat_toUInt32, Nat.mod_eq_of_lt (by omega : _ < 32),
      Nat.shiftLeft_eq]
    show 1 * _ % 2 ^ 32 = _
    rw [Nat.one_mul, Nat.mod_eq_of_lt (by omega)]
  unfold blockLengths
  simp only [UInt64.toNat_add, UInt64.toNat_mul, UInt32.toNat_toUInt64, hshards,
    show sizeofBlockHeader.toNat = 76 from rfl, show sizeofDoubleSha.toNat = 32 from rfl,
    show sizeofBlockTailer.toNat = 12 from rfl]
  omega

variable {pkt contents : List UInt8} {off : Nat}

-- ---------------------------------------------------------------------------
-- Reading a packet
-- ---------------------------------------------------------------------------

theorem byteAt_drop (contents : List UInt8) (n off : Nat) :
    byteAt (contents.drop n) off = byteAt contents (n + off) := by
  unfold byteAt
  rw [List.getElem?_drop]

theorem le32At_drop (contents : List UInt8) (n off : Nat) :
    le32At (contents.drop n) off = le32At contents (n + off) := by
  unfold le32At
  simp only [byteAt_drop, Nat.add_assoc]

/-- What `unmarshal_block` takes for the length of the block. -/
def sizeSaid (pkt : List UInt8) : UInt64 :=
  (le32At pkt 0).toUInt64 - UInt64.ofNat sizeofPktBlock

/-- The header of a block is read if it is there, or if nothing says that it is. -/
theorem readUnmarshalBlock_eq (h8 : 8 ≤ pkt.length)
    (hhdr : sizeSaid pkt < sizeofBlockHeader ∨ 88 ≤ pkt.length) :
    readUnmarshalBlock pkt = .ok (unmarshalBlockInto (sizeSaid pkt) (byteAt pkt sizeofPktBlock)
      (byteAt pkt (sizeofPktBlock + 2)) (le32At pkt (sizeofPktBlock + 48))) := by
  unfold readUnmarshalBlock
  rw [bind_apply, readLe32_apply (by omega)]
  show (if sizeSaid pkt < sizeofBlockHeader then _ else _ : Read UInt8 _) pkt = _
  unfold unmarshalBlockInto
  by_cases hlt : sizeSaid pkt < sizeofBlockHeader
  · rw [if_pos hlt, if_pos hlt]
    rfl
  have hge : 88 ≤ pkt.length := hhdr.resolve_left hlt
  rw [if_neg hlt, if_neg hlt, bind_apply, readU8_apply (by show 12 + 1 ≤ _; omega)]
  show (if !versionOk (byteAt pkt sizeofPktBlock) then _ else _ : Read UInt8 _) pkt = _
  by_cases hversion : (!versionOk (byteAt pkt sizeofPktBlock)) = true
  · rw [if_pos hversion, if_pos hversion]
    rfl
  rw [if_neg hversion, if_neg hversion, bind_apply,
    readU8_apply (by show 12 + 2 + 1 ≤ _; omega)]
  show (if byteAt pkt (sizeofPktBlock + 2) > protocolMaxShardOrder then _ else _
    : Read UInt8 _) pkt = _
  by_cases horder : byteAt pkt (sizeofPktBlock + 2) > protocolMaxShardOrder
  · rw [if_pos horder, if_pos horder]
    rfl
  rw [if_neg horder, if_neg horder, bind_apply, readLe32_apply (by show 12 + 48 + 4 ≤ _; omega)]
  show Except.ok (unmarshalBlockInto (sizeSaid pkt) (byteAt pkt sizeofPktBlock)
    (byteAt pkt (sizeofPktBlock + 2)) (le32At pkt (sizeofPktBlock + 48))) = _
  unfold unmarshalBlockInto
  rw [if_neg hlt, if_neg hversion, if_neg horder]

/-- With a whole header of its own, what a packet says is the length of its contents. -/
theorem sizeSaid_toNat (hframed : Framed pkt) (h12 : sizeofPktBlock ≤ pkt.length) :
    (sizeSaid pkt).toNat = (pkt.drop sizeofPktBlock).length := by
  have hlen : (le32At pkt 0).toUInt64.toNat = pkt.length := by
    rw [UInt32.toNat_toUInt64, hframed.len]
  unfold sizeSaid
  rw [UInt64.toNat_sub_of_le _ _ (by rw [UInt64.le_iff_toNat_le, hlen]; exact h12), hlen,
    List.length_drop]
  rfl

/-- A packet with a whole header of its own is read within its bounds. -/
theorem readUnmarshalBlock_apply (hframed : Framed pkt) (h12 : sizeofPktBlock ≤ pkt.length) :
    readUnmarshalBlock pkt = .ok (unmarshalBlockInto (sizeSaid pkt) (byteAt pkt sizeofPktBlock)
      (byteAt pkt (sizeofPktBlock + 2)) (le32At pkt (sizeofPktBlock + 48))) := by
  have hnat := sizeSaid_toNat hframed h12
  rw [List.length_drop] at hnat
  refine readUnmarshalBlock_eq hframed.min ?_
  by_cases hlt : sizeSaid pkt < sizeofBlockHeader
  · exact .inl hlt
  · have hge : 76 ≤ (sizeSaid pkt).toNat :=
      Nat.le_of_not_lt fun h => hlt (UInt64.lt_iff_toNat_lt.mpr h)
    have hnat' : (sizeSaid pkt).toNat = pkt.length - 12 := hnat
    right
    omega

/-- A packet without a whole header of its own is read beyond its end: the subtraction
wraps. -/
theorem readUnmarshalBlock_overrun (hframed : Framed pkt) (hshort : pkt.length < sizeofPktBlock) :
    ¬ Within readUnmarshalBlock pkt := by
  have hmin : 8 ≤ pkt.length := hframed.min
  have hshort' : pkt.length < 12 := hshort
  intro hwithin
  obtain ⟨len, hlen, hwithin⟩ := hwithin.of_bind
  rw [readLe32_apply (by omega)] at hlen
  obtain rfl := Except.ok.inj hlen
  have hsize : ¬ (le32At pkt 0).toUInt64 - UInt64.ofNat sizeofPktBlock < sizeofBlockHeader := by
    have hnat : (le32At pkt 0).toUInt64.toNat = pkt.length := by
      rw [UInt32.toNat_toUInt64, hframed.len]
    rw [UInt64.lt_iff_toNat_lt, UInt64.toNat_sub, hnat]
    show ¬ (2 ^ 64 - 12 + pkt.length) % 2 ^ 64 < 76
    omega
  rw [if_neg hsize] at hwithin
  obtain ⟨version, hversion, -⟩ := Within.of_bind hwithin
  obtain ⟨bytes, hread, -⟩ := Within.of_bind ⟨version, hversion⟩
  have hle : 12 + 1 ≤ pkt.length := (of_read_eq_ok hread).1
  omega

-- ---------------------------------------------------------------------------
-- Putting together what was taken apart
-- ---------------------------------------------------------------------------

theorem readSha_bytesAt (contents : List UInt8) (off : Nat) :
    readSha (bytesAt contents off 32).1 = bytesAt contents off 32 :=
  Subtype.ext ((LiesAt.self (bytesAt contents off 32).1).bytesAt (bytesAt contents off 32).2.symm)

/-- The header that was read lies at the start. -/
theorem liesAt_headerAt (h : 76 ≤ contents.length) :
    LiesAt contents 0 (marshalHeader (headerAt readSha contents)) := by
  have hfirst : LiesAt contents 0 [byteAt contents 0, byteAt contents 1, byteAt contents 2] :=
    liesAt_bytesAt (n := 3) (by omega)
  have hnonce : LiesAt contents 3 (bytesAt contents 3 13).1 := liesAt_bytesAt (by omega)
  have hprev : LiesAt contents 16 (bytesAt contents 16 32).1 := liesAt_bytesAt (by omega)
  have hfees : LiesAt contents 56 (bytesAt contents 56 20).1 := liesAt_bytesAt (by omega)
  show LiesAt contents 0 (_ ++ _ ++ (readSha (bytesAt contents 16 32).1).1 ++ _ ++ _ ++ _)
  rw [readSha_bytesAt]
  refine ((((hfirst.join hnonce).join ?_).join ?_).join ?_).join ?_
  all_goals
    simp only [List.length_append, List.length_cons, List.length_nil, le32_length,
      (bytesAt contents 3 13).2, (bytesAt contents 16 32).2]
  · exact hprev
  · exact liesAt_le32At (by omega)
  · exact liesAt_le32At (by omega)
  · exact hfees

theorem liesAt_tailerAt (h : off + 12 ≤ contents.length) :
    LiesAt contents off (marshalTailer (tailerAt contents off)) := by
  refine ((liesAt_le32At (by omega)).join ?_).join ?_
  all_goals simp only [List.length_append, le32_length]
  · exact liesAt_le32At (by omega)
  · exact liesAt_le32At (by omega)

/-- The parts that were read are all there is. -/
theorem marshalBlockInto_partsAt {size : UInt64} {layout : BlockLayout}
    (hsize : size.toNat = contents.length)
    (h : unmarshalBlockInto size (byteAt contents 0) (byteAt contents 2) (le32At contents 48)
      = .ok layout) : marshalBlockInto (partsAt readSha contents layout) = contents := by
  have hok := layoutOk_of_ok h
  have hends := hok.ends
  have htailer := hok.tailer
  rw [htailer, hsize] at hends
  have hnums : LiesAt contents 76 (bytesAt contents 76 (2 ^ (byteAt contents 2).toNat)).1 :=
    liesAt_bytesAt (by omega)
  have hmerkles : LiesAt contents (76 + 2 ^ (byteAt contents 2).toNat)
      (((List.range (2 ^ (byteAt contents 2).toNat)).map fun i =>
        readSha (bytesAt contents (layout.merkles.toNat + 32 * i) 32).1).flatMap Digest.bytes) := by
    refine liesAt_records (fun d : Bytes 32 => d.2) (by omega) _ fun i hi => ?_
    rw [readSha_bytesAt, hok.merkles]
    exact liesAt_bytesAt (by omega)
  have hprev : LiesAt contents (76 + 33 * 2 ^ (byteAt contents 2).toNat)
      (bytesAt contents layout.prevTxhashes.toNat (le32At contents 48).toNat).1 := by
    rw [hok.prevTxhashes]
    exact liesAt_bytesAt (by omega)
  have hall : LiesAt contents 0 (marshalBlockInto (partsAt readSha contents layout)) := by
    refine ((((liesAt_headerAt (by omega)).join ?_).join ?_).join ?_).join ?_
    all_goals
      simp only [List.length_append, marshalHeader_length, shas_length,
        (partsAt readSha contents layout).shardNums_length,
        (partsAt readSha contents layout).merkles_length,
        (partsAt readSha contents layout).prevTxhashes_length, Nat.zero_add]
    · show LiesAt contents 76 (bytesAt contents layout.shardNums.toNat _).1
      rw [hok.shardNums]
      exact hnums
    · exact hmerkles
    · rw [show 76 + 2 ^ (partsAt readSha contents layout).hdr.shardOrder.toNat
          + 32 * 2 ^ (partsAt readSha contents layout).hdr.shardOrder.toNat
        = 76 + 33 * 2 ^ (byteAt contents 2).toNat by
          show 76 + 2 ^ (byteAt contents 2).toNat + 32 * 2 ^ (byteAt contents 2).toNat = _
          omega]
      exact hprev
    · rw [show 76 + 2 ^ (partsAt readSha contents layout).hdr.shardOrder.toNat
          + 32 * 2 ^ (partsAt readSha contents layout).hdr.shardOrder.toNat
          + (partsAt readSha contents layout).hdr.numPrevTxhashes.toNat = layout.tailer.toNat by
          rw [htailer]
          show 76 + 2 ^ (byteAt contents 2).toNat + 32 * 2 ^ (byteAt contents 2).toNat
            + (le32At contents 48).toNat = _
          omega]
      exact liesAt_tailerAt (by omega)
  refine (hall.eq ?_).symm
  rw [marshalBlockInto_length]
  show contents.length = 88 + 33 * 2 ^ (byteAt contents 2).toNat + (le32At contents 48).toNat
  omega

-- ---------------------------------------------------------------------------
-- Round trips
-- ---------------------------------------------------------------------------

/-- A packet with a whole header is taken apart as its contents are. -/
theorem unmarshalBlockPkt_apply (hframed : Framed pkt) (h12 : sizeofPktBlock ≤ pkt.length) :
    unmarshalBlockPkt pkt = .ok ((unmarshalBlockInto (sizeSaid pkt) (byteAt pkt sizeofPktBlock)
      (byteAt pkt (sizeofPktBlock + 2)) (le32At pkt (sizeofPktBlock + 48))).map
        fun layout => partsAt readSha (pkt.drop sizeofPktBlock) layout) := by
  unfold unmarshalBlockPkt
  rw [readUnmarshalBlock_apply hframed h12]
  rfl

/-- The length that a block packet has to have, of a version and shard order that pass. -/
def WellFormedBlock (pkt : List UInt8) : Prop :=
  versionOk (byteAt pkt sizeofPktBlock) = true ∧ (byteAt pkt (sizeofPktBlock + 2)).toNat ≤ 16 ∧
    pkt.length = sizeofPktBlock
      + (blockLengths (byteAt pkt (sizeofPktBlock + 2)) (le32At pkt (sizeofPktBlock + 48))).toNat

/-- A packet is accepted if it has that length, and not read beyond its end; and it is what
`marshal_block` makes of the fields. -/
structure CodecExact (pkt : List UInt8) : Prop where
  accepts : ∃ result, unmarshalBlockPkt pkt = .ok result ∧
    ((∃ p, result = .ok p) ↔ WellFormedBlock pkt)
  reproduces : ∀ p, unmarshalBlockPkt pkt = .ok (.ok p) → marshalBlock p = pkt

/-- A block packet that says what it is, without an error. -/
def PlainBlockPacket (pkt : List UInt8) : Prop :=
  le32At pkt 4 = protocolPktBlock ∧ le32At pkt 8 = 0

theorem accepts_of_header (hframed : Framed pkt) (h12 : sizeofPktBlock ≤ pkt.length) :
    ∃ result, unmarshalBlockPkt pkt = .ok result ∧
      ((∃ p, result = .ok p) ↔ WellFormedBlock pkt) := by
  have hsize := sizeSaid_toNat hframed h12
  rw [List.length_drop] at hsize
  refine ⟨_, unmarshalBlockPkt_apply hframed h12, ?_⟩
  unfold WellFormedBlock
  constructor
  · rintro ⟨p, hp⟩
    cases hinto : unmarshalBlockInto (sizeSaid pkt) (byteAt pkt sizeofPktBlock)
        (byteAt pkt (sizeofPktBlock + 2)) (le32At pkt (sizeofPktBlock + 48)) with
    | error e =>
      rw [hinto] at hp
      exact nomatch hp
    | ok layout =>
      have hok := layoutOk_of_ok hinto
      have hends := hok.ends
      have htailer := hok.tailer
      refine ⟨hok.knownVersion, hok.maxOrder, ?_⟩
      rw [blockLengths_toNat hok.maxOrder]
      omega
  · rintro ⟨hversion, horder, hlen⟩
    rw [blockLengths_toNat horder] at hlen
    have hinto : ∃ layout, unmarshalBlockInto (sizeSaid pkt) (byteAt pkt sizeofPktBlock)
        (byteAt pkt (sizeofPktBlock + 2)) (le32At pkt (sizeofPktBlock + 48)) = .ok layout :=
      unmarshalBlockInto_ok hversion horder (by omega)
    obtain ⟨layout, hlayout⟩ := hinto
    rw [hlayout]
    exact ⟨_, rfl⟩

/-- The three numbers that a block packet begins with. -/
theorem liesAt_marshalBlock (p : BlockParts (Bytes 32)) :
    LiesAt (marshalBlock p) 0
        (le32 (UInt32.ofNat (sizeofPktBlock + (marshalBlockInto p).length))) ∧
      LiesAt (marshalBlock p) 4 (le32 protocolPktBlock) ∧ LiesAt (marshalBlock p) 8 (le32 0) ∧
      LiesAt (marshalBlock p) 12 (marshalBlockInto p) := by
  have h : LiesAt (marshalBlock p) 0 (marshalBlock p) := .self _
  unfold marshalBlock at h
  exact ⟨h.left.left.left, h.left.left.right, h.left.right, h.right⟩

/-- What is accepted is what `marshal_block` makes of it, apart from the type and the error
code, which `unmarshal_block` does not look at. -/
theorem marshalBlock_eq_iff (hframed : Framed pkt) (h12 : sizeofPktBlock ≤ pkt.length)
    {p : BlockParts (Bytes 32)} (h : unmarshalBlockPkt pkt = .ok (.ok p)) :
    marshalBlock p = pkt ↔ PlainBlockPacket pkt := by
  have h12' : 12 ≤ pkt.length := h12
  have hinto : marshalBlockInto p = pkt.drop 12 := by
    have hmap := Except.ok.inj ((unmarshalBlockPkt_apply hframed h12).symm.trans h)
    cases hlayout : unmarshalBlockInto (sizeSaid pkt) (byteAt pkt sizeofPktBlock)
        (byteAt pkt (sizeofPktBlock + 2)) (le32At pkt (sizeofPktBlock + 48)) with
    | error e =>
      rw [hlayout] at hmap
      exact nomatch hmap
    | ok layout =>
      rw [hlayout] at hmap
      rw [← Except.ok.inj hmap]
      refine marshalBlockInto_partsAt (sizeSaid_toNat hframed h12) ?_
      rw [byteAt_drop, byteAt_drop, le32At_drop]
      exact hlayout
  constructor
  · intro heq
    obtain ⟨-, htype, herr, -⟩ := liesAt_marshalBlock p
    rw [heq] at htype herr
    exact ⟨htype.le32At, herr.le32At⟩
  · rintro ⟨htype, herr⟩
    have hlen : UInt32.ofNat (sizeofPktBlock + (marshalBlockInto p).length) = le32At pkt 0 := by
      rw [hinto, List.length_drop, show sizeofPktBlock + (pkt.length - 12) = pkt.length by
        show 12 + (pkt.length - 12) = _
        omega, ← hframed.len, UInt32.ofNat_toNat]
    have hlies : LiesAt pkt 0 (marshalBlock p) := by
      unfold marshalBlock
      rw [hlen, ← htype, ← herr, hinto]
      have htypeAt : LiesAt pkt 4 (le32 (le32At pkt 4)) := liesAt_le32At (by omega)
      have herrAt : LiesAt pkt 8 (le32 (le32At pkt 8)) := liesAt_le32At (by omega)
      refine (((liesAt_le32At (by omega)).join htypeAt).join herrAt).join ?_
      exact ⟨pkt.take 12, [], by rw [List.append_nil, List.take_append_drop],
        by rw [List.length_take]; simp only [List.length_append, le32_length]; omega⟩
    refine (hlies.eq ?_).symm
    unfold marshalBlock
    simp only [List.length_append, le32_length, hinto, List.length_drop]
    omega

/-- A packet of a block is as long as it says if its length can be said. -/
theorem marshalBlock_length (p : BlockParts (Bytes 32)) :
    (marshalBlock p).length = 12 + (marshalBlockInto p).length := by
  unfold marshalBlock
  simp only [List.length_append, le32_length]

theorem drop_marshalBlock (p : BlockParts (Bytes 32)) :
    (marshalBlock p).drop sizeofPktBlock = marshalBlockInto p :=
  List.drop_left' rfl

/-- A packet whose length can be said is taken apart again. -/
theorem unmarshalBlockPkt_marshalBlock {p : BlockParts (Bytes 32)}
    (hversion : versionOk p.hdr.version = true) (horder : p.hdr.shardOrder.toNat ≤ 16)
    (hlt : sizeofPktBlock + (marshalBlockInto p).length < 2 ^ 32) :
    unmarshalBlockPkt (marshalBlock p) = .ok (.ok p) := by
  have hlen := marshalBlock_length p
  have hframed : Framed (marshalBlock p) := by
    refine ⟨?_, ?_⟩
    · rw [(liesAt_marshalBlock p).1.le32At, hlen, UInt32.toNat_ofNat_of_lt' hlt]
      rfl
    · show 8 ≤ _
      omega
  have h12 : sizeofPktBlock ≤ (marshalBlock p).length := by
    show 12 ≤ _
    omega
  have hsize := sizeSaid_toNat hframed h12
  rw [drop_marshalBlock] at hsize
  have hnat : (UInt32.ofNat (marshalBlockInto p).length).toNat = (marshalBlockInto p).length :=
    UInt32.toNat_ofNat_of_lt' (Nat.lt_of_le_of_lt (Nat.le_add_left _ _) hlt)
  have hparts : unmarshalBlock readSha
      (⟨marshalBlockInto p, hnat.symm⟩ : Bytes (UInt32.ofNat (marshalBlockInto p).length).toNat)
      = .ok p :=
    unmarshalBlock_marshalBlockInto hversion horder rfl
  have hsame : sizeSaid (marshalBlock p) = (UInt32.ofNat (marshalBlockInto p).length).toUInt64 := by
    rw [← UInt64.toNat_inj, hsize, UInt32.toNat_toUInt64, hnat]
  rw [unmarshalBlockPkt_apply hframed h12, hsame, ← Nat.add_zero sizeofPktBlock,
    ← byteAt_drop, Nat.add_zero, ← byteAt_drop, ← le32At_drop, drop_marshalBlock, ← hparts]
  unfold unmarshalBlock
  dsimp only
  set hdr := headerAt readSha (marshalBlockInto p)
  show Except.ok (Except.map _ (unmarshalBlockInto _ hdr.version hdr.shardOrder
    hdr.numPrevTxhashes)) = _
  cases unmarshalBlockInto (UInt32.ofNat (marshalBlockInto p).length).toUInt64 hdr.version
    hdr.shardOrder hdr.numPrevTxhashes <;> rfl

/-- What is said is the length modulo a power of two, less the packet header. -/
theorem sizeSaid_marshalBlock (p : BlockParts (Bytes 32)) : (sizeSaid (marshalBlock p)).toNat
    = (2 ^ 64 - 12 + (12 + (marshalBlockInto p).length) % 2 ^ 32) % 2 ^ 64 := by
  unfold sizeSaid
  rw [(liesAt_marshalBlock p).1.le32At, UInt64.toNat_sub, UInt32.toNat_toUInt64,
    UInt32.toNat_ofNat']
  rfl

/-- A packet of parts of a known version and shard order is what it was, if its length can
be said. -/
theorem roundTrips_iff {p : BlockParts (Bytes 32)} (hversion : versionOk p.hdr.version = true)
    (horder : p.hdr.shardOrder.toNat ≤ 16) :
    unmarshalBlockPkt (marshalBlock p) = .ok (.ok p) ↔
      sizeofPktBlock + (blockLengths p.hdr.shardOrder p.hdr.numPrevTxhashes).toNat < 2 ^ 32 := by
  have hinto := marshalBlockInto_length p
  rw [blockLengths_toNat horder, ← hinto]
  constructor
  · intro h
    have hlen := marshalBlock_length p
    have hread : readUnmarshalBlock (marshalBlock p) = _ :=
      readUnmarshalBlock_eq (by omega) (.inr (by omega))
    obtain ⟨result, hresult, hmap⟩ := ExceptRules.of_bind_eq_ok h
    obtain rfl := Except.ok.inj (hread.symm.trans hresult)
    cases hlayout : unmarshalBlockInto (sizeSaid (marshalBlock p))
        (byteAt (marshalBlock p) sizeofPktBlock) (byteAt (marshalBlock p) (sizeofPktBlock + 2))
        (le32At (marshalBlock p) (sizeofPktBlock + 48)) with
    | error e =>
      rw [hlayout] at hmap
      exact nomatch Except.ok.inj hmap
    | ok layout =>
      rw [hlayout] at hmap
      have hparts := Except.ok.inj (Except.ok.inj hmap)
      have horder2 := congrArg (fun p => p.hdr.shardOrder) hparts
      have hnum2 := congrArg (fun p => p.hdr.numPrevTxhashes) hparts
      have hends := (layoutOk_of_ok hlayout).ends
      rw [(layoutOk_of_ok hlayout).tailer, ← byteAt_drop, ← le32At_drop,
        show byteAt ((marshalBlock p).drop sizeofPktBlock) 2 = p.hdr.shardOrder from horder2,
        show le32At ((marshalBlock p).drop sizeofPktBlock) 48 = p.hdr.numPrevTxhashes from hnum2,
        sizeSaid_marshalBlock] at hends
      have hpow : 2 ^ p.hdr.shardOrder.toNat ≤ 2 ^ 16 := Nat.pow_le_pow_right (by omega) horder
      have hnum := p.hdr.numPrevTxhashes.toNat_lt
      show 12 + _ < 2 ^ 32
      omega
  · exact fun hlt => unmarshalBlockPkt_marshalBlock hversion horder hlt

/-- **The codec is exact** for packets with a whole header that say what they are, and a
block survives it if the length of its packet fits in 32 bits. -/
theorem block_codec_iff (p : BlockParts (Bytes 32)) (pkt : List UInt8) :
    (versionOk p.hdr.version = true → p.hdr.shardOrder.toNat ≤ 16 →
      (unmarshalBlockPkt (marshalBlock p) = .ok (.ok p) ↔
        sizeofPktBlock + (blockLengths p.hdr.shardOrder p.hdr.numPrevTxhashes).toNat < 2 ^ 32)) ∧
    (Framed pkt → (CodecExact pkt ↔
      sizeofPktBlock ≤ pkt.length ∧ (WellFormedBlock pkt → PlainBlockPacket pkt))) := by
  refine ⟨fun hversion horder => roundTrips_iff hversion horder, fun hframed => ?_⟩
  constructor
  · intro hexact
    obtain ⟨result, hresult, haccepts⟩ := hexact.accepts
    have h12 : sizeofPktBlock ≤ pkt.length := by
      by_contra hshort
      obtain ⟨layout, hlayout, -⟩ := ExceptRules.of_bind_eq_ok hresult
      exact readUnmarshalBlock_overrun hframed (Nat.lt_of_not_le hshort) ⟨layout, hlayout⟩
    refine ⟨h12, fun hwell => ?_⟩
    obtain ⟨p, rfl⟩ := haccepts.mpr hwell
    exact (marshalBlock_eq_iff hframed h12 hresult).mp (hexact.reproduces p hresult)
  · rintro ⟨h12, hplain⟩
    have haccepts := accepts_of_header hframed h12
    refine ⟨haccepts, fun p hp => (marshalBlock_eq_iff hframed h12 hp).mpr (hplain ?_)⟩
    obtain ⟨result, hresult, hiff⟩ := haccepts
    obtain rfl := Except.ok.inj (hresult.symm.trans hp)
    exact hiff.mp ⟨p, rfl⟩

/-- A block of four shards, two of them with transactions. -/
def fourShards : BlockParts (Bytes 32) where
  hdr :=
    { version := 1, featuresVote := 0, shardOrder := 2, nonce2 := Bytes.zero 13
      prevBlock := ⟨List.replicate 32 9, rfl⟩, numPrevTxhashes := 8, depth := 2,
      feesTo := ⟨List.replicate 20 3, rfl⟩ }
  shardNums := [2, 0, 1, 0]
  merkles := [⟨List.replicate 32 1, rfl⟩, Bytes.zero 32, ⟨List.replicate 32 2, rfl⟩, Bytes.zero 32]
  prevTxhashes := [1, 2, 3, 4, 5, 6, 7, 8]
  tailer := ⟨1010, 7, 0x1effffff⟩
  shardNums_length := rfl
  merkles_length := rfl
  prevTxhashes_length := rfl

theorem block_codec_iff_fourShards :
    unmarshalBlockPkt (marshalBlock fourShards) = .ok (.ok fourShards) ∧
      CodecExact (marshalBlock fourShards) := by
  have hplain : PlainBlockPacket (marshalBlock fourShards) := ⟨by decide +kernel, by decide +kernel⟩
  have hframed : Framed (marshalBlock fourShards) := ⟨by decide +kernel, by decide +kernel⟩
  have hcodec := block_codec_iff fourShards (marshalBlock fourShards)
  exact ⟨(hcodec.1 (by decide) (by decide)).mpr (by decide),
    (hcodec.2 hframed).mpr ⟨by decide +kernel, fun _ => hplain⟩⟩

/-- A packet that is its own header only, as `load_block` would read it. -/
theorem block_codec_not_exact :
    ∃ pkt, Framed pkt ∧ le32At pkt 4 = protocolPktBlock ∧ ¬ CodecExact pkt := by
  refine ⟨[8, 0, 0, 0, 8, 0, 0, 0], ⟨by decide, by decide⟩, by decide, fun h => ?_⟩
  obtain ⟨result, hresult, -⟩ := h.accepts
  obtain ⟨layout, hlayout, -⟩ := ExceptRules.of_bind_eq_ok hresult
  exact readUnmarshalBlock_overrun ⟨by decide, by decide⟩ (by decide) ⟨layout, hlayout⟩

end Pettycoin
