import Pettycoin.Header

/-!
# Pettycoin — block packets

`unmarshal_block` of `marshal.c`: where the parts of a block lie in a packet,
and when the packet is refused. The digests are taken by `view` from where they
lie, as a cast of the pointer does.

* `unmarshalBlockInto` — the layout of a packet, or what is wrong with it;
* `layoutOk_of_ok` — nothing that is accepted has wrapped;
* `version_of_unmarshalBlock` — and it is of the right version.
-/

namespace Pettycoin

open ExceptRules

variable {D : Type}

-- ---------------------------------------------------------------------------
-- Sizes
-- ---------------------------------------------------------------------------

/-- `PROTOCOL_MAX_SHARD_ORDER`. -/
def protocolMaxShardOrder : UInt8 := 16

/-- `sizeof(struct protocol_block_header)`. -/
def sizeofBlockHeader : UInt64 := 76

/-- `sizeof(struct protocol_block_tailer)`. -/
def sizeofBlockTailer : UInt64 := 12

/-- `sizeof(struct protocol_double_sha)`. -/
def sizeofDoubleSha : UInt64 := 32

/-- `add_overflows()`. -/
def addOverflows (a b : UInt64) : Bool := a + b < b

/-- `mul_overflows()`. -/
def mulOverflows (a b : UInt64) : Bool := b != 0 && a * b / b != a

-- ---------------------------------------------------------------------------
-- The parts of a block
-- ---------------------------------------------------------------------------

/-- Where the parts after the header begin, counted from the header. -/
structure BlockLayout where
  shardNums : UInt64
  merkles : UInt64
  prevTxhashes : UInt64
  tailer : UInt64
deriving DecidableEq

/-- `unmarshal_block_into()`, given the fields of the header it reads. -/
def unmarshalBlockInto (size : UInt64) (version shardOrder : UInt8) (numPrevTxhashes : UInt32) :
    Except Ecode BlockLayout :=
  if size < sizeofBlockHeader then .error .invalidLen
  else if !versionOk version then .error .blockHighVersion
  else if shardOrder > protocolMaxShardOrder then .error .badShardOrder
  else
    let len := sizeofBlockHeader
    let shardNums := len
    let shardLen : UInt64 := 1 <<< shardOrder.toUInt64
    if addOverflows shardLen len then .error .invalidLen
    else
      let len := len + shardLen
      let merkles := len
      if mulOverflows shardLen sizeofDoubleSha then .error .invalidLen
      else
        let merkleLen := shardLen * sizeofDoubleSha
        if addOverflows len merkleLen then .error .invalidLen
        else
          let len := len + merkleLen
          let prevTxhashes := len
          if addOverflows len numPrevTxhashes.toUInt64 then .error .invalidLen
          else
            let len := len + numPrevTxhashes.toUInt64
            let tailer := len
            if addOverflows len sizeofBlockTailer then .error .invalidLen
            else if size ≠ len + sizeofBlockTailer then .error .invalidLen
            else .ok ⟨shardNums, merkles, prevTxhashes, tailer⟩

/-- The byte at an offset. -/
def byteAt (contents : List UInt8) (off : Nat) : UInt8 := contents[off]?.getD 0

/-- The `n` bytes from an offset on. -/
def bytesAt (contents : List UInt8) (off n : Nat) : Bytes n :=
  ⟨(List.range n).map fun i => byteAt contents (off + i), by simp⟩

/-- `le32_to_cpu()` of the four bytes at an offset. -/
def le32At (contents : List UInt8) (off : Nat) : UInt32 :=
  (byteAt contents off).toUInt32 ||| (byteAt contents (off + 1)).toUInt32 <<< 8
    ||| (byteAt contents (off + 2)).toUInt32 <<< 16
    ||| (byteAt contents (off + 3)).toUInt32 <<< 24

/-- The header the packet begins with. -/
def headerAt (view : List UInt8 → D) (contents : List UInt8) : BlockHeader D where
  version := byteAt contents 0
  featuresVote := byteAt contents 1
  shardOrder := byteAt contents 2
  nonce2 := bytesAt contents 3 13
  prevBlock := view (bytesAt contents 16 32)
  numPrevTxhashes := le32At contents 48
  depth := le32At contents 52
  feesTo := bytesAt contents 56 20

/-- The tailer at an offset. -/
def tailerAt (contents : List UInt8) (off : Nat) : BlockTailer where
  timestamp := le32At contents off
  difficulty := le32At contents (off + 4)
  nonce1 := le32At contents (off + 8)

/-- The parts of a block, from where they lie. -/
def partsAt (view : List UInt8 → D) (contents : List UInt8) (layout : BlockLayout) :
    BlockParts D where
  hdr := headerAt view contents
  shardNums := bytesAt contents layout.shardNums.toNat (2 ^ (byteAt contents 2).toNat)
  merkles := (List.range (2 ^ (byteAt contents 2).toNat)).map fun i =>
    view (bytesAt contents (layout.merkles.toNat + 32 * i) 32)
  prevTxhashes := bytesAt contents layout.prevTxhashes.toNat (le32At contents 48).toNat
  tailer := tailerAt contents layout.tailer.toNat
  shardNums_length := (bytesAt contents _ _).2
  merkles_length := by simp [headerAt]
  prevTxhashes_length := (bytesAt contents _ _).2

/-- `unmarshal_block()` of a packet with `len` bytes after its own header. -/
def unmarshalBlock (view : List UInt8 → D) {len : UInt32} (contents : Bytes len.toNat) :
    Except Ecode (BlockParts D) :=
  let hdr := headerAt view contents
  match unmarshalBlockInto len.toUInt64 hdr.version hdr.shardOrder hdr.numPrevTxhashes with
  | .error e => .error e
  | .ok layout => .ok (partsAt view contents layout)

-- ---------------------------------------------------------------------------
-- What is accepted
-- ---------------------------------------------------------------------------

/-- A layout that is accepted has its parts one after the other, up to the end. -/
structure LayoutOk (size : UInt64) (version shardOrder : UInt8) (numPrevTxhashes : UInt32)
    (layout : BlockLayout) : Prop where
  knownVersion : versionOk version = true
  maxOrder : shardOrder.toNat ≤ 16
  shardNums : layout.shardNums.toNat = 76
  merkles : layout.merkles.toNat = 76 + 2 ^ shardOrder.toNat
  prevTxhashes : layout.prevTxhashes.toNat = 76 + 33 * 2 ^ shardOrder.toNat
  tailer : layout.tailer.toNat = 76 + 33 * 2 ^ shardOrder.toNat + numPrevTxhashes.toNat
  ends : size.toNat = layout.tailer.toNat + 12

/-- The sums of lengths that come up do not overflow. -/
theorem shardLen_toNat {shardOrder : UInt8} (h : shardOrder.toNat ≤ 16) :
    ((1 : UInt64) <<< shardOrder.toUInt64).toNat = 2 ^ shardOrder.toNat := by
  have hpow : 2 ^ shardOrder.toNat ≤ 2 ^ 16 := Nat.pow_le_pow_right (by omega) h
  rw [UInt64.toNat_shiftLeft, UInt8.toNat_toUInt64, Nat.mod_eq_of_lt (by omega : _ < 64),
    Nat.shiftLeft_eq]
  show 1 * _ % 2 ^ 64 = _
  rw [Nat.one_mul, Nat.mod_eq_of_lt (by omega)]

/-- Where the parts begin. -/
theorem offsets_toNat {shardOrder : UInt8} (h : shardOrder.toNat ≤ 16) (numPrevTxhashes : UInt32) :
    (sizeofBlockHeader + 1 <<< shardOrder.toUInt64).toNat = 76 + 2 ^ shardOrder.toNat ∧
      (sizeofBlockHeader + 1 <<< shardOrder.toUInt64
        + 1 <<< shardOrder.toUInt64 * sizeofDoubleSha).toNat = 76 + 33 * 2 ^ shardOrder.toNat ∧
      (sizeofBlockHeader + 1 <<< shardOrder.toUInt64
        + 1 <<< shardOrder.toUInt64 * sizeofDoubleSha + numPrevTxhashes.toUInt64).toNat
        = 76 + 33 * 2 ^ shardOrder.toNat + numPrevTxhashes.toNat := by
  have hlen := shardLen_toNat h
  have hpow : 2 ^ shardOrder.toNat ≤ 2 ^ 16 := Nat.pow_le_pow_right (by omega) h
  have hprev := numPrevTxhashes.toNat_lt
  have hmerkles : (sizeofBlockHeader + 1 <<< shardOrder.toUInt64).toNat
      = 76 + 2 ^ shardOrder.toNat := by
    rw [UInt64.toNat_add, hlen]
    show (76 + _) % 2 ^ 64 = _
    omega
  have hprevTxhashes : (sizeofBlockHeader + 1 <<< shardOrder.toUInt64
      + 1 <<< shardOrder.toUInt64 * sizeofDoubleSha).toNat = 76 + 33 * 2 ^ shardOrder.toNat := by
    rw [UInt64.toNat_add, hmerkles, UInt64.toNat_mul, hlen]
    show (76 + 2 ^ shardOrder.toNat + 2 ^ shardOrder.toNat * 32 % 2 ^ 64) % 2 ^ 64 = _
    omega
  refine ⟨hmerkles, hprevTxhashes, ?_⟩
  rw [UInt64.toNat_add, hprevTxhashes, UInt32.toNat_toUInt64]
  omega

theorem layoutOk_of_ok {size : UInt64} {version shardOrder : UInt8} {numPrevTxhashes : UInt32}
    {layout : BlockLayout}
    (h : unmarshalBlockInto size version shardOrder numPrevTxhashes = .ok layout) :
    LayoutOk size version shardOrder numPrevTxhashes layout := by
  unfold unmarshalBlockInto at h
  obtain ⟨-, h⟩ := of_guard_eq_ok h
  obtain ⟨hversion, h⟩ := of_guard_eq_ok h
  obtain ⟨horder, h⟩ := of_guard_eq_ok h
  obtain ⟨-, h⟩ := of_guard_eq_ok h
  obtain ⟨-, h⟩ := of_guard_eq_ok h
  obtain ⟨-, h⟩ := of_guard_eq_ok h
  obtain ⟨-, h⟩ := of_guard_eq_ok h
  obtain ⟨-, h⟩ := of_guard_eq_ok h
  obtain ⟨hsize, h⟩ := of_guard_eq_ok h
  injection h with h
  subst h
  rw [not_not] at hsize
  have horder' : shardOrder.toNat ≤ 16 := by
    have hle : ¬ protocolMaxShardOrder.toNat < shardOrder.toNat := fun hlt =>
      horder (UInt8.lt_iff_toNat_lt.mpr hlt)
    exact Nat.le_of_not_lt hle
  obtain ⟨hmerkles, hprevTxhashes, htailer⟩ := offsets_toNat horder' numPrevTxhashes
  have hpow : 2 ^ shardOrder.toNat ≤ 2 ^ 16 := Nat.pow_le_pow_right (by omega) horder'
  have hprev := numPrevTxhashes.toNat_lt
  refine ⟨by simpa using hversion, horder', rfl, hmerkles, hprevTxhashes, htailer, ?_⟩
  dsimp only
  rw [hsize, UInt64.toNat_add, htailer]
  show (_ + 12) % 2 ^ 64 = _
  omega

/-- A block that is accepted has a version the node knows. -/
theorem version_of_unmarshalBlock {view : List UInt8 → D} {len : UInt32}
    {contents : Bytes len.toNat} {p : BlockParts D}
    (h : unmarshalBlock view contents = .ok p) : versionOk p.hdr.version = true := by
  unfold unmarshalBlock at h
  dsimp only at h
  split at h
  · exact absurd h (by simp)
  · rename_i layout hlayout
    injection h with h
    subst h
    exact (layoutOk_of_ok hlayout).knownVersion

end Pettycoin
