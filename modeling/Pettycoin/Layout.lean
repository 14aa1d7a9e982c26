import Pettycoin.Lib.BoundedRead
import Pettycoin.MarshalBlock

/-!
# Pettycoin — what lies where

The fields of the packed structures, read from the bytes they lie in, and the other
way: bytes that were read as a field are the bytes of that field.

* `LiesAt.readLe32` — a field that lies where it should is read;
* `liesAt_le32At` — bytes lie where they were read;
* `LiesAt.join`, `LiesAt.left`, `LiesAt.right` — fields one after the other;
* `liesAt_records` — a row of records.
-/

namespace Pettycoin

open BoundedRead

-- ---------------------------------------------------------------------------
-- Numbers
-- ---------------------------------------------------------------------------

/-- `le16_to_cpu()` of the two bytes at an offset. -/
def le16At (contents : List UInt8) (off : Nat) : UInt16 :=
  (byteAt contents off).toUInt16 ||| (byteAt contents (off + 1)).toUInt16 <<< 8

/-- A byte at an offset. -/
def readU8 (off : Nat) : Read UInt8 UInt8 := do
  let bytes ← read off 1
  return byteAt bytes 0

/-- A `le16` at an offset. -/
def readLe16 (off : Nat) : Read UInt8 UInt16 := do
  let bytes ← read off 2
  return le16At bytes 0

/-- A `le32` at an offset. -/
def readLe32 (off : Nat) : Read UInt8 UInt32 := do
  let bytes ← read off 4
  return le32At bytes 0

variable {mid a b contents rest : List UInt8} {off n : Nat}

theorem byteAt_take_drop {i : Nat} (h : i < n) :
    byteAt ((contents.drop off).take n) i = byteAt contents (off + i) := by
  unfold byteAt
  rw [List.getElem?_take_of_lt h, List.getElem?_drop]

theorem readU8_apply (h : off + 1 ≤ contents.length) :
    readU8 off contents = .ok (byteAt contents off) := by
  unfold readU8
  rw [bind_apply, read_of_le h]
  exact congrArg Except.ok (byteAt_take_drop Nat.zero_lt_one)

theorem readLe16_apply (h : off + 2 ≤ contents.length) :
    readLe16 off contents = .ok (le16At contents off) := by
  unfold readLe16
  rw [bind_apply, read_of_le h]
  refine congrArg Except.ok ?_
  unfold le16At
  rw [byteAt_take_drop (by omega), byteAt_take_drop (by omega)]
  rfl

theorem readLe32_apply (h : off + 4 ≤ contents.length) :
    readLe32 off contents = .ok (le32At contents off) := by
  unfold readLe32
  rw [bind_apply, read_of_le h]
  refine congrArg Except.ok ?_
  unfold le32At
  rw [byteAt_take_drop (by omega), byteAt_take_drop (by omega), byteAt_take_drop (by omega),
    byteAt_take_drop (by omega)]
  rfl

theorem local_readU8 (off : Nat) : Local (readU8 off) := (Local.read off 1).bind fun _ => .pure _
theorem local_readLe16 (off : Nat) : Local (readLe16 off) := (Local.read off 2).bind fun _ => .pure _
theorem local_readLe32 (off : Nat) : Local (readLe32 off) := (Local.read off 4).bind fun _ => .pure _

-- ---------------------------------------------------------------------------
-- Fields
-- ---------------------------------------------------------------------------

theorem LiesAt.le (h : LiesAt contents off mid) : off + mid.length ≤ contents.length := by
  obtain ⟨pre, post, rfl, rfl⟩ := h
  simp only [List.length_append]
  omega

/-- What is read there. -/
theorem LiesAt.read (h : LiesAt contents off mid) (hn : n = mid.length) :
    BoundedRead.read off n contents = .ok mid := by
  have hle := h.le
  obtain ⟨pre, post, rfl, rfl⟩ := h
  rw [read_of_le (by omega), List.drop_left, hn, List.take_left]

theorem LiesAt.le16At {x : UInt16} (h : LiesAt contents off (le16 x)) :
    Pettycoin.le16At contents off = x := by
  have h0 := h.byteAt (i := 0) (by simp)
  have h1 := h.byteAt (i := 1) (by simp)
  unfold Pettycoin.le16At
  rw [Nat.add_zero] at h0
  rw [h0, h1]
  show x.toUInt8.toUInt16 ||| (x >>> 8).toUInt8.toUInt16 <<< 8 = x
  have hx := x.toNat_lt
  have hlow := (x.toUInt8).toNat_lt
  have hhigh := ((x >>> 8).toUInt8).toNat_lt
  rw [← UInt16.toNat_inj]
  simp only [UInt16.toNat_or, UInt16.toNat_shiftLeft, UInt8.toNat_toUInt16, UInt16.toNat_toUInt8,
    UInt16.toNat_shiftRight, UInt16.reduceToNat, Nat.reduceMod, Nat.shiftRight_eq_div_pow]
  rw [Nat.mod_eq_of_lt (a := _ <<< 8) (by rw [Nat.shiftLeft_eq]; omega), or_shiftLeft (by omega)]
  omega

theorem LiesAt.readLe16 {x : UInt16} (h : LiesAt contents off (le16 x)) :
    Pettycoin.readLe16 off contents = .ok x := by
  have hle := h.le
  rw [readLe16_apply (by simpa using hle), h.le16At]

theorem LiesAt.readLe32 {x : UInt32} (h : LiesAt contents off (le32 x)) :
    Pettycoin.readLe32 off contents = .ok x := by
  have hle := h.le
  rw [readLe32_apply (by simpa using hle), h.le32At]

/-- A part of what lies there. -/
theorem LiesAt.left (h : LiesAt contents off (a ++ b)) : LiesAt contents off a := h.append.1

theorem LiesAt.right (h : LiesAt contents off (a ++ b)) : LiesAt contents (off + a.length) b :=
  h.append.2

/-- Parts that follow one another. -/
theorem LiesAt.join (ha : LiesAt contents off a) (hb : LiesAt contents (off + a.length) b) :
    LiesAt contents off (a ++ b) := by
  obtain ⟨pre, post, hcontents, rfl⟩ := ha
  obtain ⟨pre', post', hcontents', hlen⟩ := hb
  have hsplit : pre ++ a ++ post = pre' ++ (b ++ post') := by
    rw [List.append_assoc, ← hcontents, hcontents']
  obtain ⟨-, hpost⟩ := List.append_inj hsplit (by rw [List.length_append, hlen])
  exact ⟨pre, post', by rw [hcontents, hpost, List.append_assoc], rfl⟩

theorem LiesAt.self (mid : List UInt8) : LiesAt mid 0 mid := ⟨[], [], by simp, rfl⟩

/-- Everything there is. -/
theorem LiesAt.eq (h : LiesAt contents 0 mid) (hlen : contents.length = mid.length) :
    contents = mid := by
  obtain ⟨pre, post, rfl, hpre⟩ := h
  obtain rfl := List.eq_nil_of_length_eq_zero hpre.symm
  have hpost : post.length = 0 := by
    rw [List.nil_append, List.length_append] at hlen
    omega
  rw [List.eq_nil_of_length_eq_zero hpost, List.nil_append, List.append_nil]

/-- The beginning. -/
theorem LiesAt.take (h : LiesAt contents 0 mid) : contents.take mid.length = mid := by
  obtain ⟨pre, post, rfl, hpre⟩ := h
  obtain rfl := List.eq_nil_of_length_eq_zero hpre.symm
  rw [List.nil_append, List.take_left]

theorem liesAt_nil (h : off ≤ contents.length) : LiesAt contents off [] :=
  ⟨contents.take off, contents.drop off, by simp, by rw [List.length_take]; omega⟩

theorem liesAt_take_drop (h : off + n ≤ contents.length) :
    LiesAt contents off ((contents.drop off).take n) := by
  refine ⟨contents.take off, (contents.drop off).drop n, ?_, ?_⟩
  · rw [List.take_append_drop, List.take_append_drop]
  · rw [List.length_take]
    omega

/-- Bytes that were read lie there. -/
theorem liesAt_bytesAt (h : off + n ≤ contents.length) :
    LiesAt contents off (bytesAt contents off n).1 := by
  have hlies := liesAt_take_drop h
  have hlen : n = ((contents.drop off).take n).length := by
    rw [List.length_take, List.length_drop]
    omega
  rw [hlies.bytesAt hlen]
  exact hlies

/-- Two bytes of a number are its bytes. -/
theorem le16_le16At (contents : List UInt8) (off : Nat) :
    le16 (le16At contents off) = [byteAt contents off, byteAt contents (off + 1)] := by
  have hlow := (byteAt contents off).toNat_lt
  have hhigh := (byteAt contents (off + 1)).toNat_lt
  unfold le16 le16At
  refine List.cons_eq_cons.mpr ⟨?_, List.cons_eq_cons.mpr ⟨?_, rfl⟩⟩ <;>
    rw [← UInt8.toNat_inj] <;>
    simp only [UInt16.toNat_or, UInt16.toNat_shiftLeft, UInt8.toNat_toUInt16, UInt16.toNat_toUInt8,
      UInt16.toNat_shiftRight, UInt16.reduceToNat, Nat.reduceMod, Nat.shiftRight_eq_div_pow] <;>
    rw [Nat.mod_eq_of_lt (a := _ <<< 8) (by rw [Nat.shiftLeft_eq]; omega), or_shiftLeft (by omega)] <;>
    omega

/-- Four bytes of a number are its bytes. -/
theorem le32_le32At (contents : List UInt8) (off : Nat) :
    le32 (le32At contents off) = [byteAt contents off, byteAt contents (off + 1),
      byteAt contents (off + 2), byteAt contents (off + 3)] := by
  have h0 := (byteAt contents off).toNat_lt
  have h1 := (byteAt contents (off + 1)).toNat_lt
  have h2 := (byteAt contents (off + 2)).toNat_lt
  have h3 := (byteAt contents (off + 3)).toNat_lt
  unfold le32 le32At
  refine List.cons_eq_cons.mpr ⟨?_, List.cons_eq_cons.mpr ⟨?_, List.cons_eq_cons.mpr ⟨?_,
    List.cons_eq_cons.mpr ⟨?_, rfl⟩⟩⟩⟩ <;>
    rw [← UInt8.toNat_inj, UInt32.toNat_toUInt8] <;>
    simp only [UInt32.toNat_shiftRight, le32_or, UInt32.reduceToNat, Nat.reduceMod,
      Nat.shiftRight_eq_div_pow] <;>
    omega

theorem liesAt_le16At (h : off + 2 ≤ contents.length) :
    LiesAt contents off (le16 (le16At contents off)) := by
  rw [le16_le16At]
  exact liesAt_bytesAt (n := 2) h

theorem liesAt_le32At (h : off + 4 ≤ contents.length) :
    LiesAt contents off (le32 (le32At contents off)) := by
  rw [le32_le32At]
  exact liesAt_bytesAt (n := 4) h

/-- `sizeof(struct protocol_net_hdr)`, which every packet begins with. -/
def sizeofNetHdr : Nat := 8

/-- A packet as `io_read_packet` delivers it: it has the length it says, and its header. -/
structure Framed (pkt : List UInt8) : Prop where
  len : (le32At pkt 0).toNat = pkt.length
  min : sizeofNetHdr ≤ pkt.length

-- ---------------------------------------------------------------------------
-- Arrays
-- ---------------------------------------------------------------------------

theorem records_length {α : Type} {enc : α → List UInt8} {size : Nat}
    (hsize : ∀ x, (enc x).length = size) (l : List α) : (l.flatMap enc).length = size * l.length := by
  induction l with
  | nil => rfl
  | cons x l ih =>
    rw [List.flatMap_cons, List.length_append, hsize, ih, List.length_cons, Nat.mul_succ,
      Nat.add_comm]

/-- Records of one length, one after the other. -/
theorem LiesAt.records {α : Type} {enc : α → List UInt8} {size : Nat} {l : List α}
    (hsize : ∀ x, (enc x).length = size) (h : LiesAt contents off (l.flatMap enc)) {i : Nat}
    (hi : i < l.length) : LiesAt contents (off + size * i) (enc l[i]) := by
  induction l generalizing off i with
  | nil => exact absurd hi (Nat.not_lt_zero i)
  | cons x l ih =>
    rw [List.flatMap_cons] at h
    cases i with
    | zero => exact h.left
    | succ i =>
      have hrest := ih h.right (Nat.lt_of_succ_lt_succ hi)
      rw [hsize] at hrest
      rw [Nat.mul_succ, Nat.add_comm (size * i), ← Nat.add_assoc]
      exact hrest

/-- An array, if each record of it lies in its place. -/
theorem liesAt_records {α : Type} {enc : α → List UInt8} {size : Nat} {f : Nat → α}
    (hsize : ∀ x, (enc x).length = size) (hle : off ≤ contents.length) (n : Nat)
    (h : ∀ i < n, LiesAt contents (off + size * i) (enc (f i))) :
    LiesAt contents off (((List.range n).map f).flatMap enc) := by
  induction n with
  | zero => exact liesAt_nil hle
  | succ n ih =>
    rw [List.range_succ, List.map_append, List.flatMap_append]
    refine (ih fun i hi => h i (Nat.lt_succ_of_lt hi)).join ?_
    rw [records_length hsize, List.length_map, List.length_range, List.map_singleton,
      List.flatMap_singleton]
    exact h n (Nat.lt_succ_self n)

end Pettycoin
