import Pettycoin.Lib.Except
import Pettycoin.Lib.OpenAddressing

/-!
# Pettycoin — the hash table

`ccan/htable`: the addresses of the elements lie in a circle of slots. The bits that all
addresses share (`common_mask`, `common_bits`) are left out of a slot, and some of the bits of
the hash are put in their place; one of them, `perfect_bit`, says that the element is where its
hash sends it. What the slots mean (`Htable.meaning`) is a table of `OpenAddressing`.

* `htableAdd`, `htableDel` — an element is put, or taken out;
* `doubleTable`, `rehashTable`, `updateCommon` — the three ways to make room for it;
* `htableVals`, `htableAll` — going through the elements of a hash, or all.
-/

namespace Pettycoin

open ExceptRules OpenAddressing

/-- `uintptr_t` and `size_t`. -/
abbrev Word := BitVec 64

/-- Where a call does not return. -/
inductive HtableFault
  | bounds
  | endless
  | assertion
deriving DecidableEq

/-- `struct htable`, without `rehash` and `priv`. -/
structure Htable where
  bits : Nat
  elems : Nat
  deleted : Nat
  max : Nat
  maxWithDeleted : Nat
  commonMask : Word
  commonBits : Word
  perfectBit : Word
  /-- `none` while `table` points at `perfect_bit`. -/
  table : Option (List Word)
deriving DecidableEq

/-- `struct htable_iter`. -/
abbrev HtableIter := Nat

/-- `htable_init()`. -/
def htableInit : Htable := ⟨0, 0, 0, 0, 0, .allOnes 64, 0, 0, none⟩

namespace Htable

/-- `ht->table[i]`. -/
def slot (ht : Htable) (i : Nat) : Except HtableFault Word :=
  match (ht.table.getD [ht.perfectBit])[i]? with
  | some e => .ok e
  | none => .error .bounds

/-- `ht->table[i] = e`. -/
def put (ht : Htable) (i : Nat) (e : Word) : Except HtableFault Htable :=
  match ht.table with
  | some t => if i < t.length then .ok { ht with table := some (t.set i e) } else .error .bounds
  | none => if i = 0 then .ok { ht with perfectBit := e } else .error .bounds

/-- `get_extra_ptr_bits()`. -/
def getExtraPtrBits (ht : Htable) (e : Word) : Word := e &&& ht.commonMask

/-- `get_raw_ptr()`. -/
def getRawPtr (ht : Htable) (e : Word) : Word := (e &&& ~~~ht.commonMask) ||| ht.commonBits

/-- `make_hval()`. -/
def makeHval (ht : Htable) (p bits : Word) : Word := (p &&& ~~~ht.commonMask) ||| bits

/-- `get_hash_ptr_bits()`. -/
def getHashPtrBits (ht : Htable) (hash : Word) : Word :=
  (hash ^^^ (hash >>> ht.bits)) &&& ht.commonMask &&& ~~~ht.perfectBit

/-- `hash_bucket()`. -/
def hashBucket (ht : Htable) (h : Word) : Nat := h.toNat &&& (2 ^ ht.bits - 1)

/-- The next place of the circle. -/
def nextOff (ht : Htable) (off : Nat) : Nat := (off + 1) &&& (2 ^ ht.bits - 1)

end Htable

/-- `entry_is_valid()`. -/
def entryIsValid (e : Word) : Bool := decide (1 < e)

/-- The loop of `htable_val`. Once around, and it is back where it was. -/
def htableValLoop (ht : Htable) (perfect : Word) :
    Nat → HtableIter → Word → Except HtableFault (Option Word × HtableIter)
  | 0, _, _ => .error .endless
  | fuel + 1, off, h2 => do
    let e ← ht.slot off
    if e = 0 then .ok (none, off)
    else if e ≠ 1 ∧ ht.getExtraPtrBits e = h2 then .ok (some (ht.getRawPtr e), off)
    else htableValLoop ht perfect fuel (ht.nextOff off) (h2 &&& ~~~perfect)

/-- `htable_val()`. -/
def htableVal (ht : Htable) (off : HtableIter) (hash perfect : Word) :
    Except HtableFault (Option Word × HtableIter) :=
  htableValLoop ht perfect (2 ^ ht.bits + 1) off (ht.getHashPtrBits hash ||| perfect)

/-- `htable_firstval()`. -/
def htableFirstval (ht : Htable) (hash : Word) : Except HtableFault (Option Word × HtableIter) :=
  htableVal ht (ht.hashBucket hash) hash ht.perfectBit

/-- `htable_nextval()`. -/
def htableNextval (ht : Htable) (i : HtableIter) (hash : Word) :
    Except HtableFault (Option Word × HtableIter) :=
  htableVal ht (ht.nextOff i) hash 0

/-- The loop of `htable_first` and `htable_next`, with the slots that are left. -/
def htableNextLoop (ht : Htable) : Nat → HtableIter → Except HtableFault (Option Word × HtableIter)
  | 0, off => .ok (none, off)
  | left + 1, off => do
    let e ← ht.slot off
    if entryIsValid e then .ok (some (ht.getRawPtr e), off)
    else htableNextLoop ht left (off + 1)

/-- `htable_first()`. -/
def htableFirst (ht : Htable) : Except HtableFault (Option Word × HtableIter) :=
  htableNextLoop ht (2 ^ ht.bits) 0

/-- `htable_next()`. -/
def htableNext (ht : Htable) (i : HtableIter) : Except HtableFault (Option Word × HtableIter) :=
  htableNextLoop ht (2 ^ ht.bits - (i + 1)) (i + 1)

/-- The loop of `ht_add`: where to put the entry, and its perfect bit. -/
def htAddLoop (ht : Htable) : Nat → Nat → Word → Except HtableFault (Nat × Word)
  | 0, _, _ => .error .endless
  | fuel + 1, i, perfect => do
    let e ← ht.slot i
    if entryIsValid e then htAddLoop ht fuel (ht.nextOff i) 0 else .ok (i, perfect)

/-- `ht_add()`. -/
def htAdd (ht : Htable) (new h : Word) : Except HtableFault Htable := do
  let (i, perfect) ← htAddLoop ht (2 ^ ht.bits) (ht.hashBucket h) ht.perfectBit
  ht.put i (ht.makeHval new (ht.getHashPtrBits h ||| perfect))

/-- "If we lost our "perfect bit", get it back now." -/
def Htable.regainPerfect (ht : Htable) : Htable :=
  if ht.perfectBit = 0 ∧ ht.commonMask ≠ 0 then
    match (List.range 64).find? fun i => ht.commonMask &&& ((1 : Word) <<< i) ≠ 0 with
    | some i => { ht with perfectBit := (1 : Word) <<< i }
    | none => ht
  else ht

/-- `double_table()`; `none` if there is no memory for it, which there never is for 2³¹ entries:
`1 << (ht->bits+1)` is negative then. -/
def doubleTable (rehash : Word → Word) (calloc : Bool) (ht : Htable) :
    Except HtableFault (Option Htable) := do
  if calloc = false ∨ 31 ≤ ht.bits + 1 then .ok none
  else
    let new := Htable.regainPerfect { ht with
      table := some (List.replicate (2 ^ (ht.bits + 1)) 0)
      bits := ht.bits + 1
      max := 3 * 2 ^ (ht.bits + 1) / 4
      maxWithDeleted := 9 * 2 ^ (ht.bits + 1) / 10 }
    let new ← (ht.table.getD []).foldlM (fun (new : Htable) e =>
      if entryIsValid e then htAdd new (new.getRawPtr e) (rehash (new.getRawPtr e)) else .ok new) new
    .ok (some { new with deleted := 0 })

/-- One turn of the loop of `rehash_table`. -/
def rehashSlot (rehash : Word → Word) (ht : Htable) (h : Nat) : Except HtableFault Htable := do
  let e ← ht.slot h
  if e = 0 then .ok ht
  else if e = 1 then ht.put h 0
  else if e &&& ht.perfectBit = 0 then do
    let p := ht.getRawPtr e
    let ht ← ht.put h 0
    htAdd ht p (rehash p)
  else .ok ht

/-- `rehash_table()`. -/
def rehashTable (rehash : Word → Word) (ht : Htable) : Except HtableFault Htable := do
  match (ht.table.getD [ht.perfectBit]).findIdx? (· = 0) with
  | none => .error .bounds
  | some start => do
    let ht ← (List.range (2 ^ ht.bits)).foldlM
      (fun ht i => rehashSlot rehash ht ((i + start) &&& (2 ^ ht.bits - 1))) ht
    .ok { ht with deleted := 0 }

/-- The highest bit of an address, as `update_common` looks for it. -/
def highBit (p : Word) : Nat → Nat
  | 0 => 0
  | i + 1 => if p &&& ((1 : Word) <<< (i + 1)) ≠ 0 then i + 1 else highBit p i

/-- `update_common()`. -/
def updateCommon (ht : Htable) (p : Word) : Htable :=
  if ht.elems = 0 then
    let commonMask := ~~~((1 : Word) <<< highBit p 63)
    { ht with commonMask := commonMask, commonBits := p &&& commonMask, perfectBit := 1 }
  else
    let maskdiff := ht.commonBits ^^^ (p &&& ht.commonMask)
    let bitsdiff := ht.commonBits &&& maskdiff
    { ht with
      table := ht.table.map fun t => t.map fun e =>
        if entryIsValid e then (e &&& ~~~maskdiff) ||| bitsdiff else e
      commonMask := ht.commonMask &&& ~~~maskdiff
      commonBits := ht.commonBits &&& ~~~maskdiff
      perfectBit := ht.perfectBit &&& ~~~maskdiff }

/-- `htable_add()`, from where the table is large enough. -/
def htableAddRoom (rehash : Word → Word) (ht : Htable) (hash p : Word) :
    Except HtableFault Htable := do
  let ht ← (if ht.maxWithDeleted < ht.elems + 1 + ht.deleted then rehashTable rehash ht else .ok ht)
  if p = 0 then .error .assertion
  else
    let ht := if p &&& ht.commonMask ≠ ht.commonBits then updateCommon ht p else ht
    let ht ← htAdd ht p hash
    .ok { ht with elems := ht.elems + 1 }

/-- `htable_add()`: whether it was added. -/
def htableAdd (rehash : Word → Word) (calloc : Bool) (ht : Htable) (hash p : Word) :
    Except HtableFault (Bool × Htable) := do
  let doubled ← (if ht.max < ht.elems + 1 then doubleTable rehash calloc ht else .ok (some ht))
  match doubled with
  | none => .ok (false, ht)
  | some ht => do
    let ht ← htableAddRoom rehash ht hash p
    .ok (true, ht)

/-- `htable_delval()`. -/
def htableDelval (ht : Htable) (i : HtableIter) : Except HtableFault Htable := do
  if 2 ^ ht.bits ≤ i then .error .assertion
  else
    let e ← ht.slot i
    if entryIsValid e then
      let ht ← ht.put i 1
      .ok { ht with elems := ht.elems - 1, deleted := ht.deleted + 1 }
    else .error .assertion

/-- The loop of `htable_del`. -/
def htableDelLoop (ht : Htable) (h p : Word) :
    Nat → Option Word × HtableIter → Except HtableFault (Bool × Htable)
  | 0, _ => .error .endless
  | fuel + 1, (c, i) =>
    match c with
    | none => .ok (false, ht)
    | some c =>
      if c = p then do
        let ht ← htableDelval ht i
        .ok (true, ht)
      else do
        let r ← htableNextval ht i h
        htableDelLoop ht h p fuel r

/-- `htable_del()`. -/
def htableDel (ht : Htable) (h p : Word) : Except HtableFault (Bool × Htable) := do
  let r ← htableFirstval ht h
  htableDelLoop ht h p (2 ^ ht.bits + 1) r

/-- What a loop over `htable_nextval` goes through. -/
def htableValsLoop (ht : Htable) (hash : Word) :
    Nat → Option Word × HtableIter → Except HtableFault (List (Word × HtableIter))
  | 0, _ => .error .endless
  | fuel + 1, (c, i) =>
    match c with
    | none => .ok []
    | some c => do
      let r ← htableNextval ht i hash
      let rest ← htableValsLoop ht hash fuel r
      .ok ((c, i) :: rest)

/-- What a loop over `htable_firstval` and `htable_nextval` goes through. -/
def htableVals (ht : Htable) (hash : Word) : Except HtableFault (List (Word × HtableIter)) := do
  let r ← htableFirstval ht hash
  htableValsLoop ht hash (2 ^ ht.bits + 1) r

/-- What a loop over `htable_next` goes through. -/
def htableAllLoop (ht : Htable) :
    Nat → Option Word × HtableIter → Except HtableFault (List Word)
  | 0, _ => .error .endless
  | fuel + 1, (c, i) =>
    match c with
    | none => .ok []
    | some c => do
      let r ← htableNext ht i
      let rest ← htableAllLoop ht fuel r
      .ok (c :: rest)

/-- What a loop over `htable_first` and `htable_next` goes through. -/
def htableAll (ht : Htable) : Except HtableFault (List Word) := do
  let r ← htableFirst ht
  htableAllLoop ht (2 ^ ht.bits + 1) r

end Pettycoin
