import Mathlib.Data.UInt
import Mathlib.Data.Fintype.Basic
import Mathlib.Data.List.Pairwise
import Pettycoin.Lib.SlotTable

/-!
# Pettycoin — the peer cache

`peer_cache.c`: a table of peer addresses in memory, and a file that every change is written
to. An address has its slot by a hash that is seeded with random bytes, and these change when
the file is created anew. When that is done because the file was corrupt, the table in memory
keeps what was read from it; otherwise both stay what they should be over any run
(`peer_cache_consistent_iff`).

* `rightFor_of_write` — a slot that is written is right for its address;
* `CacheConsistent.one`, `CacheConsistent.all` — one call, and all;
* `start_consistent_iff` — the first state;
* `peer_cache_consistent_iff` — every state.
-/

namespace Pettycoin

open SlotTable

-- ---------------------------------------------------------------------------
-- Records and tables
-- ---------------------------------------------------------------------------

/-- `struct protocol_net_address`. -/
structure NetAddress where
  time : UInt32
  addr : Vector UInt8 16
  port : UInt16
  unused : UInt16
  uuid : Vector UInt8 16
deriving DecidableEq

/-- What `memset` leaves of an address, and `ftruncate` puts into the file. -/
def NetAddress.zero : NetAddress := ⟨0, Vector.replicate 16 0, 0, 0, Vector.replicate 16 0⟩

/-- The number of a slot: there are `1 << PEER_HASH_BITS`. -/
abbrev PeerSlot : Type := Fin (1 <<< 12)

/-- `struct peer_cache_file`. -/
structure PeerCacheFile where
  randbytes : UInt64
  h : PeerSlot → NetAddress

/-- A table with no addresses. -/
def PeerCacheFile.new (randbytes : UInt64) : PeerCacheFile := ⟨randbytes, fun _ => .zero⟩

/-- `struct peer_cache`, with the file that `fd` is open for. -/
structure PeerCache where
  file : PeerCacheFile
  disk : PeerCacheFile

/-- `is_zero_addr()`. -/
def isZeroAddr (addr : NetAddress) : Bool := decide (∀ i, addr.addr.get i = 0)

/-- `same_address()`. -/
def sameAddress (a b : NetAddress) : Bool := a.addr = b.addr ∧ a.port = b.port

def PEER_CACHE_MAXSECS : Nat := 3 * 60 * 60

def PEER_CACHE_PEER_EXTRA : Nat := 30 * 60

/-- `hash64(addr->addr, sizeof(addr->addr), base)`. -/
abbrev AddrHash : Type := Vector UInt8 16 → UInt64 → UInt64

section Model

variable (hash64 : AddrHash)

/-- `peer_hash_entry()`: the hash is cut to a `u32` first. -/
def peerHashEntry (file : PeerCacheFile) (addr : NetAddress) : PeerSlot :=
  Fin.ofNat _ (hash64 addr.addr (file.randbytes + addr.port.toUInt64)).toUInt32.toNat

/-- `check_peer_cache()`; the clock is cut to a `u32`. -/
def checkPeerCache (now : Nat) (file : PeerCacheFile) : Bool :=
  decide (∀ i, isZeroAddr (file.h i) = true ∨
    (file.h i).time ≤ UInt32.ofNat now ∧ peerHashEntry hash64 file (file.h i) = i)

-- ---------------------------------------------------------------------------
-- The start
-- ---------------------------------------------------------------------------

/-- What `open()` and `read()` find. -/
inductive PeerCacheFound
  /-- There is no file. -/
  | absent
  /-- The file is too short, or cannot be read; `left` is what the memory holds then. -/
  | short (left : PeerCacheFile)
  /-- The file is as long as it should be, or longer. -/
  | whole (file : PeerCacheFile)

/-- `init_peer_cache()`. `locked` is `get_lock()` on a file that is there, and `created` are the
random bytes of `new_peer_cache()`, if that succeeds; `none` is `fatal()`. -/
def initPeerCache (now : Nat) (locked : Bool) (created : Option UInt64) :
    PeerCacheFound → Option PeerCache
  | .absent => created.map fun randbytes => ⟨.new randbytes, .new randbytes⟩
  | .short left =>
    if locked then
      created.map fun randbytes => ⟨{ left with randbytes := randbytes }, .new randbytes⟩
    else none
  | .whole file =>
    if locked then
      if checkPeerCache hash64 now file then some ⟨file, file⟩
      else created.map fun randbytes => ⟨{ file with randbytes := randbytes }, .new randbytes⟩
    else none

-- ---------------------------------------------------------------------------
-- The calls
-- ---------------------------------------------------------------------------

/-- What a call changes. -/
inductive CacheChange
  | nothing
  /-- A slot's record, and then `update_on_disk()`. -/
  | write (i : PeerSlot) (a : NetAddress)
  /-- A slot is emptied, without `update_on_disk()`. -/
  | remove (i : PeerSlot)

/-- `peer_cache_update_uuid()`. -/
def peerCacheUpdateUuid (file : PeerCacheFile) (addr : NetAddress) : CacheChange :=
  let i := peerHashEntry hash64 file addr
  if sameAddress (file.h i) addr then .write i { file.h i with uuid := addr.uuid } else .nothing

/-- `peer_cache_refresh()`. -/
def peerCacheRefresh (file : PeerCacheFile) (addr : NetAddress) (clock : Nat) : CacheChange :=
  .write (peerHashEntry hash64 file addr) { addr with time := UInt32.ofNat clock }

/-- The timestamp that `peer_cache_add()` stores; `time(NULL)` is called for each comparison and
for the assignment. -/
def peerCacheTimestamp (timestamp : UInt32) (clock1 clock2 : Nat) : UInt32 :=
  if timestamp.toNat > clock1 then UInt32.ofNat clock2
  else if (timestamp.toNat : Int) < (clock2 : Int) - PEER_CACHE_MAXSECS then 0
  else timestamp - UInt32.ofNat PEER_CACHE_PEER_EXTRA

/-- `peer_cache_add()`; `coin` is `isaac64_next_uint(isaac64, 2)`. -/
def peerCacheAdd (file : PeerCacheFile) (addr : NetAddress) (coin clock0 clock1 clock2 : Nat) :
    CacheChange :=
  let i := peerHashEntry hash64 file addr
  if sameAddress (file.h i) addr then .nothing
  -- don't ever replace a very new entry
  else if ((file.h i).time.toNat : Int) > (clock0 : Int) - PEER_CACHE_PEER_EXTRA then .nothing
  else if !isZeroAddr (file.h i) && coin ≠ 0 then .nothing
  else .write i { addr with time := peerCacheTimestamp addr.time clock1 clock2 }

/-- `peer_cache_del()`. -/
def peerCacheDel (file : PeerCacheFile) (addr : NetAddress) (delOnDisk : Bool) : CacheChange :=
  let i := peerHashEntry hash64 file addr
  if sameAddress (file.h i) addr then
    if delOnDisk then .write i .zero else .remove i
  else .nothing

/-- A call of one of the four functions. -/
inductive CacheOp
  | add (addr : NetAddress) (coin : Nat)
  | refresh (addr : NetAddress)
  | updateUuid (addr : NetAddress)
  | del (addr : NetAddress) (delOnDisk : Bool)

/-- A call, with what it reads from the clock, and with what stands in the file if `write()`
came short. -/
structure CacheCall where
  op : CacheOp
  clock0 : Nat
  clock1 : Nat
  clock2 : Nat
  trouble : Option NetAddress

/-- What the call changes. -/
def CacheCall.change (call : CacheCall) (file : PeerCacheFile) : CacheChange :=
  match call.op with
  | .add addr coin => peerCacheAdd hash64 file addr coin call.clock0 call.clock1 call.clock2
  | .refresh addr => peerCacheRefresh hash64 file addr call.clock2
  | .updateUuid addr => peerCacheUpdateUuid hash64 file addr
  | .del addr delOnDisk => peerCacheDel hash64 file addr delOnDisk

/-- The cache, and which slots were last changed by a deletion in memory only. -/
structure CacheState where
  cache : PeerCache
  gone : PeerSlot → Bool

/-- The change is made, with `update_on_disk()`. -/
def CacheState.apply (s : CacheState) (trouble : Option NetAddress) : CacheChange → CacheState
  | .nothing => s
  | .write i a =>
    { cache :=
        { file := { s.cache.file with h := Function.update s.cache.file.h i a }
          disk := { s.cache.disk with h := Function.update s.cache.disk.h i (trouble.getD a) } }
      gone := Function.update s.gone i false }
  | .remove i =>
    { cache :=
        { s.cache with
          file := { s.cache.file with h := Function.update s.cache.file.h i .zero } }
      gone := Function.update s.gone i true }

/-- One call. -/
def CacheState.call (s : CacheState) (call : CacheCall) : CacheState :=
  s.apply call.trouble (call.change hash64 s.cache.file)

/-- One call after the other. -/
def CacheState.calls (s : CacheState) (calls : List CacheCall) : CacheState :=
  calls.foldl (CacheState.call hash64) s

/-- The cache as `init_peer_cache()` leaves it. -/
def CacheState.start (cache : PeerCache) : CacheState := ⟨cache, fun _ => false⟩

/-- What is read from the clock, from the start of the daemon until `later`. -/
def clockReadings (start : Nat) (calls : List CacheCall) (later : Nat) : List Nat :=
  start :: (calls.flatMap fun call => [call.clock0, call.clock1, call.clock2]) ++ [later]

-- ---------------------------------------------------------------------------
-- What is expected of the cache, and when it holds
-- ---------------------------------------------------------------------------

/-- The table in memory passes `check_peer_cache()`, and the file is the same but for the
deletions that were made in memory only. -/
structure CacheConsistent (now : Nat) (s : CacheState) : Prop where
  check : checkPeerCache hash64 now s.cache.file = true
  seed : s.cache.disk.randbytes = s.cache.file.randbytes
  through : Through .zero s.gone s.cache.file.h s.cache.disk.h

/-- There was no file, or it was not corrupt, or it was and has left nothing in memory. -/
def CleanStart (now : Nat) : PeerCacheFound → Prop
  | .absent => True
  | .short left => ∀ i, left.h i = .zero
  | .whole file => checkPeerCache hash64 now file = true

end Model

/-- `write()` writes the whole record; and an address whose time is neither in the future nor
more than three hours back has a time that can be put back by half an hour, and is then not
past what the clock shows in 32 bits. -/
structure CacheCall.Meets (call : CacheCall) : Prop where
  written : call.trouble = none
  aged : ∀ addr coin, call.op = .add addr coin → addr.time.toNat ≤ call.clock1 →
    (call.clock2 : Int) - PEER_CACHE_MAXSECS ≤ addr.time.toNat →
    PEER_CACHE_PEER_EXTRA ≤ addr.time.toNat ∧
      addr.time.toNat - PEER_CACHE_PEER_EXTRA ≤ call.clock2 % 2 ^ 32

/-- Every call is as it should be, and what the clock shows in 32 bits never goes back. -/
structure CallsMeet (start : Nat) (calls : List CacheCall) (later : Nat) : Prop where
  each : ∀ call ∈ calls, call.Meets
  clock : (clockReadings start calls later).Pairwise (· % 2 ^ 32 ≤ · % 2 ^ 32)

-- ---------------------------------------------------------------------------
-- One call
-- ---------------------------------------------------------------------------

section Steps

variable {hash64 : AddrHash} {file : PeerCacheFile} {now later : Nat} {i : PeerSlot}
  {a addr : NetAddress} {call : CacheCall} {s : CacheState} {calls : List CacheCall}

/-- The record is right for the slot: it is none, or has its slot there and a time that is not
in the future. -/
def RightFor (hash64 : AddrHash) (file : PeerCacheFile) (now : Nat) (i : PeerSlot)
    (a : NetAddress) : Prop :=
  isZeroAddr a = true ∨ a.time.toNat ≤ now % 2 ^ 32 ∧ peerHashEntry hash64 file a = i

theorem checkPeerCache_iff :
    checkPeerCache hash64 now file = true ↔ Placed (RightFor hash64 file now) file.h := by
  rw [checkPeerCache, decide_eq_true_eq]
  refine forall_congr' fun i => or_congr_right (and_congr_left fun _ => ?_)
  rw [UInt32.le_iff_toNat_le, UInt32.toNat_ofNat']

theorem rightFor_zero : RightFor hash64 file now i .zero := .inl (by decide)

/-- Time passes. -/
theorem RightFor.wait (hle : now % 2 ^ 32 ≤ later % 2 ^ 32)
    (h : RightFor hash64 file now i a) : RightFor hash64 file later i a :=
  h.imp_right fun h => ⟨h.1.trans hle, h.2⟩

/-- The slot is that of the address and the port, whatever the time. -/
theorem rightFor_address {time : UInt32} (htime : time.toNat ≤ now % 2 ^ 32) :
    RightFor hash64 file now (peerHashEntry hash64 file addr) { addr with time := time } :=
  .inr ⟨htime, rfl⟩

/-- What `peer_cache_add` stores is not in the future. -/
theorem peerCacheTimestamp_le {timestamp : UInt32} {clock1 clock2 : Nat}
    (haged : timestamp.toNat ≤ clock1 → (clock2 : Int) - PEER_CACHE_MAXSECS ≤ timestamp.toNat →
      PEER_CACHE_PEER_EXTRA ≤ timestamp.toNat ∧
        timestamp.toNat - PEER_CACHE_PEER_EXTRA ≤ clock2 % 2 ^ 32) :
    (peerCacheTimestamp timestamp clock1 clock2).toNat ≤ clock2 % 2 ^ 32 := by
  unfold peerCacheTimestamp
  split
  · rw [UInt32.toNat_ofNat']
  · rename_i hpast
    split
    · exact Nat.zero_le _
    · rename_i hrecent
      obtain ⟨hextra, hle⟩ := haged (Nat.le_of_not_gt hpast) (Int.not_lt.mp hrecent)
      have hsmall : (UInt32.ofNat PEER_CACHE_PEER_EXTRA).toNat = PEER_CACHE_PEER_EXTRA := rfl
      rw [UInt32.toNat_sub_of_le _ _ (UInt32.le_iff_toNat_le.mpr (by rw [hsmall]; exact hextra)),
        hsmall]
      exact hle

/-- Whatever a call writes is right for its slot. -/
theorem rightFor_of_write (hmeets : call.Meets)
    (hplaced : Placed (RightFor hash64 file call.clock2) file.h)
    (h : call.change hash64 file = .write i a) : RightFor hash64 file call.clock2 i a := by
  unfold CacheCall.change at h
  split at h
  · rename_i addr coin hop
    unfold peerCacheAdd at h
    dsimp only at h
    split at h
    · cases h
    · split at h
      · cases h
      · split at h
        · cases h
        · obtain ⟨rfl, rfl⟩ := CacheChange.write.inj h
          exact rightFor_address (peerCacheTimestamp_le (hmeets.aged _ _ hop))
  · obtain ⟨rfl, rfl⟩ := CacheChange.write.inj h
    refine rightFor_address ?_
    rw [UInt32.toNat_ofNat']
  · rename_i addr hop
    unfold peerCacheUpdateUuid at h
    dsimp only at h
    split at h
    · -- the record that is there keeps its address, its port and its time
      obtain ⟨rfl, rfl⟩ := CacheChange.write.inj h
      exact hplaced (peerHashEntry hash64 file addr)
    · cases h
  · unfold peerCacheDel at h
    dsimp only at h
    split at h
    · split at h
      · obtain ⟨rfl, rfl⟩ := CacheChange.write.inj h
        exact rightFor_zero
      · cases h
    · cases h

/-- **One call keeps the cache consistent.** -/
theorem CacheConsistent.one (h : CacheConsistent hash64 call.clock2 s) (hmeets : call.Meets) :
    CacheConsistent hash64 call.clock2 (s.call hash64 call) := by
  have hplaced := checkPeerCache_iff.mp h.check
  unfold CacheState.call
  cases hchange : call.change hash64 s.cache.file with
  | nothing => exact h
  | write i a =>
    have hright := rightFor_of_write hmeets hplaced hchange
    rw [hmeets.written]
    exact ⟨checkPeerCache_iff.mpr (hplaced.update hright), h.seed, h.through.write i a⟩
  | remove i =>
    exact ⟨checkPeerCache_iff.mpr (hplaced.update rightFor_zero), h.seed, h.through.remove i⟩

/-- So does waiting. -/
theorem CacheConsistent.wait (h : CacheConsistent hash64 now s)
    (hle : now % 2 ^ 32 ≤ later % 2 ^ 32) : CacheConsistent hash64 later s :=
  ⟨checkPeerCache_iff.mpr ((checkPeerCache_iff.mp h.check).mono fun _ _ => RightFor.wait hle),
    h.seed, h.through⟩

/-- And any number of calls. -/
theorem CacheConsistent.all (h : CacheConsistent hash64 now s)
    (hmeet : CallsMeet now calls later) :
    CacheConsistent hash64 later (s.calls hash64 calls) := by
  induction calls generalizing s now with
  | nil => exact h.wait ((List.pairwise_cons.mp hmeet.clock).1 later List.mem_cons_self)
  | cons call calls ih =>
    obtain ⟨hmeets, hcalls⟩ := List.forall_mem_cons.mp hmeet.each
    obtain ⟨hfirst, hrest⟩ := List.pairwise_cons.mp hmeet.clock
    -- the readings from the last one of this call on
    have hclock : (clockReadings call.clock2 calls later).Pairwise (· % 2 ^ 32 ≤ · % 2 ^ 32) :=
      (List.pairwise_cons.mp (List.pairwise_cons.mp hrest).2).2
    have hle : now % 2 ^ 32 ≤ call.clock2 % 2 ^ 32 :=
      hfirst _ (List.mem_cons_of_mem _ (List.mem_cons_of_mem _ List.mem_cons_self))
    exact ih ((h.wait hle).one hmeets) ⟨hcalls, hclock⟩

-- ---------------------------------------------------------------------------
-- Whole runs
-- ---------------------------------------------------------------------------

variable {found : PeerCacheFound} {locked : Bool} {created : Option UInt64} {cache : PeerCache}
  {start : Nat}

theorem checkPeerCache_of_zero (hzero : ∀ i, file.h i = .zero) :
    checkPeerCache hash64 now file = true :=
  checkPeerCache_iff.mpr fun i => by
    rw [hzero i]
    exact rightFor_zero

/-- A file that was made anew, and the table that was in memory. -/
theorem newPeerCache_consistent_iff {randbytes : UInt64} :
    CacheConsistent hash64 now
        (.start ⟨{ file with randbytes := randbytes }, .new randbytes⟩) ↔
      ∀ i, file.h i = .zero := by
  constructor
  · intro h i
    exact (h.through.same i rfl).symm
  · intro hzero
    have hsame : (PeerCacheFile.new randbytes).h = file.h := funext fun i => (hzero i).symm
    refine ⟨checkPeerCache_of_zero hzero, rfl, ?_⟩
    show Through .zero _ file.h (PeerCacheFile.new randbytes).h
    rw [hsame]
    exact .refl _

/-- The cache is consistent when the daemon has started exactly if it started clean. -/
theorem start_consistent_iff
    (h : initPeerCache hash64 start locked created found = some cache) :
    CacheConsistent hash64 start (.start cache) ↔ CleanStart hash64 start found := by
  cases found with
  | absent =>
    obtain ⟨randbytes, -, rfl⟩ := Option.map_eq_some_iff.mp h
    exact iff_of_true ⟨checkPeerCache_of_zero fun _ => rfl, rfl, .refl _⟩ trivial
  | short left =>
    rw [initPeerCache] at h
    split at h
    · obtain ⟨randbytes, -, rfl⟩ := Option.map_eq_some_iff.mp h
      exact newPeerCache_consistent_iff
    · cases h
  | whole file =>
    rw [initPeerCache] at h
    split at h
    · split at h
      · rename_i hcheck
        obtain rfl := Option.some.inj h
        exact iff_of_true ⟨hcheck, rfl, .refl _⟩ hcheck
      · rename_i hcheck
        obtain ⟨randbytes, -, rfl⟩ := Option.map_eq_some_iff.mp h
        -- a corrupt file has left something
        rw [newPeerCache_consistent_iff]
        exact iff_of_false (fun hzero => hcheck (checkPeerCache_of_zero hzero)) hcheck
    · cases h

/-- **The peer cache is consistent at all times exactly if it starts clean.** At all times: after
any calls with addresses from anywhere, if these are as they should be and the clock never goes
back. -/
theorem peer_cache_consistent_iff
    (h : initPeerCache hash64 start locked created found = some cache) :
    (∀ calls later, CallsMeet start calls later →
        CacheConsistent hash64 later ((CacheState.start cache).calls hash64 calls)) ↔
      CleanStart hash64 start found := by
  rw [← start_consistent_iff h]
  constructor
  · intro hall
    have hmeet : CallsMeet start [] start :=
      ⟨fun call hcall => absurd hcall List.not_mem_nil, by
        rw [clockReadings, List.flatMap_nil, List.singleton_append, List.pairwise_pair]⟩
    exact hall [] start hmeet
  · intro hstart calls later hmeet
    exact hstart.all hmeet

end Steps

/-- An address that was seen in 2014. -/
def peerAddress : NetAddress :=
  ⟨1400000000, Vector.replicate 16 1, 8333, 0, Vector.replicate 16 0⟩

/-- It is added to a new cache, ten minutes later. -/
theorem peer_cache_consistent_added :
    CacheConsistent (fun _ _ => 0) 1400000601
      ((CacheState.start ⟨.new 7, .new 7⟩).calls (fun _ _ => 0)
        [⟨.add peerAddress 0, 1400000600, 1400000600, 1400000601, none⟩]) := by
  have hinit : initPeerCache (fun _ _ => 0) 1400000000 true (some 7) .absent =
      some ⟨.new 7, .new 7⟩ := rfl
  refine (peer_cache_consistent_iff hinit).mpr trivial _ _ ⟨?_, by decide⟩
  intro call hcall
  obtain rfl := List.mem_singleton.mp hcall
  refine ⟨rfl, ?_⟩
  rintro addr coin hop - -
  obtain ⟨rfl, -⟩ := CacheOp.add.inj hop
  decide

/-- A table with that address in slot 1. -/
def strayTable : PeerSlot → NetAddress := Function.update (fun _ => .zero) 1 peerAddress

/-- A file of the right length with an address in slot 1 that belongs in slot 0: the file is made
anew and is empty, and the address stays in memory, in slot 1. -/
theorem peer_cache_leftover :
    initPeerCache (fun _ _ => 0) 1400000000 true (some 7) (.whole ⟨5, strayTable⟩) =
        some ⟨⟨7, strayTable⟩, .new 7⟩ ∧
      checkPeerCache (fun _ _ => 0) 1400000000 ⟨7, strayTable⟩ = false ∧
      (PeerCacheFile.new 7).h 1 ≠ strayTable 1 ∧
      ¬ CacheConsistent (fun _ _ => 0) 1400000000 (.start ⟨⟨7, strayTable⟩, .new 7⟩) := by
  have hone : strayTable 1 = peerAddress := Function.update_self ..
  have hcheck : ∀ randbytes,
      checkPeerCache (fun _ _ => 0) 1400000000 ⟨randbytes, strayTable⟩ = false := by
    intro randbytes
    refine decide_eq_false fun hall => ?_
    have hright := hall 1
    dsimp only at hright
    rw [hone] at hright
    rcases hright with hzero | ⟨-, hslot⟩
    · exact absurd hzero (by decide)
    · have hwrong : (0 : PeerSlot) = 1 := hslot
      exact absurd hwrong (by decide)
  refine ⟨?_, hcheck 7, ?_, ?_⟩
  · rw [initPeerCache, if_pos rfl, if_neg (by rw [hcheck]; exact Bool.false_ne_true)]
    rfl
  · rw [hone]
    decide
  · intro h
    exact absurd (h.check.symm.trans (hcheck 7)) (by decide)

end Pettycoin
