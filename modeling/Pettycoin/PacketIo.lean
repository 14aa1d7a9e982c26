import Pettycoin.Blockfile

/-!
# Pettycoin — packets off a stream

`read_packet_part` of `packet_io.c` reads a packet as the bytes come in: first
the length, into the scratch space of the plan, then the rest, into a packet of
that length. Where it is it tells by what the packet pointer points to.

Whatever the pieces are that the bytes come in, the packets that are delivered
are those that the lengths cut the stream into (`readCalls_cut`), and one is
delivered as soon as its last byte is there.

* `readPacketPart_called` — one call;
* `readerAt_of_calls` — any calls;
* `Holds.cutPackets` — the packets there are in what was read;
* `readCalls_cut` — delivered in order, and at their last byte.
-/

namespace Pettycoin

open PosixFile ExceptRules

-- ---------------------------------------------------------------------------
-- packet_io.c
-- ---------------------------------------------------------------------------

/-- Where the packet pointer points to: the scratch space, or what was allocated.
A byte that was not written yet is `none`. -/
inductive PktPtr
  | null
  | u2 (off : Nat)
  | heap (mem : List (Option UInt8))

/-- The scratch space `u2`, by the member that was written last. -/
inductive PlanU2
  | c (mem : List (Option UInt8))
  | s (off : Nat)

/-- `struct io_plan`, with what `u1.vp` points to. -/
structure ReadPlan where
  pkt : PktPtr
  u2 : PlanU2

/-- What would be undefined. -/
inductive ReadFault
  /-- A byte is read that was never written. -/
  | uninitialised
  /-- The other member of `u2` is read. -/
  | wrongMember
  /-- The packet pointer points past the length. -/
  | wildPointer
deriving DecidableEq

/-- Why a read fails. -/
inductive ReadErrno
  | enospc
  | einval
  /-- `read()` returned zero or less. -/
  | read
deriving DecidableEq

/-- What `read_packet_part` returns: 0, 1, or -1. -/
inductive ReadRet
  | again
  | done
  | failed (errno : ReadErrno)
deriving DecidableEq

/-- `sizeof(plan->u2)`. -/
def sizeofPlanU2 : Nat := 8

/-- Bytes are written to memory. -/
def writeAt (mem : List (Option UInt8)) (off : Nat) (bytes : List UInt8) : List (Option UInt8) :=
  mem.take off ++ bytes.map some ++ mem.drop (off + bytes.length)

/-- Memory is read. -/
def readMem (mem : List (Option UInt8)) : Except ReadFault (List UInt8) :=
  match mem.mapM id with
  | some bytes => .ok bytes
  | none => .error .uninitialised

/-- The rest of `read_packet_part`, once the packet is allocated. What `read()` returns is
at most `piece` bytes. -/
def readPacketBody (mem : List (Option UInt8)) (s : Nat) (stream : List UInt8) (piece : Nat) :
    Except ReadFault (ReadRet × ReadPlan × List UInt8) := do
  -- Read length from packet header.
  let len ← readMem (mem.take 4)
  let max := (le32At len 0).toNat
  let bytes := stream.take (min piece (max - s))
  if bytes = [] then .ok (.failed .read, ⟨.heap mem, .s s⟩, stream)
  else
    let s' := s + bytes.length
    .ok (if s' = max then .done else .again, ⟨.heap (writeAt mem s bytes), .s s'⟩,
      stream.drop bytes.length)

/-- `read_packet_part()`, with the bytes that are still to come. -/
def readPacketPart (plan : ReadPlan) (stream : List UInt8) (piece : Nat) :
    Except ReadFault (ReadRet × ReadPlan × List UInt8) :=
  -- Now we have the actual plan, we can point into it to store len.
  let pkt := match plan.pkt with
    | .null => PktPtr.u2 0
    | pkt => pkt
  match pkt, plan.u2 with
  | .u2 off, .c mem =>
    -- Still reading len?
    if off < 4 then
      let bytes := stream.take (min piece (4 - off))
      if bytes = [] then .ok (.failed .read, ⟨.u2 off, .c mem⟩, stream)
      else .ok (.again, ⟨.u2 (off + bytes.length), .c (writeAt mem off bytes)⟩,
        stream.drop bytes.length)
    -- Just finished reading len?  Allocate.
    else if off = 4 then do
      let bytes ← readMem (mem.take 4)
      let len := (le32At bytes 0).toNat
      -- Too big for protocol.
      if len > protocolMaxPacketLen then .ok (.failed .enospc, ⟨.u2 off, .c mem⟩, stream)
      else if len < sizeofNetHdr then .ok (.failed .einval, ⟨.u2 off, .c mem⟩, stream)
      else readPacketBody (writeAt (List.replicate len none) 0 bytes) 4 stream piece
    else .error .wildPointer
  | .heap mem, .s s => readPacketBody mem s stream piece
  | _, _ => .error .wrongMember

/-- `io_read_packet_()`: nothing is written to the scratch space yet. -/
def ioReadPacket : ReadPlan := ⟨.null, .c (List.replicate sizeofPlanU2 none)⟩

/-- A connection that reads packet after packet, until it fails. -/
structure PacketReader where
  plan : ReadPlan
  packets : List (List UInt8)
  rest : List UInt8
  failed : Option ReadErrno

/-- The next call of the plan: a packet that is complete is delivered, and the next one is
waited for. -/
def PacketReader.call (r : PacketReader) (piece : Nat) : Except ReadFault PacketReader :=
  match r.failed with
  | some _ => .ok r
  | none => do
    let (ret, plan, rest) ← readPacketPart r.plan r.rest piece
    match ret, plan.pkt with
    | .again, _ => .ok { r with plan := plan, rest := rest }
    | .failed errno, _ => .ok { r with plan := plan, rest := rest, failed := some errno }
    | .done, .heap mem => do
      let pkt ← readMem mem
      .ok { r with plan := ioReadPacket, packets := r.packets ++ [pkt], rest := rest }
    | .done, _ => .error .wildPointer

/-- The calls for a stream, each with the most that its `read()` returns. -/
def readCalls (stream : List UInt8) (pieces : List Nat) : Except ReadFault PacketReader :=
  pieces.foldlM PacketReader.call ⟨ioReadPacket, [], stream, none⟩

-- ---------------------------------------------------------------------------
-- The cuts
-- ---------------------------------------------------------------------------

/-- The length that the bytes begin with, if it is one that a packet may have. -/
def lengthSaid (bytes : List UInt8) : Option Nat :=
  let len := (le32At bytes 0).toNat
  if sizeofNetHdr ≤ len ∧ len ≤ protocolMaxPacketLen then some len else none

/-- The packets that a stream starts with, each as long as it says, and what is left. -/
def cutPackets (stream : List UInt8) : List (List UInt8) × List UInt8 :=
  match _h : lengthSaid stream with
  | none => ([], stream)
  | some len =>
    if len ≤ stream.length then
      let r := cutPackets (stream.drop len)
      (stream.take len :: r.1, r.2)
    else ([], stream)
termination_by stream.length
decreasing_by
  unfold lengthSaid sizeofNetHdr at _h
  dsimp only at _h
  split_ifs at _h with hlen
  obtain rfl := Option.some.inj _h
  rw [List.length_drop]
  omega

/-- How the stream ends for the reader: in a length that no packet may have, after which
nothing is read, or in the middle of a packet. -/
def CutEnd (tail : List UInt8) (errno : ReadErrno) (rest : List UInt8) : Prop :=
  if 4 ≤ tail.length ∧ lengthSaid tail = none then errno ≠ .read ∧ rest = tail.drop 4
  else errno = .read ∧ rest = []

variable {stream bytes held rest pkt : List UInt8} {plan : ReadPlan} {piece : Nat}

theorem lengthSaid_eq_some {len : Nat} :
    lengthSaid bytes = some len ↔
      (le32At bytes 0).toNat = len ∧ sizeofNetHdr ≤ len ∧ len ≤ protocolMaxPacketLen := by
  unfold lengthSaid
  dsimp only
  split_ifs with h
  · rw [Option.some_inj]
    exact ⟨fun heq => ⟨heq, heq ▸ h⟩, And.left⟩
  · refine iff_of_false (by simp) ?_
    rintro ⟨rfl, hlen⟩
    exact h hlen

theorem lengthSaid_append (h : 4 ≤ bytes.length) (tail : List UInt8) :
    lengthSaid (bytes ++ tail) = lengthSaid bytes := by
  unfold lengthSaid
  rw [le32At_append h]

/-- A packet in front is cut off. -/
theorem cutPackets_packet (hp : IsPacket pkt) (tail : List UInt8) :
    cutPackets (pkt ++ tail) = (pkt :: (cutPackets tail).1, (cutPackets tail).2) := by
  have hmin : 8 ≤ pkt.length := hp.min
  have hsaid : lengthSaid (pkt ++ tail) = some pkt.length := by
    rw [lengthSaid_append (by omega)]
    exact lengthSaid_eq_some.mpr ⟨hp.len, hp.min, hp.max⟩
  rw [cutPackets]
  split
  · rename_i hnone
    rw [hsaid] at hnone
    cases hnone
  · rename_i len hlen
    obtain rfl := Option.some.inj (hsaid.symm.trans hlen)
    rw [if_pos (by rw [List.length_append]; omega), List.take_left, List.drop_left]

theorem cutPackets_packets {pkts : List (List UInt8)} (hp : ∀ pkt ∈ pkts, IsPacket pkt)
    (tail : List UInt8) :
    cutPackets (pkts.flatten ++ tail) = (pkts ++ (cutPackets tail).1, (cutPackets tail).2) := by
  induction pkts with
  | nil => rfl
  | cons pkt pkts ih =>
    rw [List.flatten_cons, List.append_assoc, cutPackets_packet (hp pkt (List.mem_cons_self ..)),
      ih fun pkt hpkt => hp pkt (List.mem_cons_of_mem _ hpkt)]
    rfl

/-- No packet is complete. -/
theorem cutPackets_none (h : ∀ len, lengthSaid stream = some len → stream.length < len) :
    cutPackets stream = ([], stream) := by
  rw [cutPackets]
  split
  · rfl
  · rename_i len hlen
    rw [if_neg (Nat.not_le.mpr (h len hlen))]

-- ---------------------------------------------------------------------------
-- One call
-- ---------------------------------------------------------------------------

/-- The plan holds the beginning of a packet: part of the length, or all of it and part of
the rest. -/
inductive Holds : ReadPlan → List UInt8 → Prop
  | start : Holds ioReadPacket []
  | len (bytes : List UInt8) (mem : List (Option UInt8)) (h : bytes.length ≤ 4) :
    Holds ⟨.u2 bytes.length, .c (bytes.map some ++ mem)⟩ bytes
  | body (bytes : List UInt8) (mem : List (Option UInt8)) {len : Nat} (h : 4 ≤ bytes.length)
    (hsaid : lengthSaid bytes = some len) (hmore : bytes.length < len)
    (hlen : bytes.length + mem.length = len) :
    Holds ⟨.heap (bytes.map some ++ mem), .s bytes.length⟩ bytes

/-- What becomes of the bytes held and those to come. -/
inductive Called (held rest : List UInt8) : ReadRet × ReadPlan × List UInt8 → Prop
  | again (bytes rest' : List UInt8) (plan : ReadPlan) (hne : bytes ≠ []) (hrest : rest = bytes ++ rest')
    (h : Holds plan (held ++ bytes)) : Called held rest (.again, plan, rest')
  | done (bytes rest' : List UInt8) (off : Nat) (hne : bytes ≠ []) (hrest : rest = bytes ++ rest')
    (h : IsPacket (held ++ bytes)) :
    Called held rest (.done, ⟨.heap ((held ++ bytes).map some), .s off⟩, rest')
  | badLength (plan : ReadPlan) (errno : ReadErrno) (herrno : errno ≠ .read)
    (hfour : held.length = 4) (h : lengthSaid held = none) (hplan : Holds plan held) :
    Called held rest (.failed errno, plan, rest)
  | ended (plan : ReadPlan) (hrest : rest = []) (hplan : Holds plan held)
    (hgood : 4 ≤ held.length → lengthSaid held ≠ none) : Called held rest (.failed .read, plan, rest)

/-- What is held is never a whole packet. -/
theorem Holds.lt (h : Holds plan held) {len : Nat} (hfour : 4 ≤ held.length)
    (hsaid : lengthSaid held = some len) : held.length < len := by
  cases h with
  | start => exact absurd hfour (by simp)
  | len _ _ hle =>
    have hmin : 8 ≤ len := (lengthSaid_eq_some.mp hsaid).2.1
    omega
  | body _ _ _ hsaid' hmore _ =>
    obtain rfl := Option.some.inj (hsaid.symm.trans hsaid')
    exact hmore

theorem readMem_map (bytes : List UInt8) : readMem (bytes.map some) = .ok bytes := by
  have h : (bytes.map some).mapM id = some bytes := by
    induction bytes with
    | nil => rfl
    | cons b bytes ih =>
      rw [List.map_cons, List.mapM_cons, ih]
      rfl
  unfold readMem
  rw [h]

/-- The first bytes, where that many were written. -/
theorem readMem_take (mem : List (Option UInt8)) {n : Nat} (h : n ≤ bytes.length) :
    readMem ((bytes.map some ++ mem).take n) = .ok (bytes.take n) := by
  rw [List.take_append_of_le_length (by rwa [List.length_map]), ← List.map_take, readMem_map]

/-- Writing goes on where it left off. -/
theorem writeAt_append (held bytes : List UInt8) (mem : List (Option UInt8)) :
    writeAt (held.map some ++ mem) held.length bytes
      = (held ++ bytes).map some ++ mem.drop bytes.length := by
  unfold writeAt
  rw [List.take_left' (by simp), List.map_append,
    show held.length + bytes.length = (held.map some).length + bytes.length by simp, List.drop_append]
  simp

/-- What `read()` gives is the beginning of what is to come. -/
theorem read_spec (stream : List UInt8) {n : Nat} (hpiece : 0 < piece) (hn : 0 < n) :
    (stream.take (min piece n) = [] ∧ stream = []) ∨
      ∃ bytes rest, stream.take (min piece n) = bytes ∧ bytes ≠ [] ∧ stream = bytes ++ rest ∧
        stream.drop bytes.length = rest ∧ bytes.length ≤ n := by
  by_cases hempty : stream = []
  · exact .inl ⟨by rw [hempty, List.take_nil], hempty⟩
  · refine .inr ⟨stream.take (min piece n), stream.drop (min piece n), rfl, ?_,
      (List.take_append_drop _ _).symm, ?_, ?_⟩
    · have hpos := List.length_pos_iff.mpr hempty
      refine List.ne_nil_of_length_pos ?_
      rw [List.length_take]
      omega
    · rw [List.length_take]
      rcases Nat.le_total (min piece n) stream.length with hle | hle
      · rw [Nat.min_eq_left hle]
      · rw [Nat.min_eq_right hle, List.drop_length, List.drop_eq_nil_of_le hle]
    · rw [List.length_take]
      omega

theorem lengthSaid_take (h : 4 ≤ bytes.length) : lengthSaid (bytes.take 4) = lengthSaid bytes := by
  conv_rhs => rw [← List.take_append_drop 4 bytes]
  rw [lengthSaid_append (by rw [List.length_take]; omega)]

/-- Reading the rest of a packet. -/
theorem readPacketBody_called {len : Nat} {mem : List (Option UInt8)} (hpiece : 0 < piece)
    (hfour : 4 ≤ held.length) (hsaid : lengthSaid held = some len) (hmore : held.length < len)
    (hlen : held.length + mem.length = len) :
    ∃ r, readPacketBody (held.map some ++ mem) held.length rest piece = .ok r ∧
      Called held rest r := by
  obtain ⟨hmax, hmin, hle⟩ := lengthSaid_eq_some.mp (lengthSaid_take hfour ▸ hsaid)
  unfold readPacketBody
  rw [readMem_take mem hfour]
  simp only [ok_bind, hmax]
  rcases read_spec rest (n := len - held.length) hpiece (by omega) with
    ⟨hnil, hrest⟩ | ⟨bytes, rest', htake, hne, hrest, hdrop, hfit⟩
  · rw [hnil, if_pos rfl]
    refine ⟨_, rfl, .ended _ hrest (.body held mem hfour hsaid hmore hlen) fun _ => ?_⟩
    rw [hsaid]
    exact Option.some_ne_none len
  · rw [htake, if_neg hne, hdrop, writeAt_append]
    refine ⟨_, rfl, ?_⟩
    have hsaid' : lengthSaid (held ++ bytes) = some len := by rw [lengthSaid_append hfour, hsaid]
    have hlong : (held ++ bytes).length = held.length + bytes.length := List.length_append
    have hbytes := List.length_pos_iff.mpr hne
    split_ifs with hall
    · rw [List.drop_eq_nil_of_le (by omega), List.append_nil]
      refine .done bytes rest' _ hne hrest ⟨?_, ?_, ?_⟩
      · exact (lengthSaid_eq_some.mp hsaid').1.trans (hlong.trans hall).symm
      · rw [hlong, hall]
        exact hmin
      · rw [hlong, hall]
        exact hle
    · refine .again bytes rest' _ hne hrest ?_
      rw [← hlong]
      refine .body (held ++ bytes) (mem.drop bytes.length) (by omega) hsaid' (by omega) ?_
      rw [List.length_drop]
      omega

/-- **One call** takes some of the bytes to come, and delivers the packet with its last
byte; or it fails, for a length that no packet has or at the end. -/
theorem readPacketPart_called (rest : List UInt8) (h : Holds plan held) (hpiece : 0 < piece) :
    ∃ r, readPacketPart plan rest piece = .ok r ∧ Called held rest r := by
  have hlength : ∀ (bytes : List UInt8) (mem : List (Option UInt8)), bytes.length ≤ 4 →
      ∃ r, readPacketPart ⟨.u2 bytes.length, .c (bytes.map some ++ mem)⟩ rest piece = .ok r ∧
        Called bytes rest r := by
    intro bytes mem hle
    unfold readPacketPart
    dsimp only
    by_cases hpart : bytes.length < 4
    · rw [if_pos hpart]
      rcases read_spec rest (n := 4 - bytes.length) hpiece (by omega) with
        ⟨hnil, hrest⟩ | ⟨more, rest', htake, hne, hrest, hdrop, hfit⟩
      · rw [hnil, if_pos rfl]
        exact ⟨_, rfl, .ended _ hrest (.len bytes mem hle) fun hfour => by omega⟩
      · rw [htake, if_neg hne, hdrop, writeAt_append]
        refine ⟨_, rfl, .again more rest' _ hne hrest ?_⟩
        rw [← List.length_append]
        exact .len _ _ (by rw [List.length_append]; omega)
    · have hfour : bytes.length = 4 := by omega
      rw [if_neg hpart, if_pos hfour, readMem_take mem (by omega), List.take_of_length_le hle]
      simp only [ok_bind]
      split_ifs with hbig hsmall
      · refine ⟨_, rfl, .badLength _ _ (by decide) hfour ?_ (.len bytes mem hle)⟩
        unfold lengthSaid
        exact if_neg fun h => Nat.not_lt.mpr h.2 hbig
      · refine ⟨_, rfl, .badLength _ _ (by decide) hfour ?_ (.len bytes mem hle)⟩
        unfold lengthSaid
        exact if_neg fun h => Nat.not_lt.mpr h.1 hsmall
      · have hsaid : lengthSaid bytes = some (le32At bytes 0).toNat :=
          if_pos ⟨Nat.not_lt.mp hsmall, Nat.not_lt.mp hbig⟩
        have hmin : 8 ≤ (le32At bytes 0).toNat := Nat.not_lt.mp hsmall
        have hwrite := writeAt_append [] bytes (List.replicate (le32At bytes 0).toNat none)
        rw [List.nil_append] at hwrite
        rw [show writeAt (List.replicate (le32At bytes 0).toNat none) 0 bytes = _ from hwrite, ← hfour]
        refine readPacketBody_called hpiece (by omega) hsaid (by omega) ?_
        rw [List.length_drop, List.length_replicate]
        omega
  cases h with
  | start => exact hlength [] (List.replicate sizeofPlanU2 none) (Nat.zero_le _)
  | len bytes mem hle => exact hlength held mem hle
  | body bytes mem hfour hsaid hmore hlen =>
    exact readPacketBody_called hpiece hfour hsaid hmore hlen

-- ---------------------------------------------------------------------------
-- All the calls
-- ---------------------------------------------------------------------------

/-- Where a reader is in a stream: some packets are delivered, some bytes are held, and if
it failed, it was not in the middle of anything that was still to come. -/
structure ReaderAt (stream held : List UInt8) (r : PacketReader) : Prop where
  holds : Holds r.plan held
  stream : stream = r.packets.flatten ++ held ++ r.rest
  packets : ∀ pkt ∈ r.packets, IsPacket pkt
  failed : ∀ errno, r.failed = some errno →
    held.length = 4 ∧ lengthSaid held = none ∧ errno ≠ .read ∨
      errno = .read ∧ r.rest = [] ∧ (4 ≤ held.length → lengthSaid held ≠ none)

variable {r : PacketReader}

/-- **A step**: a call keeps a reader in the stream, and takes a byte if it does not fail. -/
theorem PacketReader.call_readerAt (h : ReaderAt stream held r) (hpiece : 0 < piece) :
    ∃ r' held', r.call piece = .ok r' ∧ ReaderAt stream held' r' ∧
      (r'.failed = none → r'.rest.length < r.rest.length) := by
  unfold call
  cases hfailed : r.failed with
  | some errno => exact ⟨r, held, rfl, h, fun hnone => absurd (hfailed.symm.trans hnone) (by simp)⟩
  | none =>
    obtain ⟨⟨ret, plan, rest⟩, hcall, hcalled⟩ := readPacketPart_called r.rest h.holds hpiece
    simp only [hcall, ok_bind]
    cases hcalled with
    | again bytes rest' plan hne hrest hplan =>
      refine ⟨_, held ++ bytes, rfl, ⟨hplan, ?_, h.packets, fun errno he => ?_⟩, fun _ => ?_⟩
      · rw [h.stream, hrest]
        simp
      · exact absurd he (by simp)
      · rw [hrest, List.length_append]
        exact Nat.lt_add_of_pos_left (List.length_pos_iff.mpr hne)
    | done bytes rest' off hne hrest hpkt =>
      simp only [readMem_map, ok_bind]
      refine ⟨_, [], rfl, ⟨.start, ?_, ?_, fun errno he => ?_⟩, fun _ => ?_⟩
      · rw [h.stream, hrest]
        simp
      · intro pkt hmem
        rcases List.mem_append.mp hmem with hmem | hmem
        · exact h.packets pkt hmem
        · exact List.mem_singleton.mp hmem ▸ hpkt
      · exact absurd he (by simp)
      · rw [hrest, List.length_append]
        exact Nat.lt_add_of_pos_left (List.length_pos_iff.mpr hne)
    | badLength plan errno herrno hfour hsaid hplan =>
      refine ⟨_, held, rfl, ⟨hplan, h.stream, h.packets, fun errno' he => ?_⟩, fun hnone => ?_⟩
      · obtain rfl := Option.some.inj he
        exact .inl ⟨hfour, hsaid, herrno⟩
      · exact absurd hnone (by simp)
    | ended plan hrest hplan hgood =>
      refine ⟨_, held, rfl, ⟨hplan, h.stream, h.packets, fun errno' he => ?_⟩, fun hnone => ?_⟩
      · obtain rfl := Option.some.inj he
        exact .inr ⟨rfl, hrest, hgood⟩
      · exact absurd hnone (by simp)

/-- And so any number of calls do. -/
theorem readerAt_of_calls {pieces : List Nat} (h : ReaderAt stream held r)
    (hpieces : ∀ piece ∈ pieces, 0 < piece) :
    ∃ r' held', pieces.foldlM PacketReader.call r = .ok r' ∧ ReaderAt stream held' r' ∧
      (r'.failed = none → r'.rest.length + pieces.length ≤ r.rest.length) := by
  induction pieces generalizing r held with
  | nil => exact ⟨r, held, rfl, h, fun _ => Nat.le_refl _⟩
  | cons piece pieces ih =>
    obtain ⟨r₁, held₁, hcall, h₁, hless⟩ := r.call_readerAt h (hpieces piece (List.mem_cons_self ..))
    obtain ⟨r', held', hcalls, h', hless'⟩ :=
      ih h₁ fun piece hpiece => hpieces piece (List.mem_cons_of_mem _ hpiece)
    refine ⟨r', held', ?_, h', fun hnone => ?_⟩
    · rw [List.foldlM_cons, hcall, ok_bind]
      exact hcalls
    · -- once failed, it stays so
      have hnone₁ : r₁.failed = none := by
        cases hfailed : r₁.failed with
        | none => rfl
        | some errno =>
          have hstay : ∀ pieces : List Nat, pieces.foldlM PacketReader.call r₁ = .ok r₁ := by
            intro pieces
            induction pieces with
            | nil => rfl
            | cons piece pieces ihs =>
              rw [List.foldlM_cons, PacketReader.call, hfailed]
              exact ihs
          obtain rfl := Except.ok.inj ((hstay pieces).symm.trans hcalls)
          exact absurd (hfailed.symm.trans hnone) (by simp)
      have h₁ := hless hnone₁
      have h₂ := hless' hnone
      rw [List.length_cons]
      omega

/-- What is held is not a whole packet. -/
theorem Holds.cutPackets (h : Holds plan held) : cutPackets held = ([], held) := by
  refine cutPackets_none fun len hlen => ?_
  by_cases hfour : 4 ≤ held.length
  · exact h.lt hfour hlen
  · have hmin : 8 ≤ len := (lengthSaid_eq_some.mp hlen).2.1
    omega

/-- What is held and still to come begins with no packet once the reader failed. -/
theorem ReaderAt.cutEnd (h : ReaderAt stream held r) {errno : ReadErrno}
    (herrno : r.failed = some errno) :
    cutPackets (held ++ r.rest) = ([], held ++ r.rest) ∧ CutEnd (held ++ r.rest) errno r.rest := by
  rcases h.failed errno herrno with ⟨hfour, hsaid, hne⟩ | ⟨rfl, hrest, hgood⟩
  · have hsaid' : lengthSaid (held ++ r.rest) = none := by
      rw [lengthSaid_append (Nat.le_of_eq hfour.symm), hsaid]
    refine ⟨cutPackets_none fun len hlen => absurd (hsaid'.symm.trans hlen) (by simp), ?_⟩
    unfold CutEnd
    rw [if_pos ⟨by rw [List.length_append]; omega, hsaid'⟩]
    exact ⟨hne, by rw [List.drop_left' hfour]⟩
  · rw [hrest, List.append_nil]
    refine ⟨h.holds.cutPackets, ?_⟩
    unfold CutEnd
    rw [if_neg fun hbad => hgood hbad.1 hbad.2]
    exact ⟨rfl, rfl⟩

/-- **Packets are delivered as the lengths cut them**: whatever the pieces the bytes come in,
nothing undefined happens; the bytes are in a delivered packet, held, or to come, in order,
what is held not being a whole packet; the packets delivered are the first of those that the
stream is cut into, and all of them once the reader was called often enough, when it failed at
the first bad length or in the middle of what comes last. -/
theorem readCalls_cut (stream : List UInt8) (pieces : List Nat)
    (hpieces : ∀ piece ∈ pieces, 0 < piece) :
    ∃ r held, readCalls stream pieces = .ok r ∧ Holds r.plan held ∧
      stream = r.packets.flatten ++ held ++ r.rest ∧ cutPackets held = ([], held) ∧
      (∀ pkt ∈ r.packets, IsPacket pkt) ∧ r.packets <+: (cutPackets stream).1 ∧
      (r.failed = none → pieces.length ≤ r.packets.flatten.length + held.length) ∧
      (stream.length < pieces.length → r.failed ≠ none) ∧
      ∀ errno, r.failed = some errno →
        r.packets = (cutPackets stream).1 ∧ CutEnd (cutPackets stream).2 errno r.rest := by
  have hstart : ReaderAt stream [] ⟨ioReadPacket, [], stream, none⟩ :=
    ⟨.start, by simp, by simp, by simp⟩
  obtain ⟨r, held, hcalls, h, hless⟩ := readerAt_of_calls hstart hpieces
  have hcut : cutPackets stream = (r.packets ++ (cutPackets (held ++ r.rest)).1,
      (cutPackets (held ++ r.rest)).2) := by
    conv_lhs => rw [h.stream, List.append_assoc]
    exact cutPackets_packets h.packets _
  have hlength : stream.length = r.packets.flatten.length + held.length + r.rest.length := by
    conv_lhs => rw [h.stream]
    rw [List.length_append, List.length_append]
  refine ⟨r, held, hcalls, h.holds, h.stream, h.holds.cutPackets, h.packets, ?_, ?_, ?_, ?_⟩
  · rw [hcut]
    exact List.prefix_append _ _
  · intro hnone
    have hrest := hless hnone
    dsimp only at hrest
    omega
  · intro hlong hnone
    have hrest := hless hnone
    dsimp only at hrest
    omega
  · intro errno herrno
    obtain ⟨hnil, hend⟩ := h.cutEnd herrno
    rw [hcut, hnil, List.append_nil]
    exact ⟨rfl, hend⟩

/-- A packet of eight bytes comes in two pieces, and then a length that no packet has. -/
theorem readCalls_cut_split :
    (∀ piece ∈ [3, 1, 2, 9, 9, 9], 0 < piece) ∧
      ∃ r held, readCalls [8, 0, 0, 0, 1, 2, 3, 4, 7, 0, 0, 0, 5] [3, 1, 2, 9, 9, 9] = .ok r ∧
        Holds r.plan held ∧
        [8, 0, 0, 0, 1, 2, 3, 4, 7, 0, 0, 0, 5] = r.packets.flatten ++ held ++ r.rest ∧
        cutPackets held = ([], held) := by
  refine ⟨by decide, ?_⟩
  obtain ⟨r, held, hcalls, hholds, hstream, hcut, -⟩ :=
    readCalls_cut [8, 0, 0, 0, 1, 2, 3, 4, 7, 0, 0, 0, 5] [3, 1, 2, 9, 9, 9] (by decide)
  exact ⟨r, held, hcalls, hholds, hstream, hcut⟩

end Pettycoin
