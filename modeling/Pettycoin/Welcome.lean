import Pettycoin.GossipSteps
import Pettycoin.MarshalBlock
import Pettycoin.NodeHeads
import Pettycoin.Reward

/-!
# Pettycoin — the handshake

`welcome.c` and `mutual_block_search` of `peer.c`: the WELCOME packet tells some
blocks of the preferred chain, the last ten and then ever fewer, and the genesis
block. Whoever has the same genesis block takes the packet apart as it was put
together (`checkWelcome_makeWelcome`), and finds a block it has too.

* `makeWelcome_ok` — a WELCOME can be made;
* `checkWelcome_of_greeting` — it is taken apart as it was put together;
* `mutualBlockSearch_of_greeting` — a block of it is found.
-/

namespace Pettycoin

open Forest ExceptRules

-- ---------------------------------------------------------------------------
-- welcome.c
-- ---------------------------------------------------------------------------

/-- `PROTOCOL_PKT_WELCOME`. -/
def protocolPktWelcome : UInt32 := 2

/-- `sizeof(struct protocol_pkt_welcome)`. -/
def sizeofPktWelcome : Nat := 104

/-- `struct protocol_pkt_welcome`, with the bytes that follow it. -/
structure PktWelcome where
  len : UInt32
  type : UInt32
  version : UInt32
  numBlocks : UInt16
  shardOrder : UInt8
  body : List UInt8

/-- `tal_packet(ctx, struct protocol_pkt_welcome, PROTOCOL_PKT_WELCOME)`. -/
def newPktWelcome : PktWelcome :=
  { len := UInt32.ofNat sizeofPktWelcome, type := protocolPktWelcome, version := 0,
    numBlocks := 0, shardOrder := 0, body := [] }

/-- `tal_packet_append()`. -/
def PktWelcome.append (w : PktWelcome) (mem : List UInt8) : PktWelcome :=
  { w with len := w.len + UInt32.ofNat mem.length, body := w.body ++ mem }

/-- `tal_packet_append_sha()`. -/
def PktWelcome.appendSha (w : PktWelcome) (sha : Bytes 32) : PktWelcome := w.append sha.1

/-- The loop of `add_welcome_blocks`: the packet, `last` and `n` where it is left. -/
def addWelcomeBlocksFrom (s : State (Bytes 32)) :
    Nat → PktWelcome → BlockId → Nat → UInt32 → Res (PktWelcome × BlockId × Nat)
  | 0, _, _, _, _ => .error .diverges
  | fuel + 1, w, last, n, step =>
    let step := if n < 10 then 1 else step * 2
    match blockAncestor s last step.toNat with
    | none => .ok (w, last, n)
    | some b => addWelcomeBlocksFrom s fuel (w.appendSha (s.blk b).sha) b (n + 1) step

/-- `add_welcome_blocks()`. -/
def addWelcomeBlocks (s : State (Bytes 32)) (w : PktWelcome) : Res PktWelcome := do
  let b := s.preferredChain
  let (w, last, n) ← addWelcomeBlocksFrom s ((s.blk b).depth + 1) (w.appendSha (s.blk b).sha) b 1 0
  -- Always include the genesis block.
  let (w, n) := if last ≠ 0 then (w.appendSha (s.blk 0).sha, n + 1) else (w, n)
  .ok { w with numBlocks := UInt16.ofNat n }

/-- The length of an interest map. -/
def interestLen (shardOrder : UInt8) : Nat := (2 ^ shardOrder.toNat + 31) / 32 * 4

/-- `interested_in_shard()`, for whatever numbers it is given. C does not say what a shift
by 32 or more comes to; the machine takes the count modulo 32. -/
def interestedInShardAt {D : Type} (s : State D) (shardOrder : UInt32) (shard : UInt16) : Bool :=
  s.interests
    (shard.toNat >>> ((shardOrder - protocolInitialShardOrder.toUInt32).toNat % 32))

/-- The map of `add_interests`: a bit for each shard. The shard is given where
`interested_in_shard` takes the order, and the order where it takes the shard. -/
def interestMap (s : State (Bytes 32)) (shardOrder : UInt8) : List UInt8 :=
  (List.range (2 ^ shardOrder.toNat)).foldl
    (fun map i =>
      if interestedInShardAt s (UInt32.ofNat i) shardOrder.toUInt16 then
        map.modify (i / 8) fun byte => byte ||| 1 <<< UInt8.ofNat (i % 8)
      else map)
    (List.replicate (interestLen shardOrder) 0)

/-- `add_interests()`. -/
def addInterests (s : State (Bytes 32)) (w : PktWelcome) (shardOrder : UInt8) : PktWelcome :=
  { w with shardOrder := shardOrder }.append (interestMap s shardOrder)

/-- `make_welcome()`. -/
def makeWelcome (s : State (Bytes 32)) : Res PktWelcome :=
  let w := { newPktWelcome with version := currentVersion.toUInt32 }
  addWelcomeBlocks s (addInterests s w (s.blk s.preferredChain).hdr.shardOrder)

/-- `popcount()`. -/
def popcount (bits : List UInt8) (numBits : Nat) : Nat :=
  (List.range numBits).countP fun i => byteAt bits (i / 8) &&& 1 <<< UInt8.ofNat (i % 8) ≠ 0

/-- `check_welcome()`: what is wrong with it, and the hashes. -/
def checkWelcome (s : State (Bytes 32)) (w : PktWelcome) : Ecode × List (Bytes 32) :=
  let len := w.len.toNat
  if len < sizeofPktWelcome then (.invalidLen, [])
  else if w.type ≠ protocolPktWelcome then (.unknownCommand, [])
  else if w.version ≠ currentVersion.toUInt32 then (.highVersion, [])
  else
    let len := len - sizeofPktWelcome
    -- Check number of shards and shard interest bitmap.
    if w.shardOrder < protocolInitialShardOrder then (.badShardOrder, [])
    else if w.shardOrder > protocolMaxShardOrder then (.badShardOrder, [])
    -- Interest map follows base welcome struct.
    else if len < interestLen w.shardOrder then (.invalidLen, [])
    else if popcount w.body (2 ^ w.shardOrder.toNat) < 2 then (.noInterest, [])
    else
      let len := len - interestLen w.shardOrder
      -- Blocks follow interest map.
      let blocks := (List.range w.numBlocks.toNat).map fun i =>
        readSha (bytesAt w.body (interestLen w.shardOrder + 32 * i) 32).1
      if w.numBlocks < 1 then (.invalidLen, blocks)
      else if len ≠ w.numBlocks.toNat * 32 then (.invalidLen, blocks)
      -- We must agree on genesis block.
      else if blocks[w.numBlocks.toNat - 1]? ≠ some (s.blk 0).sha then (.wrongGenesis, blocks)
      else (.none, blocks)

variable {D : Type}

/-- `mutual_block_search()` of `peer.c`: the first of the hashes that is one of our blocks. -/
def mutualBlockSearch [DecidableEq D] (s : State D) (shas : List D) : Option BlockId :=
  shas.findSome? (blockFindAny s)

-- ---------------------------------------------------------------------------
-- Nodes
-- ---------------------------------------------------------------------------

/-- What the handshake relies on: a tree of blocks with different hashes, and a preferred
chain whose number of shards is one that blocks may have. -/
structure BlockTree (s : State D) : Prop where
  tree : TreeOk s
  distinct : ∀ b c : Nat, b < s.numBlocks → c < s.numBlocks → (s.blk b).sha = (s.blk c).sha → b = c
  preferred : s.preferredChain < s.numBlocks
  orderLow : protocolInitialShardOrder ≤ (s.blk s.preferredChain).hdr.shardOrder
  orderHigh : (s.blk s.preferredChain).hdr.shardOrder ≤ protocolMaxShardOrder

/-- A running node is like that. -/
theorem NodeReach.blockTree [Digest D] [DecidableEq D] {E : Env D} {s : State D}
    (h : NodeReach E s) (hfit : s.numBlocks ≤ depthLimit) : BlockTree s := by
  have hok := nodeOk_of_nodeReach h
  have horder := hok.toLedger.shardOrder s.preferredChain
  have hchain := hok.chain hfit
  refine ⟨hchain.tree, h.labels.distinct, hchain.heads.preferred.best.1.1.1, ?_, ?_⟩
  · rw [horder]
    exact UInt8.le_refl _
  · rw [horder]
    decide

variable {s s' : State D} {a b c : Nat}

/-- A block is found by its hash. -/
theorem BlockTree.blockFindAny [DecidableEq D] (h : BlockTree s) (hb : b < s.numBlocks) :
    Pettycoin.blockFindAny s (s.blk b).sha = some b := by
  cases hfind : Pettycoin.blockFindAny s (s.blk b).sha with
  | some c =>
    obtain ⟨hc, hsha⟩ := blockFindAny_spec hfind
    rw [h.distinct c b hc hb hsha]
  | none =>
    unfold Pettycoin.blockFindAny at hfind
    have hdepth := h.tree.depth_le hb
    have hmem : b ∈ (List.range s.numBlocks).reverse.flatMap (blockDepth s) := by
      refine List.mem_flatMap.mpr ⟨(s.blk b).depth, ?_, ?_⟩
      · rw [List.mem_reverse, List.mem_range]
        omega
      · unfold blockDepth
        rw [List.mem_filter, List.mem_range]
        exact ⟨hb, beq_self_eq_true _⟩
    exact absurd (beq_self_eq_true _) (List.find?_eq_none.mp hfind b hmem)

-- ---------------------------------------------------------------------------
-- The blocks that are told
-- ---------------------------------------------------------------------------

/-- The hashes of these blocks are appended. -/
def PktWelcome.appendBlocks (s : State (Bytes 32)) (w : PktWelcome) (blocks : List BlockId) :
    PktWelcome :=
  blocks.foldl (fun w b => w.appendSha (s.blk b).sha) w

/-- Where the walk is when `n` blocks were told: nine single steps, and then each twice as
long as the one before. -/
def Walked (n walked : Nat) (step : UInt32) : Prop :=
  n < 10 ∧ walked + 1 = n ∨ 10 ≤ n ∧ walked = 2 ^ (n - 9) + 7 ∧ step.toNat = 2 ^ (n - 10)

/-- The step is at least one, and what is walked stays as described. -/
theorem Walked.next {n walked : Nat} {step : UInt32} (h : Walked n walked step)
    (hwalked : walked < 2 ^ 32) :
    n ≤ 40 ∧ 0 < (if n < 10 then 1 else step * 2 : UInt32).toNat ∧
      Walked (n + 1) (walked + (if n < 10 then 1 else step * 2 : UInt32).toNat)
        (if n < 10 then 1 else step * 2) := by
  rcases h with ⟨hn, hw⟩ | ⟨hn, hw, hstep⟩
  · rw [if_pos hn]
    refine ⟨by omega, Nat.one_pos, ?_⟩
    rcases Nat.lt_or_eq_of_le (Nat.succ_le_of_lt hn) with hlt | heq
    · exact .inl ⟨hlt, by rw [UInt32.toNat_one]; omega⟩
    · refine .inr ⟨by omega, ?_, ?_⟩
      · have : n = 9 := by omega
        subst this
        rw [UInt32.toNat_one]
        omega
      · have : n = 9 := by omega
        subst this
        rfl
  · rw [if_neg (by omega)]
    obtain ⟨k, rfl⟩ := Nat.exists_eq_add_of_le hn
    have hk : k < 31 := by
      by_contra hk
      have : 2 ^ 32 ≤ 2 ^ (10 + k - 9) := Nat.pow_le_pow_right (by omega) (by omega)
      omega
    have hpow : 2 ^ k < 2 ^ 31 := Nat.pow_lt_pow_right (by omega) hk
    have hdouble : (step * 2).toNat = 2 ^ (k + 1) := by
      rw [UInt32.toNat_mul, hstep, show 10 + k - 10 = k by omega, Nat.pow_succ,
        show (2 : UInt32).toNat = 2 from rfl]
      exact Nat.mod_eq_of_lt (by omega)
    rw [hdouble]
    refine ⟨by omega, Nat.pow_pos (by omega), .inr ⟨by omega, ?_, ?_⟩⟩
    · rw [hw, show 10 + k - 9 = k + 1 by omega, show 10 + k + 1 - 9 = k + 1 + 1 by omega,
        Nat.pow_succ 2 (k + 1)]
      omega
    · rw [hdouble, show 10 + k + 1 - 10 = k + 1 by omega]

/-- The walk ends, and tells blocks further and further back. -/
theorem addWelcomeBlocksFrom_ok {s : State (Bytes 32)} (ht : TreeOk s) {fuel n walked : Nat}
    {w : PktWelcome} {last : BlockId} {step : UInt32} (hlast : last < s.numBlocks)
    (hfuel : (s.blk last).depth < fuel) (hwalked : Walked n walked step)
    (hfit : walked + (s.blk last).depth < 2 ^ 32) :
    ∃ (blocks : List BlockId) (last' : BlockId),
      addWelcomeBlocksFrom s fuel w last n step
        = .ok (w.appendBlocks s blocks, last', n + blocks.length) ∧
      (last :: blocks).getLast? = some last' ∧ n + blocks.length ≤ 40 ∧
      (∀ b ∈ blocks, Anc (prevOf s) b last) ∧
      (last :: blocks).Pairwise fun a b => (s.blk b).depth < (s.blk a).depth := by
  induction fuel generalizing n walked w last step with
  | zero => exact absurd hfuel (Nat.not_lt_zero _)
  | succ fuel ih =>
    obtain ⟨hn, hpos, hnext⟩ := hwalked.next (by omega)
    unfold addWelcomeBlocksFrom
    dsimp only
    generalize (if n < 10 then 1 else step * 2 : UInt32) = step' at *
    cases hback : blockAncestor s last step'.toNat with
    | none =>
      exact ⟨[], last, rfl, rfl, hn, fun b hb => absurd hb List.not_mem_nil,
        List.pairwise_singleton _ _⟩
    | some b =>
      obtain ⟨hanc, hdepth⟩ := (blockAncestor_eq_some ht hlast).mp hback
      obtain ⟨blocks, last', hrun, hend, hle, hbelow, hsorted⟩ :=
        ih (w := w.appendSha (s.blk b).sha) (ht.anc_lt hanc hlast) (by omega) hnext (by omega)
      refine ⟨b :: blocks, last', ?_, ?_, ?_, ?_, ?_⟩
      · dsimp only
        rw [hrun, List.length_cons, Nat.add_right_comm]
        rfl
      · rw [List.getLast?_cons_cons]
        exact hend
      · rw [List.length_cons]
        omega
      · intro x hx
        rcases List.mem_cons.mp hx with rfl | hx
        · exact hanc
        · exact (hbelow x hx).trans hanc
      · refine List.pairwise_cons.mpr ⟨fun x hx => ?_, hsorted⟩
        have hxb : (s.blk x).depth ≤ (s.blk b).depth := by
          rcases List.mem_cons.mp hx with rfl | hx
          · exact Nat.le_refl _
          · exact ht.anc_depth (hbelow x hx)
        omega

-- ---------------------------------------------------------------------------
-- The packet
-- ---------------------------------------------------------------------------

/-- `len` counts the structure and what follows. -/
def PktWelcome.LenOk (w : PktWelcome) : Prop :=
  w.len = UInt32.ofNat (sizeofPktWelcome + w.body.length)

theorem PktWelcome.LenOk.append {w : PktWelcome} (h : w.LenOk) (mem : List UInt8) :
    (w.append mem).LenOk := by
  unfold LenOk PktWelcome.append at *
  dsimp only
  rw [h, List.length_append, ← Nat.add_assoc, UInt32.ofNat_add _ mem.length]

/-- What appending hashes does to a packet. -/
theorem appendBlocks_eq (s : State (Bytes 32)) (w : PktWelcome) (blocks : List BlockId) :
    (w.appendBlocks s blocks).type = w.type ∧ (w.appendBlocks s blocks).version = w.version ∧
      (w.appendBlocks s blocks).shardOrder = w.shardOrder ∧
      (w.appendBlocks s blocks).body
        = w.body ++ (blocks.map fun b => (s.blk b).sha).flatMap Digest.bytes ∧
      (w.LenOk → (w.appendBlocks s blocks).LenOk) := by
  induction blocks generalizing w with
  | nil => exact ⟨rfl, rfl, rfl, (List.append_nil _).symm, id⟩
  | cons b blocks ih =>
    obtain ⟨htype, hversion, horder, hbody, hlen⟩ := ih (w.appendSha (s.blk b).sha)
    refine ⟨htype, hversion, horder, ?_, fun hw => hlen (hw.append _)⟩
    rw [List.map_cons, List.flatMap_cons, ← List.append_assoc]
    exact hbody

/-- The map has the length that the other side expects. -/
theorem length_interestMap (s : State (Bytes 32)) (shardOrder : UInt8) :
    (interestMap s shardOrder).length = interestLen shardOrder := by
  unfold interestMap
  generalize List.range (2 ^ shardOrder.toNat) = shards
  suffices h : ∀ map : List UInt8, (shards.foldl
      (fun map i =>
        if interestedInShardAt s (UInt32.ofNat i) shardOrder.toUInt16 then
          map.modify (i / 8) fun byte => byte ||| 1 <<< UInt8.ofNat (i % 8)
        else map) map).length = map.length by
    rw [h, List.length_replicate]
  induction shards with
  | nil => exact fun map => rfl
  | cons i shards ih =>
    intro map
    rw [List.foldl_cons, ih]
    split_ifs
    · exact List.length_modify _ _ _
    · rfl

/-- What a WELCOME holds that tells these blocks: the preferred chain first, the genesis block
last, ancestors of the first in between, and as many as `num_blocks` says. -/
structure Greeting (s : State (Bytes 32)) (w : PktWelcome) (blocks : List BlockId) : Prop where
  type : w.type = protocolPktWelcome
  version : w.version = currentVersion.toUInt32
  shardOrder : w.shardOrder = (s.blk s.preferredChain).hdr.shardOrder
  len : w.LenOk
  body : w.body = interestMap s w.shardOrder
    ++ (blocks.map fun b => (s.blk b).sha).flatMap Digest.bytes
  numBlocks : w.numBlocks.toNat = blocks.length
  few : blocks.length ≤ 41
  first : blocks.head? = some s.preferredChain
  last : blocks.getLast? = some 0
  preceeds : ∀ b ∈ blocks, blockPreceeds s b s.preferredChain = true
  deeper : blocks.Pairwise fun a b => (s.blk b).depth < (s.blk a).depth

/-- What `make_welcome` puts into the packet. -/
theorem makeWelcome_ok {s : State (Bytes 32)} (h : BlockTree s) :
    ∃ (w : PktWelcome) (blocks : List BlockId), makeWelcome s = .ok w ∧ Greeting s w blocks := by
  have hfit : 0 + (s.blk s.preferredChain).depth < 2 ^ 32 := by
    rw [Nat.zero_add]
    exact UInt32.toNat_lt _
  generalize hstart : addInterests s { newPktWelcome with version := currentVersion.toUInt32 }
    (s.blk s.preferredChain).hdr.shardOrder = w
  obtain ⟨blocks, last, hrun, hend, hle, hbelow, hsorted⟩ :=
    @addWelcomeBlocksFrom_ok s h.tree _ _ _ (w.appendSha (s.blk s.preferredChain).sha) _ 0
      h.preferred (Nat.lt_succ_self _) (.inl ⟨by omega, rfl⟩) hfit
  have hstartOk : w.type = protocolPktWelcome ∧ w.version = currentVersion.toUInt32 ∧
      w.shardOrder = (s.blk s.preferredChain).hdr.shardOrder ∧ w.LenOk ∧
      w.body = interestMap s w.shardOrder := by
    rw [← hstart]
    refine ⟨rfl, rfl, rfl, PktWelcome.LenOk.append ?_ _, rfl⟩
    rfl
  -- the packet with any list of blocks
  have hpacket : ∀ told : List BlockId, told.length ≤ 41 →
      told.head? = some s.preferredChain → told.getLast? = some 0 →
      (∀ b ∈ told, Anc (prevOf s) b s.preferredChain) →
      (told.Pairwise fun a b => (s.blk b).depth < (s.blk a).depth) →
      Greeting s { w.appendBlocks s told with numBlocks := UInt16.ofNat told.length } told := by
    intro told hlen hhead hgenesis hanc htold
    obtain ⟨htype, hversion, horder, hbody, hlenOk⟩ := appendBlocks_eq s w told
    refine ⟨htype.trans hstartOk.1, hversion.trans hstartOk.2.1, horder.trans hstartOk.2.2.1,
      hlenOk hstartOk.2.2.2.1, ?_, ?_, hlen, hhead, hgenesis,
      fun b hb => (blockPreceeds_iff h.tree).mpr (hanc b hb), htold⟩
    · rw [hbody, hstartOk.2.2.2.2]
      dsimp only
      rw [horder]
    · exact UInt16.toNat_ofNat_of_lt' (by rw [UInt16.size]; omega)
  have hmake : makeWelcome s = (do
      let (w, n) := if last ≠ 0 then
          ((w.appendBlocks s (s.preferredChain :: blocks)).appendSha (s.blk 0).sha,
            1 + blocks.length + 1)
        else (w.appendBlocks s (s.preferredChain :: blocks), 1 + blocks.length)
      .ok { w with numBlocks := UInt16.ofNat n }) := by
    unfold makeWelcome addWelcomeBlocks
    dsimp only at hstart ⊢
    rw [hstart, hrun]
    rfl
  have hlast : Anc (prevOf s) last s.preferredChain := by
    rcases List.mem_cons.mp (List.mem_of_getLast? hend) with rfl | hmem
    · exact Anc.refl _ _
    · exact hbelow last hmem
  by_cases hgenesis : last = 0
  · refine ⟨_, s.preferredChain :: blocks, ?_, hpacket _ ?_ rfl ?_ ?_ hsorted⟩
    · rw [hmake, if_neg (not_not_intro hgenesis), List.length_cons, Nat.add_comm 1]
    · rw [List.length_cons]
      omega
    · rw [hend, hgenesis]
    · exact List.forall_mem_cons.mpr ⟨Anc.refl _ _, hbelow⟩
  · refine ⟨_, s.preferredChain :: blocks ++ [0], ?_, hpacket _ ?_ rfl ?_ ?_ ?_⟩
    · rw [hmake, if_pos hgenesis, List.length_append, List.length_cons, List.length_singleton,
        Nat.add_comm 1]
      unfold PktWelcome.appendBlocks
      rw [List.foldl_append]
      rfl
    · rw [List.length_append, List.length_cons, List.length_singleton]
      omega
    · exact List.getLast?_concat
    · rw [List.forall_mem_append, List.forall_mem_singleton]
      exact ⟨List.forall_mem_cons.mpr ⟨Anc.refl _ _, hbelow⟩, h.tree.genesis_anc h.preferred⟩
    · refine List.pairwise_append.mpr ⟨hsorted, List.pairwise_singleton _ _, fun a ha b hb => ?_⟩
      obtain rfl := List.mem_singleton.mp hb
      have hdeep : 0 < (s.blk last).depth := by
        by_contra hzero
        have hanc := h.tree.genesis_anc (h.tree.anc_lt hlast h.preferred)
        exact hgenesis (h.tree.anc_eq_of_depth hanc (by omega)).symm
      obtain ⟨early, hearly⟩ := List.getLast?_eq_some_iff.mp hend
      rw [hearly] at ha hsorted
      rw [h.tree.depth_genesis]
      rcases List.mem_append.mp ha with ha | ha
      · exact hdeep.trans ((List.pairwise_append.mp hsorted).2.2 a ha last (List.mem_singleton_self _))
      · rw [List.mem_singleton.mp ha]
        exact hdeep

-- ---------------------------------------------------------------------------
-- The other side
-- ---------------------------------------------------------------------------

theorem interestLen_le {shardOrder : UInt8} (h : shardOrder ≤ protocolMaxShardOrder) :
    interestLen shardOrder ≤ 8192 := by
  have hle : shardOrder.toNat ≤ 16 := h
  have hpow : 2 ^ shardOrder.toNat ≤ 2 ^ 16 := Nat.pow_le_pow_right (by omega) hle
  unfold interestLen
  omega

/-- The bits of a map are counted as if it stood alone. -/
theorem popcount_append {map rest : List UInt8} {numBits : Nat} (h : (numBits + 7) / 8 ≤ map.length) :
    popcount (map ++ rest) numBits = popcount map numBits := by
  unfold popcount
  refine List.countP_congr fun i hi => ?_
  have hlt := List.mem_range.mp hi
  rw [byteAt_append_left (by omega)]

theorem Greeting.body_length {s : State (Bytes 32)} {w : PktWelcome} {blocks : List BlockId}
    (h : Greeting s w blocks) :
    w.body.length = interestLen w.shardOrder + 32 * blocks.length := by
  rw [h.body, List.length_append, length_interestMap, List.length_flatMap]
  congr 1
  generalize hl : (blocks.map fun b => (s.blk b).sha) = shas
  have hlen : shas.length = blocks.length := by rw [← hl, List.length_map]
  rw [← hlen]
  clear hl hlen
  induction shas with
  | nil => rfl
  | cons d shas ih =>
    have hd : (Digest.bytes d).length = 32 := d.2
    rw [List.map_cons, List.sum_cons, ih, hd, List.length_cons]
    omega

/-- The packet is taken apart as it was put together. -/
theorem checkWelcome_of_greeting {s s' : State (Bytes 32)} (h : BlockTree s)
    (hgenesis : (s'.blk 0).sha = (s.blk 0).sha) {w : PktWelcome} {blocks : List BlockId}
    (hw : Greeting s w blocks)
    (hinterest : 2 ≤ popcount (interestMap s w.shardOrder) (2 ^ w.shardOrder.toNat)) :
    checkWelcome s' w = (.none, blocks.map fun b => (s.blk b).sha) := by
  have hbody := hw.body_length
  have hle := interestLen_le (hw.shardOrder ▸ h.orderHigh)
  have hlen : w.len.toNat = sizeofPktWelcome + w.body.length := by
    have hfew := hw.few
    rw [hw.len]
    exact UInt32.toNat_ofNat_of_lt' (by
      rw [UInt32.size, hbody]
      unfold sizeofPktWelcome
      omega)
  have hbits : (2 ^ w.shardOrder.toNat + 7) / 8 ≤ (interestMap s w.shardOrder).length := by
    rw [length_interestMap]
    unfold interestLen
    omega
  have hpop : popcount w.body (2 ^ w.shardOrder.toNat)
      = popcount (interestMap s w.shardOrder) (2 ^ w.shardOrder.toNat) := by
    rw [hw.body, popcount_append hbits]
  have hshas : ((List.range w.numBlocks.toNat).map fun i =>
      readSha (bytesAt w.body (interestLen w.shardOrder + 32 * i) 32).1)
        = blocks.map fun b => (s.blk b).sha := by
    have hlies : LiesAt w.body (interestLen w.shardOrder)
        ((blocks.map fun b => (s.blk b).sha).flatMap Digest.bytes) :=
      ⟨interestMap s w.shardOrder, [], by rw [List.append_nil]; exact hw.body,
        (length_interestMap s w.shardOrder).symm⟩
    have hread := hlies.shas
    rw [List.length_map, ← hw.numBlocks] at hread
    exact hread
  obtain ⟨early, hearly⟩ := List.getLast?_eq_some_iff.mp hw.last
  have hpos : 0 < blocks.length := by
    rw [hearly, List.length_append, List.length_singleton]
    omega
  have hgen : (blocks.map fun b => (s.blk b).sha)[w.numBlocks.toNat - 1]? = some (s'.blk 0).sha := by
    rw [hw.numBlocks, hgenesis, List.getElem?_map, ← List.getLast?_eq_getElem?, hw.last]
    rfl
  have hone : ¬ w.numBlocks < 1 := by
    rw [UInt16.lt_iff_toNat_lt, hw.numBlocks]
    exact Nat.not_lt.mpr hpos
  unfold checkWelcome
  dsimp only
  rw [hlen, hpop, hshas, Nat.add_sub_cancel_left, hbody, Nat.add_sub_cancel_left, hw.numBlocks]
  rw [if_neg (by omega), if_neg (not_not_intro hw.type), if_neg (not_not_intro hw.version),
    if_neg (UInt8.not_lt.mpr (hw.shardOrder ▸ h.orderLow)),
    if_neg (UInt8.not_lt.mpr (hw.shardOrder ▸ h.orderHigh)), if_neg (by omega),
    if_neg (by omega), if_neg hone, if_neg (by rw [Nat.mul_comm]; exact not_not_intro rfl)]
  rw [hw.numBlocks] at hgen
  rw [hgen, if_neg (not_not_intro rfl)]

/-- One of the hashes is that of the genesis block, so there is a first one that we know. -/
theorem mutualBlockSearch_of_greeting {s s' : State (Bytes 32)} (h : BlockTree s) (h' : BlockTree s')
    (hgenesis : (s'.blk 0).sha = (s.blk 0).sha) {w : PktWelcome} {blocks : List BlockId}
    (hw : Greeting s w blocks) :
    ∃ m b : BlockId, mutualBlockSearch s' (blocks.map fun b => (s.blk b).sha) = some m ∧
      m < s'.numBlocks ∧ b < s.numBlocks ∧ (s.blk b).sha = (s'.blk m).sha := by
  have hlast : 0 ∈ blocks := List.mem_of_getLast? hw.last
  cases hfind : mutualBlockSearch s' (blocks.map fun b => (s.blk b).sha) with
  | none =>
    have hnone := List.findSome?_eq_none_iff.mp hfind _ (List.mem_map.mpr ⟨0, hlast, rfl⟩)
    rw [← hgenesis, h'.blockFindAny h'.tree.genesis_lt] at hnone
    exact absurd hnone (Option.some_ne_none _)
  | some m =>
    obtain ⟨sha, hsha, hm⟩ := List.exists_of_findSome?_eq_some hfind
    obtain ⟨b, hb, rfl⟩ := List.mem_map.mp hsha
    obtain ⟨hlt, heq⟩ := blockFindAny_spec hm
    have hanc := (blockPreceeds_iff h.tree).mp (hw.preceeds b hb)
    exact ⟨m, b, rfl, hlt, h.tree.anc_lt hanc h.preferred, heq.symm⟩

end Pettycoin
