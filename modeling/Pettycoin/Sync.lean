import Pettycoin.Lib.Subtree
import Pettycoin.Welcome

/-!
# Pettycoin — what a peer is missing

`sync.c`: a SYNC packet lists the blocks from a mutual one back to the genesis block, each
with the size of the subtree that hangs off it there. Whoever told the mutual block has
all of the blocks listed (`handshake_agrees`); it asks for the children of those which
have more at the other side than it has itself (`sync_discovers_iff`).

* `syncPkt_ok`, `recvSyncPkt_eq` — what is sent, and what is made of it;
* `handshake_agrees` — WELCOME and SYNC between nodes of one genesis block;
* `card_hangsOff_lt` — fewer blocks hang off than there are;
* `sync_discovers_iff` — what a SYNC brings to light.
-/

namespace Pettycoin

open Forest ExceptRules

variable {D : Type}

-- ---------------------------------------------------------------------------
-- sync.c
-- ---------------------------------------------------------------------------

/-- `PROTOCOL_PKT_CHILDREN_SOME`. -/
def protocolPktChildrenSome : UInt32 := 0xffffffff

/-- The depth at which `num_children` gives up. -/
def numChildrenDepth : Nat := 100

/-- `num_children()`, with this many levels to go. -/
def numChildrenFrom (s : State D) (except : Option BlockId) : Nat → BlockId → UInt32
  | 0, _ => protocolPktChildrenSome
  | levels + 1, block =>
    ((s.children block).foldlM
      (fun num c =>
        if some c = except then some num
        else
          let children := numChildrenFrom s except levels c
          if children = protocolPktChildrenSome then none else some (num + 1 + children))
      0).getD protocolPktChildrenSome

/-- `num_children(block, except, 0)`. -/
def numChildren (s : State D) (block : BlockId) (except : Option BlockId) : UInt32 :=
  numChildrenFrom s except numChildrenDepth block

/-- `struct protocol_net_syncblock`. -/
structure SyncBlock (D : Type) where
  block : D
  children : UInt32

/-- `sizeof(struct protocol_pkt_sync)`. -/
def sizeofPktSync : Nat := 8

/-- `sizeof(struct protocol_net_syncblock)`. -/
def sizeofSyncBlock : Nat := 36

/-- `struct protocol_pkt_sync`, with the syncblocks that follow it. -/
structure PktSync (D : Type) where
  len : UInt32
  blocks : List (SyncBlock D)

/-- `tal_packet_append()` of a syncblock. -/
def PktSync.append (pkt : PktSync D) (b : SyncBlock D) : PktSync D :=
  { len := pkt.len + UInt32.ofNat sizeofSyncBlock, blocks := pkt.blocks ++ [b] }

/-- The syncblock of `b`, when `prev` is the next one. -/
def syncBlockOf (s : State D) (b : BlockId) (prev : Option BlockId) : SyncBlock D :=
  { block := (s.blk b).sha, children := numChildren s b prev }

/-- The loop of `sync_pkt`. -/
def syncPktFrom (s : State D) (horizon : BlockId) :
    Nat → PktSync D → BlockId → Option BlockId → Res (PktSync D)
  | 0, _, _, _ => .error .diverges
  | fuel + 1, pkt, b, prev =>
    -- We always include at least 1 syncblock.
    if blockPreceeds s b horizon then .ok (pkt.append (syncBlockOf s b prev))
    else
      match (s.blk b).prev with
      | none => .error .nullPointer
      | some p => syncPktFrom s horizon fuel (pkt.append (syncBlockOf s b prev)) p (some b)

/-- `sync_pkt()`. -/
def syncPkt (s : State D) (horizon mutualBlock : BlockId) : Res (PktSync D) :=
  syncPktFrom s horizon ((s.blk mutualBlock).depth + 1) ⟨UInt32.ofNat sizeofPktSync, []⟩
    mutualBlock none

/-- The loop of `recv_sync_pkt`, over the first `num` syncblocks from the last one on.
`prev` is `NULL` all the way. -/
def recvSyncBlocks [DecidableEq D] (s : State D) (blocks : List (SyncBlock D)) :
    Nat → State D × Ecode
  | 0 => (s, .none)
  | i + 1 =>
    match blocks[i]? with
    | none => (s, .unknownBlock)
    | some sb =>
      match blockFindAny s sb.block with
      | none => (s, .unknownBlock)
      | some b =>
        -- This means we ask if they're way ahead.
        recvSyncBlocks
          (if numChildren s b none < sb.children then
            s.emit (.todoAddGetChildren (s.blk b).sha) else s) blocks i

/-- `recv_sync_pkt()`. -/
def recvSyncPkt [DecidableEq D] (s : State D) (sync : PktSync D) : State D × Ecode :=
  let len := sync.len - UInt32.ofNat sizeofPktSync
  let num := len.toNat / sizeofSyncBlock
  if len.toNat % sizeofSyncBlock ≠ 0 ∨ num = 0 then (s, .invalidLen)
  else recvSyncBlocks s sync.blocks num

-- ---------------------------------------------------------------------------
-- The way back
-- ---------------------------------------------------------------------------

/-- The next block after `b` on the way to `m`. -/
def nextOnPath (s : State D) (m b : BlockId) : Option BlockId :=
  (s.children b).find? fun c => blockPreceeds s c m

variable {s s' : State D} {a b c m : Nat}

theorem nextOnPath_eq (ht : TreeOk s) (hb : prevOf s c = some b) (hm : Anc (prevOf s) c m) :
    nextOnPath s m b = some c := by
  unfold nextOnPath
  have hmem : c ∈ s.children b := mem_children.mpr ⟨ht.lt_of_prev hb, hb⟩
  cases hfind : (s.children b).find? fun c => blockPreceeds s c m with
  | none =>
    exact absurd ((blockPreceeds_iff ht).mpr hm) (List.find?_eq_none.mp hfind c hmem)
  | some d =>
    have hd := List.find?_some hfind
    have hpar := (childrenOf s).parent_of_mem b d (List.mem_of_find?_eq_some hfind)
    rw [child_unique ht.grows hpar hb ((blockPreceeds_iff ht).mp hd) hm]

/-- No block is next where the way ends. -/
theorem nextOnPath_self (ht : TreeOk s) : nextOnPath s m m = none := by
  refine List.find?_eq_none.mpr fun c hc hpre => ?_
  have hpar := (childrenOf s).parent_of_mem m c hc
  have hlt := ht.prev_lt c m hpar
  have hle := ((blockPreceeds_iff ht).mp hpre).le ht.grows
  omega

/-- The loop of `sync_pkt` lists every block from `b` back, with what hangs off it. -/
theorem syncPktFrom_ok (ht : TreeOk s) {fuel : Nat} {pkt : PktSync D} (hb : Anc (prevOf s) b m)
    (hm : m < s.numBlocks) (hfuel : (s.blk b).depth < fuel) :
    ∃ (path : List BlockId) (pkt' : PktSync D),
      syncPktFrom s 0 fuel pkt b (nextOnPath s m b) = .ok pkt' ∧
      pkt'.blocks = pkt.blocks ++ path.map (fun x => syncBlockOf s x (nextOnPath s m x)) ∧
      pkt'.len = pkt.len + UInt32.ofNat (sizeofSyncBlock * path.length) ∧
      path.length = (s.blk b).depth + 1 ∧
      ∀ n x, x ∈ path.take n ↔ Anc (prevOf s) x b ∧ (s.blk b).depth < (s.blk x).depth + n := by
  induction fuel generalizing b pkt with
  | zero => exact absurd hfuel (Nat.not_lt_zero _)
  | succ fuel ih =>
    unfold syncPktFrom
    by_cases hgen : b = 0
    · subst hgen
      rw [if_pos ((blockPreceeds_iff ht).mpr (Anc.refl _ _))]
      refine ⟨[0], _, rfl, rfl, ?_, ?_, fun n x => ?_⟩
      · rw [List.length_singleton, Nat.mul_one]
        rfl
      · rw [ht.depth_genesis, List.length_singleton]
      · have hzero : Anc (prevOf s) x 0 ↔ x = 0 :=
          ⟨fun hx => Nat.le_zero.mp (hx.le ht.grows), fun hx => hx ▸ Anc.refl _ _⟩
        rw [hzero]
        cases n with
        | zero =>
          refine iff_of_false List.not_mem_nil ?_
          rintro ⟨rfl, hlt⟩
          exact Nat.lt_irrefl _ hlt
        | succ n =>
          rw [List.take_succ_cons, List.take_nil, List.mem_singleton]
          exact ⟨fun hx => ⟨hx, by rw [hx]; omega⟩, And.left⟩
    · have hlt := ht.anc_lt hb hm
      obtain ⟨p, hp⟩ := ht.has_prev b (Nat.pos_of_ne_zero hgen) hlt
      have hpm := (Anc.of_parent hp).trans hb
      have hdepth := ht.depth_prev b p hp
      have hnot : ¬ blockPreceeds s b 0 = true := by
        rw [blockPreceeds_iff ht]
        exact fun hanc => hgen (Nat.le_zero.mp (hanc.le ht.grows))
      rw [if_neg hnot, show (s.blk b).prev = some p from hp]
      obtain ⟨path, pkt', hrun, hblocks, hlen, hcount, hmem⟩ :=
        @ih p (pkt.append (syncBlockOf s b (nextOnPath s m b))) hpm (by omega)
      rw [nextOnPath_eq ht hp hb] at hrun
      refine ⟨b :: path, pkt', hrun, ?_, ?_, ?_, fun n x => ?_⟩
      · rw [hblocks]
        exact List.append_assoc _ _ _
      · rw [hlen, List.length_cons, Nat.mul_succ, Nat.add_comm (sizeofSyncBlock * path.length),
          UInt32.ofNat_add, ← UInt32.add_assoc]
        rfl
      · rw [List.length_cons, hcount, hdepth]
      · cases n with
        | zero =>
          refine iff_of_false List.not_mem_nil ?_
          rintro ⟨hx, hlt⟩
          have := ht.anc_depth hx
          omega
        | succ n =>
          rw [List.take_succ_cons, List.mem_cons, hmem]
          constructor
          · rintro (rfl | ⟨hx, hlt⟩)
            · exact ⟨Anc.refl _ _, by omega⟩
            · exact ⟨hx.trans (Anc.of_parent hp), by omega⟩
          · rintro ⟨hx, hlt⟩
            rcases anc_iff_eq_or_parent.mp hx with rfl | ⟨q, hq, hxq⟩
            · exact .inl rfl
            · rw [hp] at hq
              obtain rfl := Option.some.inj hq
              exact .inr ⟨hxq, by omega⟩

/-- **What `sync_pkt` sends**: each block from the mutual one back to the genesis block, and how
many hang off it there. -/
theorem syncPkt_ok (ht : TreeOk s) (hm : m < s.numBlocks) :
    ∃ (path : List BlockId) (pkt : PktSync D), syncPkt s 0 m = .ok pkt ∧
      pkt.blocks = path.map (fun x => syncBlockOf s x (nextOnPath s m x)) ∧
      pkt.len = UInt32.ofNat (sizeofPktSync + sizeofSyncBlock * path.length) ∧
      path.length = (s.blk m).depth + 1 ∧
      ∀ n x, x ∈ path.take n ↔ Anc (prevOf s) x m ∧ (s.blk m).depth < (s.blk x).depth + n := by
  obtain ⟨path, pkt, hrun, hblocks, hlen, hcount, hmem⟩ :=
    @syncPktFrom_ok _ s m m ht _ ⟨UInt32.ofNat sizeofPktSync, []⟩ (Anc.refl _ m) hm
      (Nat.lt_succ_self _)
  rw [nextOnPath_self ht] at hrun
  refine ⟨path, pkt, hrun, hblocks, ?_, hcount, hmem⟩
  rw [hlen, UInt32.ofNat_add]

-- ---------------------------------------------------------------------------
-- Receiving
-- ---------------------------------------------------------------------------

/-- Counting children looks at the tree only. -/
theorem numChildrenFrom_emit (s : State D) (e : Event D) (except : Option BlockId) (levels : Nat)
    (b : BlockId) :
    numChildrenFrom (s.emit e) except levels b = numChildrenFrom s except levels b := by
  induction levels generalizing b with
  | zero => rfl
  | succ levels ih =>
    unfold numChildrenFrom
    simp only [ih]
    rfl

variable [DecidableEq D]

/-- What the loop of `recv_sync_pkt` asks for at a syncblock, when its block is `b`. -/
def asks (s : State D) (sb : SyncBlock D) (b : BlockId) : List (Event D) :=
  if numChildren s b none < sb.children then [.todoAddGetChildren (s.blk b).sha] else []

/-- Every block is found, and asked about as is due. -/
theorem recvSyncBlocks_ok {blocks : List (SyncBlock D)} {n : Nat} {found : SyncBlock D → BlockId}
    (hn : n ≤ blocks.length) (hfound : ∀ sb ∈ blocks, blockFindAny s sb.block = some (found sb)) :
    recvSyncBlocks s blocks n
      = ({ s with events := s.events ++
            ((blocks.take n).reverse.flatMap fun sb => asks s sb (found sb)) }, .none) := by
  induction n generalizing s with
  | zero =>
    rw [List.take_zero, List.reverse_nil, List.flatMap_nil, List.append_nil]
    rfl
  | succ n ih =>
    have hlt : n < blocks.length := hn
    unfold recvSyncBlocks
    rw [List.getElem?_eq_getElem hlt]
    dsimp only
    rw [hfound _ (List.getElem_mem hlt)]
    dsimp only
    rw [List.take_succ_eq_append_getElem hlt, List.reverse_append, List.reverse_singleton,
      List.flatMap_append, List.flatMap_singleton]
    by_cases hask : numChildren s (found blocks[n]) none < blocks[n].children
    · have hfound' : ∀ sb ∈ blocks, blockFindAny
          (s.emit (.todoAddGetChildren (s.blk (found blocks[n])).sha)) sb.block = some (found sb) :=
        hfound
      rw [if_pos hask, ih (by omega) hfound']
      unfold asks
      rw [if_pos hask, ← List.append_assoc]
      have hcount : ∀ b, numChildren (s.emit (.todoAddGetChildren (s.blk (found blocks[n])).sha)) b
          none = numChildren s b none := fun b => numChildrenFrom_emit s _ none _ b
      simp only [hcount]
      rfl
    · rw [if_neg hask, ih (by omega) hfound]
      unfold asks
      rw [if_neg hask, List.nil_append]

/-- How many syncblocks `recv_sync_pkt` takes a packet of so many to have: the `len` of the packet
has 32 bits. -/
def syncsRead (count : Nat) : Nat :=
  let len := (UInt32.ofNat (sizeofSyncBlock * count)).toNat
  if len % sizeofSyncBlock ≠ 0 then 0 else len / sizeofSyncBlock

theorem syncsRead_le (count : Nat) : syncsRead count ≤ count := by
  have hle : (UInt32.ofNat (sizeofSyncBlock * count)).toNat ≤ sizeofSyncBlock * count := by
    rw [UInt32.toNat_ofNat']
    exact Nat.mod_le _ _
  unfold syncsRead
  dsimp only
  split_ifs
  · exact Nat.zero_le _
  · exact (Nat.div_le_div_right hle).trans_eq (Nat.mul_div_cancel_left _ (by decide))

/-- All of them, where the length fits. -/
theorem syncsRead_eq {count : Nat} (h : sizeofSyncBlock * count < 2 ^ 32) :
    syncsRead count = count := by
  have hlen : (UInt32.ofNat (sizeofSyncBlock * count)).toNat = sizeofSyncBlock * count :=
    UInt32.toNat_ofNat_of_lt' h
  unfold syncsRead
  dsimp only
  rw [hlen, Nat.mul_mod_right, if_neg (not_not_intro rfl), Nat.mul_div_cancel_left _ (by decide)]

/-- The loop goes over as many as are read. -/
theorem recvSyncPkt_eq {pkt : PktSync D}
    (hlen : pkt.len = UInt32.ofNat (sizeofPktSync + sizeofSyncBlock * pkt.blocks.length)) :
    recvSyncPkt s pkt = if syncsRead pkt.blocks.length = 0 then (s, .invalidLen)
      else recvSyncBlocks s pkt.blocks (syncsRead pkt.blocks.length) := by
  have hbody : pkt.len - UInt32.ofNat sizeofPktSync
      = UInt32.ofNat (sizeofSyncBlock * pkt.blocks.length) := by
    rw [hlen, UInt32.ofNat_add, UInt32.add_comm, UInt32.add_sub_cancel]
  unfold recvSyncPkt syncsRead
  dsimp only
  rw [hbody]
  by_cases hmod : (UInt32.ofNat (sizeofSyncBlock * pkt.blocks.length)).toNat % sizeofSyncBlock = 0
  · rw [if_neg (not_not_intro hmod)]
    refine if_congr ?_ rfl rfl
    exact ⟨fun h => h.resolve_left (not_not_intro hmod), .inr⟩
  · rw [if_pos hmod, if_pos (.inl hmod), if_pos rfl]

-- ---------------------------------------------------------------------------
-- The handshake
-- ---------------------------------------------------------------------------

omit [DecidableEq D] in
/-- The hash of a block covers the hash of the block before it: blocks with one hash are on
blocks with one hash. -/
def SameParents (s s' : State D) : Prop :=
  ∀ b b' : Nat, b < s.numBlocks → b' < s'.numBlocks → (s.blk b).sha = (s'.blk b').sha →
    (prevOf s b).map (fun p => (s.blk p).sha) = (prevOf s' b').map (fun p => (s'.blk p).sha)

omit [DecidableEq D] in
/-- Who has a block has all that it is on. -/
theorem SameParents.anc (h : SameParents s s') (ht : TreeOk s) (ht' : TreeOk s') {a' b' : Nat}
    (hb : b < s.numBlocks) (hb' : b' < s'.numBlocks) (hsha : (s.blk b).sha = (s'.blk b').sha)
    (hanc : Anc (prevOf s') a' b') :
    ∃ a, Anc (prevOf s) a b ∧ (s.blk a).sha = (s'.blk a').sha := by
  induction hanc generalizing b with
  | refl => exact ⟨b, Anc.refl _ _, hsha⟩
  | @tail p' b' _ hp' ih =>
    have hmap := h b b' hb hb' hsha
    rw [hp'] at hmap
    obtain ⟨p, hp, hpsha⟩ := Option.map_eq_some_iff.mp hmap
    have hpb := Anc.of_parent hp
    obtain ⟨a, hap, ha⟩ := ih (ht.anc_lt hpb hb) (ht'.anc_lt (Anc.of_parent hp') hb') hpsha
    exact ⟨a, hap.trans hpb, ha⟩

/-- The length of the SYNC packet fits its `len` field. -/
def SyncFits (s : State D) (m : BlockId) : Prop :=
  sizeofPktSync + sizeofSyncBlock * ((s.blk m).depth + 1) < 2 ^ 32

/-- The blocks of a SYNC packet are found by who has the mutual block. -/
theorem recvSyncPkt_of_mutual (h : BlockTree s) (ht' : TreeOk s') (hsame : SameParents s s')
    (hb : b < s.numBlocks) (hm : m < s'.numBlocks) (hsha : (s.blk b).sha = (s'.blk m).sha)
    {pkt : PktSync D} (hpkt : syncPkt s' 0 m = .ok pkt) (hfits : SyncFits s' m) :
    (recvSyncPkt s pkt).2 = .none := by
  obtain ⟨path, pkt', hrun, hblocks, hlen, hcount, htake⟩ := syncPkt_ok ht' hm
  rw [hrun] at hpkt
  obtain rfl := Except.ok.inj hpkt
  have hlength : pkt'.blocks.length = path.length := by rw [hblocks, List.length_map]
  have hfound : ∀ sb ∈ pkt'.blocks,
      blockFindAny s sb.block = some ((blockFindAny s sb.block).getD 0) := by
    intro sb hsb
    rw [hblocks] at hsb
    obtain ⟨x', hx', rfl⟩ := List.mem_map.mp hsb
    rw [← List.take_length (l := path)] at hx'
    obtain ⟨x, hx, hxsha⟩ := hsame.anc h.tree ht' hb hm hsha ((htake _ x').mp hx').1
    have hfind := h.blockFindAny (h.tree.anc_lt hx hb)
    rw [hxsha] at hfind
    show blockFindAny s (s'.blk x').sha = some ((blockFindAny s (s'.blk x').sha).getD 0)
    rw [hfind]
    rfl
  have hread : syncsRead pkt'.blocks.length = pkt'.blocks.length := by
    unfold SyncFits at hfits
    rw [← hcount, ← hlength] at hfits
    exact syncsRead_eq (by omega)
  rw [recvSyncPkt_eq (hlength ▸ hlen), hread, if_neg (by omega),
    recvSyncBlocks_ok (Nat.le_refl _) hfound]

/-- **Two nodes with the same genesis block come to terms**, whatever else is in their trees:
the WELCOME of one is accepted by the other and tells a block that both have, and the
SYNC that goes back is accepted, as long as its length can be written down. -/
theorem handshake_agrees {s s' : State (Bytes 32)} (h : BlockTree s) (h' : BlockTree s')
    (hgenesis : (s'.blk 0).sha = (s.blk 0).sha) (hsame : SameParents s s') :
    ∃ (w : PktWelcome) (blocks : List BlockId), makeWelcome s = .ok w ∧ Greeting s w blocks ∧
      (2 ≤ popcount (interestMap s w.shardOrder) (2 ^ w.shardOrder.toNat) →
        checkWelcome s' w = (.none, blocks.map fun b => (s.blk b).sha) ∧
        ∃ m b : BlockId, mutualBlockSearch s' (checkWelcome s' w).2 = some m ∧
          m < s'.numBlocks ∧ b < s.numBlocks ∧ (s.blk b).sha = (s'.blk m).sha ∧
          ∃ pkt : PktSync (Bytes 32), syncPkt s' 0 m = .ok pkt ∧
            (SyncFits s' m → (recvSyncPkt s pkt).2 = .none)) := by
  obtain ⟨w, blocks, hmake, hw⟩ := makeWelcome_ok h
  refine ⟨w, blocks, hmake, hw, fun hinterest => ?_⟩
  have hcheck := checkWelcome_of_greeting h hgenesis hw hinterest
  obtain ⟨m, b, hmutual, hm, hb, hsha⟩ := mutualBlockSearch_of_greeting h h' hgenesis hw
  obtain ⟨-, pkt, hpkt, -⟩ := syncPkt_ok h'.tree hm
  rw [hcheck]
  exact ⟨rfl, m, b, hmutual, hm, hb, hsha, pkt, hpkt,
    recvSyncPkt_of_mutual h h'.tree hsame hb hm hsha hpkt⟩

-- ---------------------------------------------------------------------------
-- A chain of any depth
-- ---------------------------------------------------------------------------

/-- A hash for each number. -/
def lineSha (k : Nat) : Bytes 32 := ⟨le32 (UInt32.ofNat k) ++ List.replicate 28 0, rfl⟩

/-- The `k`-th block of a chain. -/
def lineBlock (k : Nat) : Block (Bytes 32) :=
  { genesisBlock (lineSha k) (Bytes.zero 32) (Bytes.zero 13) ⟨0, 0, 0⟩ with
    prev := if k = 0 then none else some (k - 1)
    hdr := { (genesisBlock (lineSha k) (Bytes.zero 32) (Bytes.zero 13) ⟨0, 0, 0⟩).hdr with
      prevBlock := lineSha (k - 1), depth := UInt32.ofNat k }
    totalWork := k }

/-- A node that has this many blocks on the genesis block, one after the other. -/
def lineNode (n : Nat) : State (Bytes 32) :=
  { newState (lineBlock 0) 0 with
    numBlocks := n + 1
    blk := fun k => if k ≤ n then lineBlock k else lineBlock 0
    preferredChain := n }

theorem lineNode_prevOf (n k : Nat) :
    prevOf (lineNode n) k = if k = 0 then none else if k ≤ n then some (k - 1) else none := by
  unfold prevOf lineNode
  dsimp only
  by_cases hk : k ≤ n
  · rw [if_pos hk, if_pos hk]
    rfl
  · rw [if_neg hk, if_neg hk]
    split_ifs <;> rfl

theorem lineNode_prev {n k p : Nat} (h : prevOf (lineNode n) k = some p) :
    0 < k ∧ k ≤ n ∧ p + 1 = k := by
  rw [lineNode_prevOf] at h
  split_ifs at h with hzero hle
  obtain rfl := Option.some.inj h
  omega

theorem lineNode_depth {n k : Nat} (hk : k ≤ n) (hn : n < 2 ^ 32) :
    ((lineNode n).blk k).depth = k := by
  unfold lineNode
  dsimp only
  rw [if_pos hk]
  exact UInt32.toNat_ofNat_of_lt' (by rw [UInt32.size]; omega)

theorem lineNode_work {n k : Nat} (hk : k ≤ n) : workOf (lineNode n) k = k := by
  unfold workOf lineNode
  dsimp only
  rw [if_pos hk]
  rfl

theorem lineSha_inj {i j : Nat} (hi : i < 2 ^ 32) (hj : j < 2 ^ 32) (h : lineSha i = lineSha j) :
    i = j := by
  have hbytes := congrArg (fun d => le32At d.1 0) h
  have hread : ∀ k, le32At (lineSha k).1 0 = UInt32.ofNat k := fun k =>
    LiesAt.le32At ⟨[], List.replicate 28 0, rfl, rfl⟩
  rw [hread, hread] at hbytes
  have hnat := congrArg UInt32.toNat hbytes
  rw [UInt32.toNat_ofNat_of_lt' (by rw [UInt32.size]; omega),
    UInt32.toNat_ofNat_of_lt' (by rw [UInt32.size]; omega)] at hnat
  exact hnat

theorem lineNode_sha {n k : Nat} (hk : k ≤ n) : ((lineNode n).blk k).sha = lineSha k := by
  unfold lineNode
  dsimp only
  rw [if_pos hk]
  rfl

theorem lineNode_treeOk {n : Nat} (hn : n < 2 ^ 32) : TreeOk (lineNode n) where
  genesis_lt := Nat.succ_pos n
  genesis_prev := by rw [lineNode_prevOf, if_pos rfl]
  beyond k hk := by
    have hk' : n + 1 ≤ k := hk
    rw [lineNode_prevOf, if_neg (by omega), if_neg (by omega)]
  has_prev k hk hlt := by
    have hlt' : k < n + 1 := hlt
    rw [lineNode_prevOf, if_neg (by omega), if_pos (by omega)]
    exact ⟨_, rfl⟩
  prev_lt k p h := by
    have := lineNode_prev h
    omega
  depth_genesis := lineNode_depth (Nat.zero_le n) hn
  depth_prev k p h := by
    have := lineNode_prev h
    rw [lineNode_depth (by omega) hn, lineNode_depth (by omega) hn]
    omega
  work_prev k p h := by
    have hkp := lineNode_prev h
    rw [lineNode_work (by omega), lineNode_work (by omega)]
    omega
  complaint_genesis := rfl
  complaint_prev k p h hcomplaint := by
    have hnone : ((lineNode n).blk p).complaint = none := by
      unfold lineNode
      dsimp only
      split_ifs <;> rfl
    rw [hnone] at hcomplaint
    exact absurd hcomplaint (by simp)

theorem lineNode_shardOrder (n : Nat) :
    ((lineNode n).blk (lineNode n).preferredChain).hdr.shardOrder = protocolInitialShardOrder := by
  show ((lineNode n).blk n).hdr.shardOrder = _
  unfold lineNode
  dsimp only
  rw [if_pos (Nat.le_refl n)]
  rfl

theorem lineNode_blockTree {n : Nat} (hn : n < 2 ^ 32) : BlockTree (lineNode n) := by
  refine ⟨lineNode_treeOk hn, fun b c hb hc hsha => ?_, Nat.lt_succ_self n, ?_, ?_⟩
  · have hb' : b < n + 1 := hb
    have hc' : c < n + 1 := hc
    rw [lineNode_sha (by omega), lineNode_sha (by omega)] at hsha
    exact lineSha_inj (by omega) (by omega) hsha
  · rw [lineNode_shardOrder]
    exact UInt8.le_refl _
  · rw [lineNode_shardOrder]
    decide

theorem lineNode_sameParents {n n' : Nat} (hn : n < 2 ^ 32) (hn' : n' < 2 ^ 32) :
    SameParents (lineNode n) (lineNode n') := by
  intro b b' hb hb' hsha
  have hb₁ : b < n + 1 := hb
  have hb₂ : b' < n' + 1 := hb'
  rw [lineNode_sha (by omega), lineNode_sha (by omega)] at hsha
  obtain rfl := lineSha_inj (by omega) (by omega) hsha
  rw [lineNode_prevOf, lineNode_prevOf]
  by_cases hzero : b = 0
  · rw [if_pos hzero, if_pos hzero]
    rfl
  · rw [if_neg hzero, if_neg hzero, if_pos (by omega), if_pos (by omega), Option.map_some,
      Option.map_some, lineNode_sha (by omega), lineNode_sha (by omega)]

theorem lineNode_interest (n : Nat) :
    2 ≤ popcount (interestMap (lineNode n) protocolInitialShardOrder)
      (2 ^ protocolInitialShardOrder.toNat) := by
  have hmap : interestMap (lineNode n) protocolInitialShardOrder
      = interestMap (lineNode 0) protocolInitialShardOrder := rfl
  rw [hmap]
  decide +kernel

theorem handshake_agrees_line : ∃ (w : PktWelcome) (m : BlockId) (pkt : PktSync (Bytes 32)),
    makeWelcome (lineNode 3) = .ok w ∧ (checkWelcome (lineNode 2) w).1 = .none ∧
      mutualBlockSearch (lineNode 2) (checkWelcome (lineNode 2) w).2 = some m ∧
      syncPkt (lineNode 2) 0 m = .ok pkt ∧ (recvSyncPkt (lineNode 3) pkt).2 = .none := by
  have hlow : (2 : Nat) < 2 ^ 32 := by omega
  have hhigh : (3 : Nat) < 2 ^ 32 := by omega
  obtain ⟨w, blocks, hmake, hw, hrest⟩ := handshake_agrees (lineNode_blockTree hhigh)
    (lineNode_blockTree hlow) rfl (lineNode_sameParents hhigh hlow)
  have horder : w.shardOrder = protocolInitialShardOrder :=
    hw.shardOrder.trans (lineNode_shardOrder 3)
  obtain ⟨hcheck, m, b, hmutual, hm, -, -, pkt, hpkt, hrecv⟩ :=
    hrest (by rw [horder]; exact lineNode_interest 3)
  refine ⟨w, m, pkt, hmake, by rw [hcheck], hmutual, hpkt, hrecv ?_⟩
  unfold SyncFits sizeofPktSync sizeofSyncBlock
  rw [lineNode_depth (Nat.le_of_lt_succ hm) hlow]
  calc 8 + 36 * (m + 1) ≤ 8 + 36 * 3 := Nat.add_le_add_left (Nat.mul_le_mul_left 36 hm) 8
    _ < 2 ^ 32 := by decide

/-- How many blocks on the genesis block are too many for the length of a SYNC packet. -/
def tooDeep : Nat := 119304647

/-- A chain so deep that the length of the SYNC packet cannot be written down is refused by the
node that told it. -/
theorem handshake_breaks : ∃ (s : State (Bytes 32)) (w : PktWelcome) (m : BlockId)
    (pkt : PktSync (Bytes 32)), BlockTree s ∧ SameParents s s ∧ makeWelcome s = .ok w ∧
      2 ≤ popcount (interestMap s w.shardOrder) (2 ^ w.shardOrder.toNat) ∧
      (checkWelcome s w).1 = .none ∧ mutualBlockSearch s (checkWelcome s w).2 = some m ∧
      syncPkt s 0 m = .ok pkt ∧ (recvSyncPkt s pkt).2 = .invalidLen := by
  have hfit : tooDeep < 2 ^ 32 := by
    unfold tooDeep
    omega
  have h := lineNode_blockTree hfit
  obtain ⟨w, blocks, hmake, hw⟩ := makeWelcome_ok h
  have horder : w.shardOrder = protocolInitialShardOrder :=
    hw.shardOrder.trans (lineNode_shardOrder tooDeep)
  have hinterest : 2 ≤ popcount (interestMap (lineNode tooDeep) w.shardOrder)
      (2 ^ w.shardOrder.toNat) := by
    rw [horder]
    exact lineNode_interest tooDeep
  have hcheck := checkWelcome_of_greeting h rfl hw hinterest
  obtain ⟨path, pkt, hpkt, hblocks, hlen, hcount, -⟩ := syncPkt_ok h.tree h.preferred
  refine ⟨lineNode tooDeep, w, tooDeep, pkt, h, lineNode_sameParents hfit hfit, hmake, hinterest,
    by rw [hcheck], ?_, hpkt, ?_⟩
  · obtain ⟨rest, hrest⟩ := List.head?_eq_some_iff.mp hw.first
    rw [hcheck, hrest]
    unfold mutualBlockSearch
    rw [List.map_cons, List.findSome?_cons, h.blockFindAny h.preferred]
    rfl
  · have hdepth : path.length = 119304648 := by
      rw [hcount]
      exact congrArg (· + 1) (lineNode_depth (Nat.le_refl _) hfit)
    rw [hdepth] at hlen
    have hlen' : pkt.len = 40 := hlen
    unfold recvSyncPkt
    dsimp only
    rw [hlen', if_pos (by decide)]

-- ---------------------------------------------------------------------------
-- What num_children counts
-- ---------------------------------------------------------------------------

section Counting

omit [DecidableEq D]

/-- The blocks below `b`, leaving out `except` and what is below that. -/
def hangsOff (s : State D) (b : BlockId) (except : Option BlockId) : Finset Nat :=
  (Finset.range s.numBlocks).filter fun x =>
    x ≠ b ∧ blockPreceeds s b x = true ∧ ∀ e ∈ except, ¬ blockPreceeds s e x = true

/-- None of them is so far down that `num_children` gives up. -/
def Shallow (s : State D) (b : BlockId) (except : Option BlockId) : Prop :=
  ∀ x ∈ hangsOff s b except, (s.blk x).depth < (s.blk b).depth + numChildrenDepth

/-- The tree without one branch. -/
def prevWithout (s : State D) (except : Option BlockId) (b : Nat) : Option BlockId :=
  if some b = except then none else prevOf s b

def childrenWithout (s : State D) (except : Option BlockId) (b : Nat) : List BlockId :=
  (s.children b).filter fun c => some c ≠ except

theorem prevWithout_eq_some {except : Option BlockId} {p : Nat} :
    prevWithout s except b = some p ↔ some b ≠ except ∧ prevOf s b = some p := by
  unfold prevWithout
  split_ifs with h
  · exact iff_of_false (by simp) fun hp => hp.1 h
  · exact ⟨fun hp => ⟨h, hp⟩, And.right⟩

theorem grows_prevWithout (ht : TreeOk s) (except : Option BlockId) :
    Grows (prevWithout s except) := fun x y h => ht.prev_lt y x (prevWithout_eq_some.mp h).2

theorem childrenOf_without (s : State D) (except : Option BlockId) :
    ChildrenOf (prevWithout s except) (childrenWithout s except) where
  parent_of_mem b c hc := by
    obtain ⟨hmem, hne⟩ := List.mem_filter.mp hc
    exact prevWithout_eq_some.mpr ⟨of_decide_eq_true hne, (childrenOf s).parent_of_mem b c hmem⟩
  sorted b := ((childrenOf s).sorted b).filter _

theorem mem_childrenWithout (ht : TreeOk s) {except : Option BlockId}
    (h : prevWithout s except c = some b) : c ∈ childrenWithout s except b := by
  obtain ⟨hne, hp⟩ := prevWithout_eq_some.mp h
  exact List.mem_filter.mpr ⟨mem_children.mpr ⟨ht.lt_of_prev hp, hp⟩, decide_eq_true hne⟩

/-- What is below `b` when the branch of a child is left out. -/
theorem anc_prevWithout (ht : TreeOk s) {except : Option BlockId}
    (hexcept : ∀ e ∈ except, prevOf s e = some b) {x : Nat} :
    Anc (prevWithout s except) b x ↔
      Anc (prevOf s) b x ∧ ∀ e ∈ except, ¬ Anc (prevOf s) e x := by
  constructor
  · intro h
    induction h with
    | refl =>
      refine ⟨Anc.refl _ _, fun e he hanc => ?_⟩
      have hlt := ht.prev_lt e b (hexcept e he)
      have hle := hanc.le ht.grows
      omega
    | @tail p x _ hp ih =>
      obtain ⟨hne, hp⟩ := prevWithout_eq_some.mp hp
      refine ⟨ih.1.trans (Anc.of_parent hp), fun e he hanc => ?_⟩
      rcases anc_iff_eq_or_parent.mp hanc with rfl | ⟨q, hq, heq⟩
      · exact hne he.symm
      · rw [hp] at hq
        exact ih.2 e he (Option.some.inj hq ▸ heq)
  · rintro ⟨h, hout⟩
    induction h with
    | refl => exact Anc.refl _ _
    | @tail p x _ hp ih =>
      refine (ih fun e he hanc => hout e he (hanc.trans (Anc.of_parent hp))).trans
        (Anc.of_parent (prevWithout_eq_some.mpr ⟨fun heq => ?_, hp⟩))
      exact hout x heq.symm (Anc.refl _ _)

/-- Where the count is given up, so is the code's. -/
theorem numChildrenFrom_of_none {except : Option BlockId} {levels : Nat}
    (h : countBelow (childrenWithout s except) levels b = none) :
    numChildrenFrom s except levels b = protocolPktChildrenSome := by
  induction levels generalizing b with
  | zero => rfl
  | succ levels ih =>
    have hbranch : ∃ c ∈ childrenWithout s except b,
        countBelow (childrenWithout s except) levels c = none := by
      by_contra hno
      exact foldlM_countBelow_ne_none (fun c hc hnone => hno ⟨c, hc, hnone⟩) h
    obtain ⟨c, hc, hnone⟩ := hbranch
    obtain ⟨hmem, hne⟩ := List.mem_filter.mp hc
    unfold numChildrenFrom
    rw [foldlM_eq_none]
    · rfl
    · refine ⟨c, hmem, fun num => ?_⟩
      rw [if_neg (of_decide_eq_true hne), ih hnone]
      exact if_pos rfl

/-- The code counts as `countBelow` does, while 32 bits are enough. -/
theorem numChildrenFrom_of_some {except : Option BlockId} {levels k : Nat}
    (h : countBelow (childrenWithout s except) levels b = some k) (hk : k < 2 ^ 32 - 1) :
    numChildrenFrom s except levels b = UInt32.ofNat k := by
  induction levels generalizing b k with
  | zero => exact absurd h (by simp [countBelow])
  | succ levels ih =>
    have hfold : ∀ (l : List BlockId) (num : Nat),
        (l.filter fun c => some c ≠ except).foldlM (fun num c =>
          (countBelow (childrenWithout s except) levels c).map (num + 1 + ·)) num = some k →
        l.foldlM (fun num c =>
          if some c = except then some num
          else
            let children := numChildrenFrom s except levels c
            if children = protocolPktChildrenSome then none else some (num + 1 + children))
          (UInt32.ofNat num) = some (UInt32.ofNat k) := by
      intro l
      induction l with
      | nil =>
        intro num hl
        exact congrArg some (congrArg UInt32.ofNat (Option.some.inj hl))
      | cons c l ihl =>
        intro num hl
        rw [List.foldlM_cons]
        by_cases hc : some c = except
        · rw [if_pos hc]
          rw [List.filter_cons_of_neg (by simpa using hc)] at hl
          exact ihl num hl
        · rw [if_neg hc]
          rw [List.filter_cons_of_pos (by simpa using hc), List.foldlM_cons] at hl
          obtain ⟨next, hnext, hrest⟩ := Option.bind_eq_some_iff.mp hl
          obtain ⟨m, hm, rfl⟩ := Option.map_eq_some_iff.mp hnext
          have hle := (foldlM_countBelow hrest).2
          have hsome : UInt32.ofNat m ≠ protocolPktChildrenSome := by
            intro heq
            have hnat := congrArg UInt32.toNat heq
            rw [UInt32.toNat_ofNat_of_lt' (by rw [UInt32.size]; omega)] at hnat
            have : protocolPktChildrenSome.toNat = 2 ^ 32 - 1 := rfl
            omega
          have hadd : UInt32.ofNat num + 1 + UInt32.ofNat m = UInt32.ofNat (num + 1 + m) := by
            rw [UInt32.ofNat_add, UInt32.ofNat_add]
            rfl
          dsimp only
          rw [ih hm (by omega), if_neg hsome, hadd]
          exact ihl _ hrest
    unfold numChildrenFrom
    rw [show (0 : UInt32) = UInt32.ofNat 0 from rfl, hfold _ _ h]
    rfl

theorem mem_hangsOff (ht : TreeOk s) {except : Option BlockId} {x : Nat} :
    x ∈ hangsOff s b except ↔ x < s.numBlocks ∧ x ≠ b ∧ Anc (prevOf s) b x ∧
      ∀ e ∈ except, ¬ Anc (prevOf s) e x := by
  unfold hangsOff
  rw [Finset.mem_filter, Finset.mem_range]
  refine and_congr_right fun _ => and_congr_right fun _ => and_congr (blockPreceeds_iff ht) ?_
  exact forall₂_congr fun e _ => not_congr (blockPreceeds_iff ht)

/-- There are fewer of them than blocks. -/
theorem card_hangsOff_lt (hb : b < s.numBlocks) (except : Option BlockId) :
    (hangsOff s b except).card < s.numBlocks := by
  have hsub : hangsOff s b except ⊆ (Finset.range s.numBlocks).erase b := by
    intro x hx
    obtain ⟨hlt, hne, -⟩ := Finset.mem_filter.mp hx
    exact Finset.mem_erase.mpr ⟨hne, hlt⟩
  have hle := Finset.card_le_card hsub
  rw [Finset.card_erase_of_mem (Finset.mem_range.mpr hb), Finset.card_range] at hle
  omega

section

variable (ht : TreeOk s) {except : Option BlockId} (hexcept : ∀ e ∈ except, prevOf s e = some b)

include ht hexcept

/-- The blocks that hang off `b` are what is below it in the tree without that branch. -/
theorem mem_hangsOff_without {x : Nat} :
    x ∈ hangsOff s b except ↔ x ≠ b ∧ Anc (prevWithout s except) b x := by
  rw [mem_hangsOff ht, anc_prevWithout ht hexcept]
  refine ⟨And.right, fun h => ⟨?_, h⟩⟩
  rcases anc_iff_eq_or_parent.mp h.2.1 with heq | ⟨p, hp, -⟩
  · exact absurd heq.symm h.1
  · exact ht.lt_of_prev hp

/-- `num_children` tells how many blocks hang off, -/
theorem numChildren_of_shallow (hb : b < s.numBlocks) (hfew : s.numBlocks < 2 ^ 32)
    (h : Shallow s b except) :
    numChildren s b except = UInt32.ofNat (hangsOff s b except).card := by
  have hlevel : ∀ b c, prevWithout s except c = some b → (s.blk c).depth = (s.blk b).depth + 1 :=
    fun b c hc => ht.depth_prev c b (prevWithout_eq_some.mp hc).2
  cases hcount : countBelow (childrenWithout s except) numChildrenDepth b with
  | none =>
    obtain ⟨x, hx, hfar⟩ := (countBelow_eq_none_iff (childrenOf_without s except)
      (fun b c => mem_childrenWithout ht) hlevel).mp hcount
    have hne : x ≠ b := by
      rintro rfl
      unfold numChildrenDepth at hfar
      omega
    have := h x ((mem_hangsOff_without ht hexcept).mpr ⟨hne, hx⟩)
    omega
  | some k =>
    have hcard := card_of_countBelow (grows_prevWithout ht except) (childrenOf_without s except)
      (fun b c => mem_childrenWithout ht) hlevel hcount
      fun x => mem_hangsOff_without ht hexcept
    have hlt := card_hangsOff_lt hb except
    unfold numChildren
    rw [numChildrenFrom_of_some hcount (by omega), hcard]

/-- or gives up. -/
theorem numChildren_of_deep (h : ¬ Shallow s b except) :
    numChildren s b except = protocolPktChildrenSome := by
  have hlevel : ∀ b c, prevWithout s except c = some b → (s.blk c).depth = (s.blk b).depth + 1 :=
    fun b c hc => ht.depth_prev c b (prevWithout_eq_some.mp hc).2
  obtain ⟨x, hx, hfar⟩ : ∃ x ∈ hangsOff s b except,
      (s.blk b).depth + numChildrenDepth ≤ (s.blk x).depth := by
    by_contra hno
    exact h fun x hx => not_le.mp fun hfar => hno ⟨x, hx, hfar⟩
  refine numChildrenFrom_of_none ((countBelow_eq_none_iff (childrenOf_without s except)
    (fun b c => mem_childrenWithout ht) hlevel).mpr ⟨x, ?_, hfar⟩)
  exact ((mem_hangsOff_without ht hexcept).mp hx).2

end

end Counting

-- ---------------------------------------------------------------------------
-- What is asked for
-- ---------------------------------------------------------------------------

/-- The receiver's tree is part of the sender's, and not all of it. -/
structure StrictPart (r s : State D) : Prop where
  part : ∀ b : Nat, b < r.numBlocks → ∃ b' < s.numBlocks, (r.blk b).sha = (s.blk b').sha
  missing : ∃ y < s.numBlocks, ∀ b < r.numBlocks, (r.blk b).sha ≠ (s.blk y).sha

/-- What the receiver has queued on account of this packet. -/
def queues (r : State D) (pkt : PktSync D) (b : BlockId) : Prop :=
  .todoAddGetChildren (r.blk b).sha ∈ (recvSyncPkt r pkt).1.events.drop r.events.length

/-- The two blocks are one, on the way from the genesis block to `m` in the receiver's tree, and
to `m'` in the sender's. -/
structure OnPath (r s : State D) (m m' b b' : BlockId) : Prop where
  ours : Anc (prevOf r) b m
  theirs : Anc (prevOf s) b' m'
  same : (r.blk b).sha = (s.blk b').sha

/-- More hangs off that block at the sender than at the receiver, and neither count reaches the
depth limit. -/
structure Grown (r s : State D) (m m' b b' : BlockId) : Prop where
  onPath : OnPath r s m m' b b'
  ours : Shallow r b (nextOnPath r m b)
  theirs : Shallow s b' (nextOnPath s m' b')
  larger : (hangsOff r b (nextOnPath r m b)).card < (hangsOff s b' (nextOnPath s m' b')).card

/-- What a SYNC is for: the receiver asks about every block that has grown, and about one at
least where no count reaches the depth limit. -/
structure Discovers (r s : State D) (m m' : BlockId) (pkt : PktSync D) : Prop where
  grown : ∀ b b', Grown r s m m' b b' → queues r pkt b
  some : (∀ b b', OnPath r s m m' b b' → Shallow r b (nextOnPath r m b) ∧
    Shallow s b' (nextOnPath s m' b')) → ∃ b b', OnPath r s m m' b b' ∧ queues r pkt b

section

variable {r : State D} {m' b' : Nat} (hr : BlockTree r) (hs : BlockTree s)
  (hsame : SameParents r s)

omit [DecidableEq D] in
theorem SameParents.symm (h : SameParents s s') : SameParents s' s := fun b' b hb' hb hsha =>
  (h b b' hb hb' hsha.symm).symm

omit [DecidableEq D] in
theorem nextOnPath_spec (ht : TreeOk s) {e : Nat} (h : nextOnPath s m b = some e) :
    prevOf s e = some b ∧ Anc (prevOf s) e m :=
  ⟨(childrenOf s).parent_of_mem b e (List.mem_of_find?_eq_some h),
    (blockPreceeds_iff ht).mp (List.find?_some (p := fun c => blockPreceeds s c m) h)⟩

include hr hs hsame

omit [DecidableEq D] in
/-- Every block on the way at the receiver is on the way at the sender. -/
theorem exists_onPath (hm : m < r.numBlocks) (hm' : m' < s.numBlocks)
    (hmutual : (r.blk m).sha = (s.blk m').sha) (hb : Anc (prevOf s) b' m') :
    ∃ b, OnPath r s m m' b b' := by
  obtain ⟨b, hbm, hsha⟩ := hsame.anc hr.tree hs.tree hm hm' hmutual hb
  exact ⟨b, hbm, hb, hsha⟩

omit [DecidableEq D] in
/-- What hangs off a block at the receiver hangs off it at the sender. -/
theorem hangsOff_sender (hm : m < r.numBlocks) (hm' : m' < s.numBlocks)
    (hmutual : (r.blk m).sha = (s.blk m').sha) (hb : OnPath r s m m' b b') {z z' : Nat}
    (hz : z ∈ hangsOff r b (nextOnPath r m b)) (hz' : z' < s.numBlocks)
    (hsha : (r.blk z).sha = (s.blk z').sha) : z' ∈ hangsOff s b' (nextOnPath s m' b') := by
  obtain ⟨hzlt, hne, hanc, hout⟩ := (mem_hangsOff hr.tree).mp hz
  have hblt := hr.tree.anc_lt hb.ours hm
  have hb'lt := hs.tree.anc_lt hb.theirs hm'
  refine (mem_hangsOff hs.tree).mpr ⟨hz', ?_, ?_, fun e' he' hez' => ?_⟩
  · rintro rfl
    exact hne (hr.distinct z b hzlt hblt (hsha.trans hb.same.symm))
  · obtain ⟨a', ha', haSha⟩ := hsame.symm.anc hs.tree hr.tree hz' hzlt hsha.symm hanc
    obtain rfl := hs.distinct a' b' (hs.tree.anc_lt ha' hz') hb'lt (haSha.trans hb.same)
    exact ha'
  · -- the next block on the way is the same at both
    obtain ⟨hprev', hem'⟩ := nextOnPath_spec hs.tree he'
    obtain ⟨e, hem, heSha⟩ := hsame.anc hr.tree hs.tree hm hm' hmutual hem'
    have helt := hr.tree.anc_lt hem hm
    have hmap := hsame e e' helt (hs.tree.anc_lt hem' hm') heSha
    rw [hprev'] at hmap
    obtain ⟨p, hp, hpsha⟩ := Option.map_eq_some_iff.mp hmap
    obtain rfl := hr.distinct p b (hr.tree.anc_lt ((Anc.of_parent hp).trans hem) hm) hblt
      (hpsha.trans hb.same.symm)
    obtain ⟨x, hxz, hxsha⟩ := hsame.anc hr.tree hs.tree hzlt hz' hsha hez'
    obtain rfl := hr.distinct x e (hr.tree.anc_lt hxz hzlt) helt (hxsha.trans heSha.symm)
    exact hout x (nextOnPath_eq hr.tree hp hem) hxz

omit [DecidableEq D] in
/-- A block that is missing hangs off some block on the way. -/
theorem exists_larger (hpart : StrictPart r s) (hm : m < r.numBlocks) (hm' : m' < s.numBlocks)
    (hmutual : (r.blk m).sha = (s.blk m').sha) :
    ∃ b b', OnPath r s m m' b b' ∧
      (hangsOff r b (nextOnPath r m b)).card < (hangsOff s b' (nextOnPath s m' b')).card := by
  obtain ⟨y, hy, hmissing⟩ := hpart.missing
  -- the last block on the way that `y` is below
  have hleaves : ∀ n b', m' - b' = n → Anc (prevOf s) b' m' → Anc (prevOf s) b' y →
      ∃ b', Anc (prevOf s) b' m' ∧ Anc (prevOf s) b' y ∧
        ∀ e ∈ nextOnPath s m' b', ¬ Anc (prevOf s) e y := by
    intro n
    induction n using Nat.strong_induction_on with
    | _ n ih =>
      intro b' hn hbm hby
      by_cases hgoes : ∃ e ∈ nextOnPath s m' b', Anc (prevOf s) e y
      · obtain ⟨e, he, hey⟩ := hgoes
        obtain ⟨hprev, hem⟩ := nextOnPath_spec hs.tree he
        have hlt := hs.tree.prev_lt e b' hprev
        have hle := hem.le hs.tree.grows
        exact ih (m' - e) (by omega) e rfl hem hey
      · exact ⟨b', hbm, hby, fun e he hey => hgoes ⟨e, he, hey⟩⟩
  obtain ⟨b', hbm', hby, hout⟩ := hleaves _ 0 rfl (hs.tree.genesis_anc hm') (hs.tree.genesis_anc hy)
  obtain ⟨b, hb⟩ := exists_onPath hr hs hsame hm hm' hmutual hbm'
  have hblt := hr.tree.anc_lt hb.ours hm
  refine ⟨b, b', hb, ?_⟩
  choose their htheir using hpart.part
  have hlt : ∀ z ∈ hangsOff r b (nextOnPath r m b), z < r.numBlocks := fun z hz =>
    ((mem_hangsOff hr.tree).mp hz).1
  have himage : ∀ z (hz : z ∈ hangsOff r b (nextOnPath r m b)),
      their z (hlt z hz) ∈ (hangsOff s b' (nextOnPath s m' b')).erase y := by
    intro z hz
    obtain ⟨hlt', hsha⟩ := htheir z (hlt z hz)
    refine Finset.mem_erase.mpr ⟨fun heq => ?_, ?_⟩
    · rw [heq] at hsha
      exact hmissing z (hlt z hz) hsha
    · exact hangsOff_sender hr hs hsame hm hm' hmutual hb hz hlt' hsha
  have hcard := Finset.card_le_card_of_injOn
    (fun z => if hz : z < r.numBlocks then their z hz else 0)
    (s := hangsOff r b (nextOnPath r m b)) (t := (hangsOff s b' (nextOnPath s m' b')).erase y)
    (fun z hz => by
      dsimp only
      rw [dif_pos (hlt z hz)]
      exact himage z hz)
    (fun z hz x hx heq => by
      dsimp only at heq
      rw [dif_pos (hlt z hz), dif_pos (hlt x hx)] at heq
      refine hr.distinct z x (hlt z hz) (hlt x hx) ?_
      rw [(htheir z (hlt z hz)).2, (htheir x (hlt x hx)).2, heq])
  have hin : y ∈ hangsOff s b' (nextOnPath s m' b') := by
    refine (mem_hangsOff hs.tree).mpr ⟨hy, ?_, hby, hout⟩
    rintro rfl
    exact hmissing b hblt hb.same
  rw [Finset.card_erase_of_mem hin] at hcard
  have hpos := Finset.card_pos.mpr ⟨y, hin⟩
  omega

omit [DecidableEq D] hs hsame in
theorem numBlocks_le_of_part (hpart : StrictPart r s) : r.numBlocks ≤ s.numBlocks := by
  choose their htheir using hpart.part
  have hcard := Finset.card_le_card_of_injOn (fun z => if hz : z < r.numBlocks then their z hz else 0)
    (s := Finset.range r.numBlocks) (t := Finset.range s.numBlocks)
    (fun z hz => by
      have hlt := Finset.mem_range.mp hz
      dsimp only
      rw [dif_pos hlt]
      exact Finset.mem_coe.mpr (Finset.mem_range.mpr (htheir z hlt).1))
    (fun z hz x hx heq => by
      have hzlt := Finset.mem_range.mp hz
      have hxlt := Finset.mem_range.mp hx
      dsimp only at heq
      rw [dif_pos hzlt, dif_pos hxlt] at heq
      refine hr.distinct z x hzlt hxlt ?_
      rw [(htheir z hzlt).2, (htheir x hxlt).2, heq])
  rw [Finset.card_range, Finset.card_range] at hcard
  exact hcard

/-- A block on the way is asked about if its syncblock is read, and its count is more than that of
all the receiver has below it. -/
theorem queues_iff (hm : m < r.numBlocks) (hm' : m' < s.numBlocks)
    (hmutual : (r.blk m).sha = (s.blk m').sha) (hb : OnPath r s m m' b b') {pkt : PktSync D}
    (hpkt : syncPkt s 0 m' = .ok pkt) :
    queues r pkt b ↔ (s.blk m').depth < (s.blk b').depth + syncsRead ((s.blk m').depth + 1) ∧
      numChildren r b none < numChildren s b' (nextOnPath s m' b') := by
  obtain ⟨path, pkt', hrun, hblocks, hlen, hcount, htake⟩ := syncPkt_ok hs.tree hm'
  rw [hrun] at hpkt
  obtain rfl := Except.ok.inj hpkt
  have hlength : pkt'.blocks.length = (s.blk m').depth + 1 := by
    rw [hblocks, List.length_map, hcount]
  have hknown : ∀ x', Anc (prevOf s) x' m' →
      ∃ x, blockFindAny r (s.blk x').sha = some x ∧ (r.blk x).sha = (s.blk x').sha := by
    intro x' hx'
    obtain ⟨x, hx, hsha⟩ := hsame.anc hr.tree hs.tree hm hm' hmutual hx'
    have hfind := hr.blockFindAny (hr.tree.anc_lt hx hm)
    rw [hsha] at hfind
    exact ⟨x, hfind, hsha⟩
  have hfound : ∀ sb ∈ pkt'.blocks,
      blockFindAny r sb.block = some ((blockFindAny r sb.block).getD 0) := by
    intro sb hsb
    rw [hblocks] at hsb
    obtain ⟨x', hx', rfl⟩ := List.mem_map.mp hsb
    rw [← List.take_length (l := path)] at hx'
    obtain ⟨x, hfind, -⟩ := hknown x' ((htake _ x').mp hx').1
    show blockFindAny r (s.blk x').sha = some ((blockFindAny r (s.blk x').sha).getD 0)
    rw [hfind]
    rfl
  have hdepth := hs.tree.anc_depth hb.theirs
  unfold queues
  rw [recvSyncPkt_eq (by rw [hlen, hlength, hcount]), hlength]
  by_cases hread : syncsRead ((s.blk m').depth + 1) = 0
  · rw [if_pos hread, hread, List.drop_length]
    exact iff_of_false List.not_mem_nil fun h => by omega
  · rw [if_neg hread, recvSyncBlocks_ok (hlength ▸ syncsRead_le _) hfound]
    dsimp only
    rw [List.drop_left, List.mem_flatMap, hblocks, ← List.map_take]
    constructor
    · rintro ⟨sb, hsb, hasks⟩
      obtain ⟨x', hx', rfl⟩ := List.mem_map.mp (List.mem_reverse.mp hsb)
      obtain ⟨hanc, hfar⟩ := (htake _ x').mp hx'
      obtain ⟨x, hfind, hsha⟩ := hknown x' hanc
      have hget : (blockFindAny r (syncBlockOf s x' (nextOnPath s m' x')).block).getD 0 = x := by
        show (blockFindAny r (s.blk x').sha).getD 0 = x
        rw [hfind]
        rfl
      rw [hget] at hasks
      unfold asks at hasks
      split_ifs at hasks with hless
      · have heq := List.mem_singleton.mp hasks
        have hxb : (r.blk b).sha = (r.blk x).sha := by injection heq
        obtain rfl := hs.distinct x' b' (hs.tree.anc_lt hanc hm') (hs.tree.anc_lt hb.theirs hm')
          (hsha.symm.trans (hxb.symm.trans hb.same))
        obtain rfl := hr.distinct b x (hr.tree.anc_lt hb.ours hm) (blockFindAny_spec hfind).1 hxb
        exact ⟨hfar, hless⟩
      · exact absurd hasks List.not_mem_nil
    · rintro ⟨hfar, hless⟩
      refine ⟨syncBlockOf s b' (nextOnPath s m' b'), List.mem_reverse.mpr (List.mem_map.mpr
        ⟨b', (htake _ b').mpr ⟨hb.theirs, hfar⟩, rfl⟩), ?_⟩
      have hfind := hr.blockFindAny (hr.tree.anc_lt hb.ours hm)
      rw [hb.same] at hfind
      have hget : (blockFindAny r (syncBlockOf s b' (nextOnPath s m' b')).block).getD 0 = b := by
        show (blockFindAny r (s.blk b').sha).getD 0 = b
        rw [hfind]
        rfl
      have hasks : asks r (syncBlockOf s b' (nextOnPath s m' b')) b
          = [.todoAddGetChildren (r.blk b).sha] := if_pos hless
      rw [hget, hasks]
      exact List.mem_singleton_self _

/-- **What a SYNC brings to light**: the receiver asks about every block on the way that has grown
exactly when each of them, as it is at the sender, has more hanging off it than the
receiver has below it altogether, the rest of the way included. -/
theorem sync_discovers_iff (hpart : StrictPart r s) (hfew : s.numBlocks < 2 ^ 32)
    (hm' : m' < s.numBlocks) (hmutual : (r.blk r.preferredChain).sha = (s.blk m').sha) :
    ∃ pkt, syncPkt s 0 m' = .ok pkt ∧
      (Discovers r s r.preferredChain m' pkt ↔
        ∀ b b', Grown r s r.preferredChain m' b b' →
          (s.blk m').depth < (s.blk b').depth + syncsRead ((s.blk m').depth + 1) ∧
            Shallow r b none ∧
            (hangsOff r b none).card < (hangsOff s b' (nextOnPath s m' b')).card) := by
  obtain ⟨path, pkt, hpkt, -⟩ := syncPkt_ok hs.tree hm'
  have hm := hr.preferred
  have hasked : ∀ b b', Grown r s r.preferredChain m' b b' →
      (queues r pkt b ↔
        (s.blk m').depth < (s.blk b').depth + syncsRead ((s.blk m').depth + 1) ∧
          Shallow r b none ∧
          (hangsOff r b none).card < (hangsOff s b' (nextOnPath s m' b')).card) := by
    intro b b' hgrown
    rw [queues_iff hr hs hsame hm hm' hmutual hgrown.onPath hpkt]
    refine and_congr_right fun _ => ?_
    have hblt := hr.tree.anc_lt hgrown.onPath.ours hm
    have hb'lt := hs.tree.anc_lt hgrown.onPath.theirs hm'
    have hfew' := (numBlocks_le_of_part hr hpart).trans_lt hfew
    have htheirs := card_hangsOff_lt hb'lt (nextOnPath s m' b')
    rw [numChildren_of_shallow hs.tree (fun e he => (nextOnPath_spec hs.tree he).1) hb'lt hfew
      hgrown.theirs]
    by_cases hshallow : Shallow r b none
    · have hours := card_hangsOff_lt hblt none
      rw [numChildren_of_shallow hr.tree (fun e he => absurd he (by simp)) hblt hfew' hshallow,
        UInt32.lt_iff_toNat_lt, UInt32.toNat_ofNat_of_lt' (by rw [UInt32.size]; omega),
        UInt32.toNat_ofNat_of_lt' (by rw [UInt32.size]; omega)]
      exact ⟨fun h => ⟨hshallow, h⟩, And.right⟩
    · rw [numChildren_of_deep hr.tree (fun e he => absurd he (by simp)) hshallow,
        UInt32.lt_iff_toNat_lt, UInt32.toNat_ofNat_of_lt' (by rw [UInt32.size]; omega)]
      refine iff_of_false (fun h => ?_) fun h => hshallow h.1
      have hsome : protocolPktChildrenSome.toNat = 2 ^ 32 - 1 := rfl
      omega
  refine ⟨pkt, hpkt, fun h b b' hgrown => (hasked b b' hgrown).mp (h.grown b b' hgrown),
    fun h => ⟨fun b b' hgrown => (hasked b b' hgrown).mpr (h b b' hgrown), fun hshallow => ?_⟩⟩
  obtain ⟨b, b', hb, hlarger⟩ := exists_larger hr hs hsame hpart hm hm' hmutual
  have hgrown : Grown r s r.preferredChain m' b b' :=
    ⟨hb, (hshallow b b' hb).1, (hshallow b b' hb).2, hlarger⟩
  exact ⟨b, b', hb, (hasked b b' hgrown).mpr (h b b' hgrown)⟩

end

-- ---------------------------------------------------------------------------
-- Two siblings
-- ---------------------------------------------------------------------------

/-- A block with nothing in it. -/
def sampleEmpty : BlockParts IdealDigest := sampleBlock .zero 1 4 []

/-- What the receiver heard, and what the sender heard: another block besides. -/
def receiverHeard : List (NodeEvent IdealDigest) := [sampleHeader sampleEmpty]
def senderHeard : List (NodeEvent IdealDigest) := [sampleHeader sampleEmpty, sampleHeader sampleFirst]

/-- What there is to see of the two trees: the sender's has one more block, next to the one that
both prefer, and nothing is asked for. -/
def siblingTrees (r s : State IdealDigest) : Bool :=
  decide (r.numBlocks = 2 ∧ s.numBlocks = 3 ∧ r.preferredChain = 1) &&
    decide ((r.blk 0).sha = (s.blk 0).sha ∧ (r.blk 1).sha = (s.blk 1).sha) &&
    decide (prevOf r 0 = none ∧ prevOf r 1 = some 0 ∧ prevOf s 0 = none ∧ prevOf s 1 = some 0 ∧
      prevOf s 2 = some 0 ∧ (s.blk 0).depth = 0 ∧ (s.blk 2).depth = 1) &&
    decide ((syncPkt s 0 1).toOption.map (fun pkt => (recvSyncPkt r pkt).1.events.length)
      = some r.events.length)

theorem exists_siblingTrees : ∃ r s : State IdealDigest, NodeReach idealEnv r ∧
    NodeReach idealEnv s ∧ siblingTrees r s = true := by
  have hrun : ((nodeRun idealEnv sampleNode receiverHeard).toOption.bind fun r =>
      (nodeRun idealEnv sampleNode senderHeard).toOption.map (siblingTrees r)) = some true := by
    decide +kernel
  obtain ⟨r, hr, hrest⟩ := Option.bind_eq_some_iff.mp hrun
  obtain ⟨s, hs, hsib⟩ := Option.map_eq_some_iff.mp hrest
  exact ⟨r, s, nodeReach_sampleNode.run (eq_ok_of_toOption hr),
    nodeReach_sampleNode.run (eq_ok_of_toOption hs), hsib⟩

/-- The trees are as the rest of the module wants them. -/
theorem siblingTrees_spec {r s : State IdealDigest} (hr : BlockTree r) (hs : BlockTree s)
    (h : siblingTrees r s = true) :
    SameParents r s ∧ StrictPart r s ∧ (r.blk r.preferredChain).sha = (s.blk 1).sha ∧
      s.numBlocks = 3 ∧ Grown r s r.preferredChain 1 0 0 := by
  unfold siblingTrees at h
  simp only [Bool.and_eq_true, decide_eq_true_eq] at h
  obtain ⟨⟨⟨⟨hrn, hsn, hpref⟩, hsha0, hsha1⟩, hr0, hr1, hs0, hs1, hs2, hd0, hd2⟩, -⟩ := h
  rw [hpref]
  have hanc1 : ∀ {x : Nat}, x < 3 → Anc (prevOf s) 1 x → x = 1 := by
    intro x hx hanc
    rcases anc_iff_eq_or_parent.mp hanc with heq | ⟨p, hp, hanc⟩
    · exact heq.symm
    · have hle := hanc.le hs.tree.grows
      have : x = 0 ∨ x = 1 ∨ x = 2 := by omega
      rcases this with rfl | rfl | rfl
      · exact absurd (hs0.symm.trans hp) (by simp)
      · rfl
      · obtain rfl := Option.some.inj (hs2.symm.trans hp)
        omega
  have hnextR : nextOnPath r 1 0 = some 1 := nextOnPath_eq hr.tree hr1 (Anc.refl _ _)
  have hnextS : nextOnPath s 1 0 = some 1 := nextOnPath_eq hs.tree hs1 (Anc.refl _ _)
  have hours : hangsOff r 0 (some 1) = ∅ := by
    refine Finset.eq_empty_of_forall_notMem fun x hx => ?_
    obtain ⟨hlt, hne, -, hout⟩ := (mem_hangsOff hr.tree).mp hx
    have : x = 1 := by omega
    exact hout 1 rfl (this ▸ Anc.refl _ _)
  have htheirs : hangsOff s 0 (some 1) = {2} := by
    refine Finset.eq_singleton_iff_unique_mem.mpr ⟨?_, fun x hx => ?_⟩
    · refine (mem_hangsOff hs.tree).mpr ⟨by omega, by omega, Anc.of_parent hs2, fun e he hanc => ?_⟩
      obtain rfl := Option.some.inj he
      have := hanc1 (by omega) hanc
      omega
    · obtain ⟨hlt, hne, -, hout⟩ := (mem_hangsOff hs.tree).mp hx
      have hne1 : x ≠ 1 := fun heq => hout 1 rfl (heq ▸ Anc.refl _ _)
      omega
  refine ⟨fun b b' hb hb' hsha => ?_, ⟨fun b hb => ?_, ⟨2, by omega, fun b hb hsha => ?_⟩⟩, hsha1,
    hsn, ⟨⟨Anc.of_parent hr1, Anc.of_parent hs1, hsha0⟩, ?_, ?_, ?_⟩⟩
  · have hcase : b = 0 ∨ b = 1 := by omega
    rcases hcase with rfl | rfl
    · obtain rfl := hs.distinct b' 0 hb' (by omega) (hsha.symm.trans hsha0)
      rw [hr0, hs0]
      rfl
    · obtain rfl := hs.distinct b' 1 hb' (by omega) (hsha.symm.trans hsha1)
      rw [hr1, hs1, Option.map_some, Option.map_some, hsha0]
  · have hcase : b = 0 ∨ b = 1 := by omega
    rcases hcase with rfl | rfl
    · exact ⟨0, by omega, hsha0⟩
    · exact ⟨1, by omega, hsha1⟩
  · have hcase : b = 0 ∨ b = 1 := by omega
    rcases hcase with rfl | rfl
    · exact absurd (hs.distinct 0 2 (by omega) (by omega) (hsha0.symm.trans hsha)) (by omega)
    · exact absurd (hs.distinct 1 2 (by omega) (by omega) (hsha1.symm.trans hsha)) (by omega)
  · rw [hnextR]
    unfold Shallow
    rw [hours]
    exact fun x hx => absurd hx (Finset.notMem_empty x)
  · rw [hnextS]
    unfold Shallow
    rw [htheirs]
    intro x hx
    rw [Finset.mem_singleton.mp hx, hd0, hd2]
    decide
  · rw [hnextR, hnextS, hours, htheirs, Finset.card_empty, Finset.card_singleton]
    exact Nat.one_pos

/-- The condition tells of two reachable nodes. -/
theorem sync_discovers_iff_siblings : ∃ (r s : State IdealDigest) (pkt : PktSync IdealDigest),
    NodeReach idealEnv r ∧ NodeReach idealEnv s ∧ syncPkt s 0 1 = .ok pkt ∧
      (Discovers r s r.preferredChain 1 pkt ↔
        ∀ b b', Grown r s r.preferredChain 1 b b' →
          (s.blk 1).depth < (s.blk b').depth + syncsRead ((s.blk 1).depth + 1) ∧
            Shallow r b none ∧
            (hangsOff r b none).card < (hangsOff s b' (nextOnPath s 1 b')).card) := by
  obtain ⟨r, s, hr, hs, hsib⟩ := exists_siblingTrees
  have hnums : r.numBlocks = 2 ∧ s.numBlocks = 3 := by
    unfold siblingTrees at hsib
    simp only [Bool.and_eq_true, decide_eq_true_eq] at hsib
    exact ⟨hsib.1.1.1.1, hsib.1.1.1.2.1⟩
  have hrt := hr.blockTree (by rw [hnums.1]; decide)
  have hst := hs.blockTree (by rw [hnums.2]; decide)
  obtain ⟨hsame, hpart, hmutual, hnum, -⟩ := siblingTrees_spec hrt hst hsib
  obtain ⟨pkt, hpkt, hiff⟩ :=
    sync_discovers_iff hrt hst hsame hpart (by rw [hnum]; decide) (by rw [hnum]; decide) hmutual
  exact ⟨r, s, pkt, hr, hs, hpkt, hiff⟩

/-- **A branch that nobody asks about**: of two reachable nodes, one has a block next to the
preferred one of the other, whose own block makes up for it in the count. -/
theorem sync_misses : ∃ (r s : State IdealDigest) (pkt : PktSync IdealDigest),
    NodeReach idealEnv r ∧ NodeReach idealEnv s ∧ SameParents r s ∧ StrictPart r s ∧
      (r.blk r.preferredChain).sha = (s.blk 1).sha ∧ syncPkt s 0 1 = .ok pkt ∧
      Grown r s r.preferredChain 1 0 0 ∧ ∀ b, ¬ queues r pkt b := by
  obtain ⟨r, s, hr, hs, hsib⟩ := exists_siblingTrees
  have hchecks := hsib
  unfold siblingTrees at hchecks
  simp only [Bool.and_eq_true, decide_eq_true_eq] at hchecks
  obtain ⟨⟨⟨⟨hrn, hsn, -⟩, -⟩, -⟩, hquiet⟩ := hchecks
  have hrt := hr.blockTree (by rw [hrn]; decide)
  have hst := hs.blockTree (by rw [hsn]; decide)
  obtain ⟨hsame, hpart, hmutual, -, hgrown⟩ := siblingTrees_spec hrt hst hsib
  obtain ⟨pkt, hpkt, hlen⟩ := Option.map_eq_some_iff.mp hquiet
  refine ⟨r, s, pkt, hr, hs, hsame, hpart, hmutual, eq_ok_of_toOption hpkt, hgrown, fun b hb => ?_⟩
  unfold queues at hb
  rw [List.drop_of_length_le (Nat.le_of_eq hlen)] at hb
  exact List.not_mem_nil hb

end Pettycoin
