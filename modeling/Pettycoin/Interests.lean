import Pettycoin.Features
import Pettycoin.Sync

/-!
# Pettycoin — the interests a node tells

`add_interests` puts a bit map of the shards that a node is interested in into
its WELCOME, for `peer_wants_tx` and `peer_wants_tx_other` of the other side to
choose by what to relay. It calls `interested_in_shard` with the shard and the
order the wrong way round: the map tells the interests exactly if the node is
interested in everything or in nothing, or nearly so (`interestsTold_iff`).

* `mapBit_interestMap` — which bits of the map are set;
* `interestedInShardAt_swapped` — what the swapped arguments ask;
* `allOrNothing_iff` — where that comes to the same;
* `interestsTold_iff` — when the map tells the interests.
-/

namespace Pettycoin

open ExceptRules

variable {s : State (Bytes 32)} {w : PktWelcome}

-- ---------------------------------------------------------------------------
-- peer_wants.c
-- ---------------------------------------------------------------------------

/-- `peer_wants_shard()`, by the WELCOME of the peer. -/
def peerWantsShard (w : PktWelcome) (shard : Nat) : Bool :=
  byteAt w.body (shard / 8) &&& 1 <<< UInt8.ofNat (shard % 8) != 0

/-- `peer_wants_tx()`. -/
def peerWantsTx {D : Type} (C : Crypto D) (past : TxFromGateway → GatewayPayment) (w : PktWelcome)
    (tx : Tx D) : Bool :=
  peerWantsShard w (shardOfTx C past tx w.shardOrder)

/-- `peer_wants_tx_other()`. -/
def peerWantsTxOther {D : Type} (w : PktWelcome) : Tx D → Bool
  -- These only affect one shard.
  | .fromGateway _ => false
  -- This also affects shard of output address.
  | .normal t => peerWantsShard w (shardOf t.outputAddr w.shardOrder)
  -- These only affect one shard (inputs).
  | .toGateway _ | .claim _ => false

-- ---------------------------------------------------------------------------
-- What is asked for
-- ---------------------------------------------------------------------------

/-- `ask_block_contents` asks for the shard. -/
def AsksFor {D : Type} (s : State D) (b shard : Nat) : Prop :=
  Event.todoAddGetShard (s.blk b).sha shard ∈ (askBlockContents { s with events := [] } b).events

/-- It asks for the shards of interest whose hashes are not all known. -/
theorem asksFor_iff {D : Type} {s : State D} {b shard : Nat} :
    AsksFor s b shard ↔ shard < (s.blk b).numShards ∧
      interestedInShard s (s.blk b).hdr.shardOrder shard = true ∧
      shardAllHashes (s.shardOf b shard) = false := by
  have hloop : ∀ (shards : List Nat) (s' : State D), s'.blk = s.blk → s'.interests = s.interests →
      (Event.todoAddGetShard (s.blk b).sha shard ∈ (shards.foldl (fun s' shard =>
          if !interestedInShard s' (s'.blk b).hdr.shardOrder shard then s'
          else if !shardAllHashes (s'.shardOf b shard) then
            s'.emit (.todoAddGetShard (s'.blk b).sha shard)
          else s') s').events ↔
        Event.todoAddGetShard (s.blk b).sha shard ∈ s'.events ∨
          shard ∈ shards ∧ interestedInShard s (s.blk b).hdr.shardOrder shard = true ∧
            shardAllHashes (s.shardOf b shard) = false) := by
    intro shards
    induction shards with
    | nil => simp
    | cons x rest ih =>
      intro s' hblk hinterests
      have hinterest : interestedInShard s' (s'.blk b).hdr.shardOrder x
          = interestedInShard s (s.blk b).hdr.shardOrder x := by
        unfold interestedInShard
        rw [hblk, hinterests]
      have hshard : s'.shardOf b x = s.shardOf b x := by
        unfold State.shardOf
        rw [hblk]
      rw [List.foldl_cons, hinterest, hshard, hblk]
      by_cases hi : interestedInShard s (s.blk b).hdr.shardOrder x = true
      · by_cases hh : shardAllHashes (s.shardOf b x) = true
        · simp only [hi, hh, Bool.not_true, Bool.false_eq_true, if_false]
          rw [ih s' hblk hinterests, List.mem_cons]
          refine or_congr_right (and_congr_left fun hs => ?_)
          refine ⟨.inr, fun hx => hx.resolve_left ?_⟩
          rintro rfl
          exact absurd (hh.symm.trans hs.2) (by decide)
        · have hh' : shardAllHashes (s.shardOf b x) = false := by simpa using hh
          simp only [hi, hh', Bool.not_true, Bool.false_eq_true, if_false, Bool.not_false, if_true]
          rw [ih (s'.emit _) hblk hinterests]
          show _ ∈ s'.events ++ [_] ∨ _ ↔ _
          rw [List.mem_append, List.mem_singleton, List.mem_cons, Event.todoAddGetShard.injEq]
          constructor
          · rintro ((hold | ⟨-, rfl⟩) | ⟨hx, hs⟩)
            · exact .inl hold
            · exact .inr ⟨.inl rfl, hi, hh'⟩
            · exact .inr ⟨.inr hx, hs⟩
          · rintro (hold | ⟨rfl | hx, hs⟩)
            · exact .inl (.inl hold)
            · exact .inl (.inr ⟨rfl, rfl⟩)
            · exact .inr ⟨hx, hs⟩
      · have hi' : interestedInShard s (s.blk b).hdr.shardOrder x = false := by simpa using hi
        simp only [hi', Bool.not_false, if_true]
        rw [ih s' hblk hinterests, List.mem_cons]
        refine or_congr_right (and_congr_left fun hs => ?_)
        refine ⟨.inr, fun hx => hx.resolve_left ?_⟩
        rintro rfl
        exact hi hs.1
  have h := hloop (List.range (s.blk b).numShards) { s with events := [] } rfl rfl
  rw [List.mem_range] at h
  exact h.trans (or_iff_right List.not_mem_nil)

-- ---------------------------------------------------------------------------
-- The map
-- ---------------------------------------------------------------------------

/-- A bit of a map. -/
def mapBit (map : List UInt8) (i : Nat) : Bool := (byteAt map (i / 8)).toNat.testBit (i % 8)

theorem peerWantsShard_eq (w : PktWelcome) (shard : Nat) :
    peerWantsShard w shard = mapBit w.body shard :=
  and_bit_ne_zero _ (Nat.mod_lt _ (by omega))

theorem mapBit_append {map rest : List UInt8} {i : Nat} (hi : i / 8 < map.length) :
    mapBit (map ++ rest) i = mapBit map i := by
  unfold mapBit byteAt
  rw [List.getElem?_append_left hi]

theorem mapBit_replicate (n i : Nat) : mapBit (List.replicate n 0) i = false := by
  unfold mapBit byteAt
  rw [List.getElem?_replicate]
  split_ifs <;> simp

/-- Set the bit of shard `i`. -/
def setMapBit (map : List UInt8) (i : Nat) : List UInt8 :=
  map.modify (i / 8) fun byte => byte ||| 1 <<< UInt8.ofNat (i % 8)

/-- Setting a bit sets that bit. -/
theorem mapBit_setMapBit {map : List UInt8} {i j : Nat} (hi : i / 8 < map.length) :
    mapBit (setMapBit map i) j = (mapBit map j || decide (i = j)) := by
  have hmod := Nat.mod_lt i (show 0 < 8 by omega)
  unfold mapBit byteAt setMapBit
  by_cases hbyte : i / 8 = j / 8
  · rw [← hbyte, List.getElem?_modify_eq, List.getElem?_eq_getElem hi]
    simp only [Option.map_eq_map, Option.map_some, Option.getD_some]
    rw [UInt8.toNat_or, Nat.testBit_or, toNat_one_shiftLeft hmod, Nat.testBit_two_pow]
    congr 1
    rw [decide_eq_decide]
    omega
  · have hne : i ≠ j := fun h => hbyte (h ▸ rfl)
    rw [List.getElem?_modify_ne _ _ hbyte]
    simp [hne]

theorem length_setBits (p : Nat → Bool) (shards : List Nat) (map : List UInt8) :
    (shards.foldl (fun map i => if p i then setMapBit map i else map) map).length = map.length := by
  induction shards generalizing map with
  | nil => rfl
  | cons x rest ih =>
    rw [List.foldl_cons, ih]
    split_ifs
    · exact List.length_modify ..
    · rfl

/-- The bits that pass a test are set, one after the other. -/
theorem mapBit_setBits (p : Nat → Bool) {n j : Nat} {map : List UInt8}
    (hn : (n + 7) / 8 ≤ map.length) :
    mapBit ((List.range n).foldl (fun map i => if p i then setMapBit map i else map) map) j
      = (mapBit map j || (decide (j < n) && p j)) := by
  induction n with
  | zero => simp
  | succ n ih =>
    rw [List.range_succ, List.foldl_append, List.foldl_cons, List.foldl_nil]
    have hrest := ih (by omega)
    have hlen := length_setBits p (List.range n) map
    split_ifs with hp
    · rw [mapBit_setMapBit (by omega), hrest]
      by_cases heq : n = j
      · subst heq
        simp [hp]
      · have hlt : j < n + 1 ↔ j < n := by omega
        simp [heq, hlt]
    · rw [hrest]
      by_cases heq : n = j
      · subst heq
        simp [hp]
      · have hlt : j < n + 1 ↔ j < n := by omega
        simp [hlt]

/-- The map has the bit of a shard as the call of `interested_in_shard` comes out. -/
theorem mapBit_interestMap (s : State (Bytes 32)) (order : UInt8) {shard : Nat}
    (hshard : shard < 2 ^ order.toNat) :
    mapBit (interestMap s order) shard
      = interestedInShardAt s (UInt32.ofNat shard) order.toUInt16 := by
  unfold interestMap
  have hlen : (2 ^ order.toNat + 7) / 8 ≤ (List.replicate (interestLen order) (0 : UInt8)).length := by
    rw [List.length_replicate]
    unfold interestLen
    omega
  refine (mapBit_setBits (fun i => interestedInShardAt s (UInt32.ofNat i) order.toUInt16) hlen).trans ?_
  rw [mapBit_replicate]
  simp [hshard]

-- ---------------------------------------------------------------------------
-- The numbers
-- ---------------------------------------------------------------------------

/-- With its arguments in place the call is `interested_in_shard`. -/
theorem interestedInShardAt_eq {D : Type} (s : State D) {order : UInt8} {shard : Nat}
    (hlow : protocolInitialShardOrder ≤ order) (hhigh : order ≤ protocolMaxShardOrder)
    (hshard : shard < 2 ^ 16) :
    interestedInShardAt s order.toUInt32 (UInt16.ofNat shard) = interestedInShard s order shard := by
  have hle : order.toNat ≤ 16 := hhigh
  have hge : 2 ≤ order.toNat := hlow
  unfold interestedInShardAt interestedInShard
  have hcount : (order.toUInt32 - protocolInitialShardOrder.toUInt32).toNat
      = (order - protocolInitialShardOrder).toNat := by
    rw [UInt32.toNat_sub_of_le, UInt8.toNat_sub_of_le _ _ hlow]
    · rfl
    · exact hlow
  have hsub : (order - protocolInitialShardOrder).toNat = order.toNat - 2 :=
    UInt8.toNat_sub_of_le _ _ hlow
  rw [UInt16.toNat_ofNat_of_lt' hshard, hcount, hsub, Nat.mod_eq_of_lt (by omega)]

/-- What the swapped call looks at. -/
theorem interestedInShardAt_swapped {D : Type} (s : State D) {order : UInt8} {shard : Nat}
    (hshard : shard < 2 ^ 16) :
    interestedInShardAt s (UInt32.ofNat shard) order.toUInt16
      = s.interests (order.toNat >>> ((shard + 30) % 32)) := by
  unfold interestedInShardAt
  have hcount : (UInt32.ofNat shard - protocolInitialShardOrder.toUInt32).toNat % 32
      = (shard + 30) % 32 := by
    rw [UInt32.toNat_sub, UInt32.toNat_ofNat_of_lt' (by rw [UInt32.size]; omega),
      show protocolInitialShardOrder.toUInt32.toNat = 2 from rfl]
    omega
  rw [hcount]
  rfl

/-- All shards are of interest or none is, as far as the map looks: of the initial order
the third is not looked at. -/
def AllOrNothing (interests : Nat → Bool) (order : Nat) : Prop :=
  if order = 2 then interests 1 = interests 0 ∧ interests 3 = interests 0
  else (∀ j < 4, interests j = interests 0) ∧ ∀ k, interests (order >>> k) = interests 0

theorem shiftRight_eq_zero {order k : Nat} (horder : order ≤ 16) (hk : 5 ≤ k) :
    order >>> k = 0 := by
  rw [Nat.shiftRight_eq_div_pow]
  refine Nat.div_eq_of_lt (Nat.lt_of_le_of_lt horder ?_)
  exact Nat.lt_of_lt_of_le (by omega) (Nat.pow_le_pow_right (by omega) hk)

/-- The order shifted as the shard says, and the shard shifted as the order says, are
equally of interest exactly then. -/
theorem allOrNothing_iff (interests : Nat → Bool) {order : Nat} (hlow : 2 ≤ order)
    (hhigh : order ≤ 16) :
    (∀ shard < 2 ^ order,
      interests (order >>> ((shard + 30) % 32)) = interests (shard >>> (order - 2))) ↔
      AllOrNothing interests order := by
  unfold AllOrNothing
  split_ifs with htwo
  · subst htwo
    constructor
    · intro h
      exact ⟨(h 1 (by decide)).symm, (h 3 (by decide)).symm.trans (h 1 (by decide)).symm⟩
    · rintro ⟨h₁, h₃⟩ shard hshard
      have hlt : shard < 4 := hshard
      interval_cases shard
      · rfl
      · exact h₁.symm
      · rfl
      · exact h₁.trans h₃.symm
  · have hpow : 2 ^ order = 4 * 2 ^ (order - 2) := by
      rw [show order = order - 2 + 2 by omega, Nat.pow_add]
      simp [Nat.mul_comm]
    have height : 8 ≤ 2 ^ order := Nat.pow_le_pow_right (n := 2) (i := 3) (by omega) (by omega)
    constructor
    · intro h
      have hsame : ∀ j < 4, interests j = interests 0 := by
        intro j hj
        by_cases hthree : order = 3
        · subst hthree
          have h₂ := h 2 (by decide)
          have h₄ := h 4 (by decide)
          have h₆ := h 6 (by decide)
          interval_cases j
          · rfl
          · exact h₂.symm.trans h₆.symm
          · exact h₄.symm
          · exact h₆.symm
        · by_cases hfour : order = 4
          · subst hfour
            have h₅ := h 5 (by decide)
            have h₈ := h 8 (by decide)
            have h₁₂ := h 12 (by decide)
            interval_cases j
            · rfl
            · exact h₅.symm
            · exact h₈.symm
            · exact h₁₂.symm
          · -- a shard of the quarter for which all of the order is shifted out
            have hquarter : 8 ≤ 2 ^ (order - 2) :=
              Nat.pow_le_pow_right (n := 2) (i := 3) (by omega) (by omega)
            have hlt : j * 2 ^ (order - 2) + 7 < 2 ^ order := by
              have hmul : j * 2 ^ (order - 2) ≤ 3 * 2 ^ (order - 2) :=
                Nat.mul_le_mul_right _ (by omega)
              omega
            have hshard := h _ hlt
            have hcount : 5 ≤ (j * 2 ^ (order - 2) + 7 + 30) % 32 := by
              interval_cases order <;> omega
            have hback : (j * 2 ^ (order - 2) + 7) >>> (order - 2) = j := by
              rw [Nat.shiftRight_eq_div_pow, Nat.mul_comm j, Nat.mul_add_div (by omega),
                Nat.div_eq_of_lt (by omega), Nat.add_zero]
            rw [shiftRight_eq_zero hhigh hcount, hback] at hshard
            exact hshard.symm
      refine ⟨hsame, fun k => ?_⟩
      by_cases hk : k < 5
      · have hshard := h (k + 2) (by omega)
        rw [show (k + 2 + 30) % 32 = k by omega] at hshard
        rw [hshard]
        refine hsame _ ?_
        rw [Nat.shiftRight_eq_div_pow]
        have htwo' : 2 ≤ 2 ^ (order - 2) :=
          Nat.pow_le_pow_right (n := 2) (i := 1) (by omega) (by omega)
        exact (Nat.div_lt_iff_lt_mul (by omega)).mpr (by omega)
      · rw [shiftRight_eq_zero hhigh (by omega)]
    · rintro ⟨hsame, hshift⟩ shard hshard
      rw [hshift, hsame (shard >>> (order - 2))]
      rw [Nat.shiftRight_eq_div_pow]
      exact (Nat.div_lt_iff_lt_mul (Nat.pos_of_ne_zero (by positivity))).mpr (hpow ▸ hshard)

-- ---------------------------------------------------------------------------
-- What the peer goes by
-- ---------------------------------------------------------------------------

/-- The WELCOME tells the interests: a bit for each shard that is one; the peer wants to
relay the transactions whose home shard is one, or whose output shard is; and those are the
shards that a node asks for the contents of. -/
structure InterestsTold (C : Crypto (Bytes 32)) (past : TxFromGateway → GatewayPayment)
    (s : State (Bytes 32)) (w : PktWelcome) : Prop where
  bits : ∀ shard < 2 ^ w.shardOrder.toNat,
    peerWantsShard w shard = interestedInShard s w.shardOrder shard
  home : ∀ tx : Tx (Bytes 32), peerWantsTx C past w tx
    = interestedInShard s w.shardOrder (shardOfTx C past tx w.shardOrder)
  other : ∀ tx : Tx (Bytes 32), peerWantsTxOther w tx = true ↔ ∃ t, tx = .normal t ∧
    interestedInShard s w.shardOrder (shardOf t.outputAddr w.shardOrder) = true
  asked : ∀ b shard : Nat, (s.blk b).hdr.shardOrder = w.shardOrder → shard < (s.blk b).numShards →
    shardAllHashes (s.shardOf b shard) = false →
    (AsksFor s b shard ↔ peerWantsShard w shard = true)

theorem shardOf_lt (addr : Address) {order : UInt8} (hhigh : order ≤ protocolMaxShardOrder) :
    shardOf addr order < 2 ^ order.toNat := by
  have hle : order.toNat ≤ 16 := hhigh
  unfold shardOf
  rw [Nat.shiftRight_eq_div_pow, Nat.div_lt_iff_lt_mul (by positivity), ← Nat.pow_add,
    show order.toNat + (16 - order.toNat) = 16 by omega]
  have h₀ := (addr.1[0]?.getD 0).toNat_lt
  have h₁ := (addr.1[1]?.getD 0).toNat_lt
  omega

/-- **Whether the advertised interests are the real ones**: where a node is interested in all
shards or in none, as far as the map looks. A WELCOME can be made in any case, with the shard order
of the preferred block. -/
theorem interestsTold_iff (C : Crypto (Bytes 32)) (past : TxFromGateway → GatewayPayment)
    (h : BlockTree s) :
    ∃ w, makeWelcome s = .ok w ∧ w.shardOrder = (s.blk s.preferredChain).hdr.shardOrder ∧
      (InterestsTold C past s w ↔ AllOrNothing s.interests w.shardOrder.toNat) := by
  obtain ⟨w, blocks, hmake, hw⟩ := makeWelcome_ok h
  refine ⟨w, hmake, hw.shardOrder, ?_⟩
  have hlow : protocolInitialShardOrder ≤ w.shardOrder := hw.shardOrder ▸ h.orderLow
  have hhigh : w.shardOrder ≤ protocolMaxShardOrder := hw.shardOrder ▸ h.orderHigh
  have hle : w.shardOrder.toNat ≤ 16 := hhigh
  have hsub : (w.shardOrder - protocolInitialShardOrder).toNat = w.shardOrder.toNat - 2 :=
    UInt8.toNat_sub_of_le _ _ hlow
  have hbit : ∀ shard < 2 ^ w.shardOrder.toNat, peerWantsShard w shard
      = s.interests (w.shardOrder.toNat >>> ((shard + 30) % 32)) := by
    intro shard hshard
    have hsmall : shard < 2 ^ 16 := hshard.trans_le (Nat.pow_le_pow_right (by omega) hle)
    rw [peerWantsShard_eq, hw.body, mapBit_append, mapBit_interestMap s _ hshard,
      interestedInShardAt_swapped s hsmall]
    rw [length_interestMap]
    unfold interestLen
    omega
  have hreal : ∀ shard, interestedInShard s w.shardOrder shard
      = s.interests (shard >>> (w.shardOrder.toNat - 2)) := by
    intro shard
    unfold interestedInShard
    rw [hsub]
  have hlow' : 2 ≤ w.shardOrder.toNat := hlow
  have hiff := allOrNothing_iff s.interests hlow' hle
  constructor
  · intro htold
    refine hiff.mp fun shard hshard => ?_
    rw [← hbit shard hshard, htold.bits shard hshard, hreal]
  · intro hall
    have hbits : ∀ shard < 2 ^ w.shardOrder.toNat,
        peerWantsShard w shard = interestedInShard s w.shardOrder shard := by
      intro shard hshard
      rw [hbit shard hshard, hiff.mpr hall shard hshard, hreal]
    refine ⟨hbits, fun tx => hbits _ (shardOf_lt _ hhigh), fun tx => ?_, fun b shard horder hlt hh => ?_⟩
    · cases tx with
      | normal t =>
        have hout := hbits _ (shardOf_lt t.outputAddr hhigh)
        constructor
        · exact fun hwant => ⟨t, rfl, hout ▸ hwant⟩
        · rintro ⟨t', ht', hint⟩
          obtain rfl := Tx.normal.inj ht'
          exact hout.trans hint
      | fromGateway t | toGateway t | claim t =>
        refine iff_of_false Bool.false_ne_true ?_
        rintro ⟨t', ht', -⟩
        cases ht'
    · have hshard : shard < 2 ^ w.shardOrder.toNat := by
        unfold Block.numShards at hlt
        rwa [horder] at hlt
      rw [asksFor_iff, horder, hbits shard hshard]
      exact ⟨fun hask => hask.2.1, fun hint => ⟨hlt, hint, hh⟩⟩

-- ---------------------------------------------------------------------------
-- One shard
-- ---------------------------------------------------------------------------

/-- Keys are told apart by their first byte; nothing else is asked of it. -/
def firstByteCrypto : Crypto (Bytes 32) where
  doubleSha _ := Bytes.zero 32
  pubkeyToAddr := idealCrypto.pubkeyToAddr
  ecdsaVerify _ _ _ := false

/-- A node that is interested in everything tells so. -/
theorem interestsTold_iff_line :
    ∃ w, makeWelcome (lineNode 2) = .ok w ∧
      InterestsTold firstByteCrypto (fun _ => ⟨0, Bytes.zero 20⟩) (lineNode 2) w := by
  obtain ⟨w, hmake, horder, hiff⟩ := interestsTold_iff firstByteCrypto (fun _ => ⟨0, Bytes.zero 20⟩)
    (lineNode_blockTree (show 2 < 2 ^ 32 by omega))
  have htwo : w.shardOrder = protocolInitialShardOrder := horder.trans (lineNode_shardOrder 2)
  refine ⟨w, hmake, hiff.mpr ?_⟩
  rw [htwo]
  exact ⟨rfl, rfl⟩

/-- A node that wants the second shard only. -/
def secondShardNode : State (Bytes 32) := { lineNode 0 with interests := fun i => i == 1 }

/-- It tells that it wants none of it. -/
theorem interests_not_told : ∃ w, BlockTree secondShardNode ∧ makeWelcome secondShardNode = .ok w ∧
    w.shardOrder = protocolInitialShardOrder ∧
    interestedInShard secondShardNode w.shardOrder 1 = true ∧ peerWantsShard w 1 = false := by
  have hline := lineNode_blockTree (show 0 < 2 ^ 32 by omega)
  have hsame : SameBlocks (lineNode 0) secondShardNode := ⟨rfl, fun _ => rfl⟩
  have h : BlockTree secondShardNode :=
    ⟨hsame.treeOk hline.tree, hline.distinct, hline.preferred, hline.orderLow, hline.orderHigh⟩
  obtain ⟨w, blocks, hmake, hw⟩ := makeWelcome_ok h
  have horder : w.shardOrder = protocolInitialShardOrder := hw.shardOrder.trans (lineNode_shardOrder 0)
  refine ⟨w, h, hmake, horder, by rw [horder]; rfl, ?_⟩
  have hlong : 1 / 8 < (interestMap secondShardNode protocolInitialShardOrder).length := by
    rw [length_interestMap]
    decide
  rw [peerWantsShard_eq, hw.body, horder, mapBit_append hlong, mapBit_interestMap _ _ (by decide)]
  rfl

end Pettycoin
