import Pettycoin.Sync
import Pettycoin.Todo

/-!
# Pettycoin — the answer to GET_CHILDREN

`recv_children` goes through the blocks that a peer says are below one of ours,
to ask for those that are unknown, and for the children of those that have more
of them than here (`childrenDue`). The loop looks up the first of them in every
turn, whatever the turn; and when the peer does not know the block, the request
is marked failed and then dropped all the same.

`recvChildren_right_iff` says for which packets nothing comes of that.

* `recvChildrenLoop_turn` — what one turn of the loop asks for;
* `childrenAnswered_iff` — when a packet is dealt with as it should;
* `recvChildren_right_iff` — the same in every state a run of the requests reaches;
* `recvChildren_forgets` — two packets of which nothing comes.
-/

namespace Pettycoin

open ExceptRules

variable {D P : Type} [DecidableEq D]

-- ---------------------------------------------------------------------------
-- The source
-- ---------------------------------------------------------------------------

/-- `sizeof(struct protocol_pkt_children)`. -/
def sizeofPktChildren : Nat := 44

/-- `PROTOCOL_ECODE_NONE`, as it stands in a packet. -/
def protocolEcodeNone : UInt32 := 0

/-- `PROTOCOL_ECODE_UNKNOWN_BLOCK`, as it stands in a packet. -/
def protocolEcodeUnknownBlock : UInt32 := 12

/-- `struct protocol_pkt_children`, with the syncblocks that are within its length. -/
structure PktChildren (D : Type) where
  len : UInt32
  block : D
  err : UInt32
  blocks : List (SyncBlock D)
  blocks_length : blocks.length = (len.toNat - sizeofPktChildren) / sizeofSyncBlock

/-- The loop of `recv_children`: the block is the first one's in every turn. -/
def recvChildrenLoop (s : State D) (first : D) :
    List (SyncBlock D) → TodoState D P → TodoState D P
  | [], t => t
  | sb :: rest, t =>
    recvChildrenLoop s first rest <|
      match blockFindAny s first with
      -- We'd better find out about this one...
      | none => t.newTodoRequest (.getBlock first)
      | some b =>
        -- If they have more children than us, ask deeper.
        if numChildren s b none < sb.children then t.newTodoRequest (.getChildren (s.blk b).sha)
        else t

/-- `recv_children()` from where the error has been looked at. -/
def recvChildrenBlocks (s : State D) (t : TodoState D P) (peer : Fin maxPeers)
    (pkt : PktChildren D) : Except TodoFault (TodoState D P × Ecode) :=
  let len := pkt.len - UInt32.ofNat sizeofPktChildren
  if len.toNat % sizeofSyncBlock ≠ 0 then .ok (t, .invalidLen)
  else
    let t :=
      match pkt.blocks with
      | [] => t
      | first :: _ => recvChildrenLoop s first.block pkt.blocks t
    (TodoOp.done peer (.getChildren pkt.block) true).apply t >>= fun t => .ok (t, .none)

/-- `recv_children()`, from that peer. -/
def recvChildren (s : State D) (t : TodoState D P) (peer : Fin maxPeers) (pkt : PktChildren D) :
    Except TodoFault (TodoState D P × Ecode) :=
  if pkt.len.toNat < sizeofPktChildren then .ok (t, .invalidLen)
  else
    match blockFindAny s pkt.block with
    | none => .ok (t, .unknownBlock)
    | some _ =>
      if pkt.err ≠ protocolEcodeNone then
        if pkt.len.toNat ≠ sizeofPktChildren then .ok (t, .invalidLen)
        else if pkt.err ≠ protocolEcodeUnknownBlock then .ok (t, .unknownCommand)
        else
          -- They don't know the block.  OK.
          (TodoOp.done peer (.getChildren pkt.block) false).apply t >>= fun t =>
            recvChildrenBlocks s t peer pkt
      else recvChildrenBlocks s t peer pkt

-- ---------------------------------------------------------------------------
-- What is due
-- ---------------------------------------------------------------------------

/-- The requests there are. -/
def TodoState.queued (t : TodoState D P) : List (TodoPkt D) := t.todo.map (·.pkt)

/-- What to ask on account of a syncblock. -/
def childrenDue (s : State D) (sb : SyncBlock D) : Option (TodoPkt D) :=
  match blockFindAny s sb.block with
  | none => some (.getBlock sb.block)
  | some b => if numChildren s b none < sb.children then some (.getChildren sb.block) else none

/-- What the loop asks for is due for a syncblock that names the first block. -/
def SyncBlock.at (sb : SyncBlock D) (first : D) : SyncBlock D := { sb with block := first }

/-- The blocks of the packet were asked about as is due, nothing else was, and the request
that the packet answers is gone. -/
structure ChildrenAnswered (s : State D) (t t' : TodoState D P) (pkt : PktChildren D) : Prop where
  unknown : ∀ sb ∈ pkt.blocks, blockFindAny s sb.block = none → .getBlock sb.block ∈ t'.queued
  deeper : ∀ sb ∈ pkt.blocks, ∀ b, blockFindAny s sb.block = some b →
    numChildren s b none < sb.children → .getChildren sb.block ∈ t'.queued
  added : ∀ r ∈ t'.queued, r ∈ t.queued ∨ ∃ sb ∈ pkt.blocks, childrenDue s sb = some r
  removed : .getChildren pkt.block ∉ t'.queued

/-- The request is still there for the other peers, and this one failed it if it was
asked. -/
def ChildrenRefused (t t' : TodoState D P) (peer : Fin maxPeers) (block : D) : Prop :=
  ∀ r ∈ t.todo, r.pkt = .getChildren block →
    ∃ r' ∈ t'.todo, r'.pkt = r.pkt ∧ r'.peersAsked = r.peersAsked ∧
      (∀ j, j ≠ peer → r'.peersFailed j = r.peersFailed j) ∧
      (r.peersAsked peer = true → r'.peersFailed peer = true)

/-- What is to come of a packet. -/
structure ChildrenRight (s : State D) (t t' : TodoState D P) (peer : Fin maxPeers)
    (pkt : PktChildren D) : Prop where
  answered : pkt.err = protocolEcodeNone → ChildrenAnswered s t t' pkt
  refused : pkt.err = protocolEcodeUnknownBlock → ChildrenRefused t t' peer pkt.block

/-- All that is due is due for the first block or is asked already, and is not what the
packet answers; what the loop asks of the first block is due, or is asked already, or is
what the packet answers; and there is no request to drop when the peer does not know. -/
structure FirstIsAll (s : State D) (t : TodoState D P) (pkt : PktChildren D) : Prop where
  due : pkt.err = protocolEcodeNone → ∀ first, pkt.blocks.head? = some first →
    ∀ sb ∈ pkt.blocks, ∀ r, childrenDue s sb = some r →
      r ≠ .getChildren pkt.block ∧ (r ∈ t.queued ∨ sb.block = first.block)
  asked : pkt.err = protocolEcodeNone → ∀ first, pkt.blocks.head? = some first →
    ∀ sb ∈ pkt.blocks, ∀ r, childrenDue s (sb.at first.block) = some r →
      r = .getChildren pkt.block ∨ r ∈ t.queued ∨ ∃ sb' ∈ pkt.blocks, childrenDue s sb' = some r
  refused : pkt.err = protocolEcodeUnknownBlock → .getChildren pkt.block ∉ t.queued

-- ---------------------------------------------------------------------------
-- The requests
-- ---------------------------------------------------------------------------

section

variable {s : State D} {t t' : TodoState D P} {peer : Fin maxPeers} {pkt : PktChildren D}
  {r : TodoPkt D}

theorem mem_queued_newTodoRequest {new : TodoPkt D} :
    r ∈ (t.newTodoRequest new).queued ↔ r ∈ t.queued ∨ r = new := by
  unfold TodoState.newTodoRequest
  cases hfind : t.findTodo new with
  | some found =>
    obtain ⟨hmem, hpkt⟩ := TodoState.findTodo_eq_some hfind
    refine ⟨.inl, fun h => h.elim id ?_⟩
    rintro rfl
    exact List.mem_map.mpr ⟨found, hmem, hpkt⟩
  | none => simp [TodoState.queued]

omit [DecidableEq D] in
/-- The loop of `delete_todo` changes the peers only. -/
theorem answered_todo {req : TodoRequest D} {l : List (Fin maxPeers)}
    (h : TodoState.answered req l t = .ok t') : t'.todo = t.todo := by
  induction l generalizing t with
  | nil => exact (congrArg TodoState.todo (Except.ok.inj h)).symm
  | cons i rest ih =>
    unfold TodoState.answered at h
    split_ifs at h
    · cases hfind : t.findPeer i with
      | none =>
        rw [hfind] at h
        cases h
      | some p =>
        rw [hfind] at h
        dsimp only at h
        exact (ih h).trans rfl
    · exact ih h

theorem done_apply (hpeer : peer ∈ t.connected) (done : TodoPkt D)
    (success : Bool) : ∃ p : TodoPeer P, p.peerNum = peer ∧
      (TodoOp.done peer done success).apply t = t.finishTodo p done success := by
  obtain ⟨p, hp⟩ := TodoState.findPeer_isSome hpeer
  refine ⟨p, (TodoState.findPeer_eq_some hp).2, ?_⟩
  unfold TodoOp.apply
  dsimp only
  rw [hp]

/-- `todo_done_*` after a success: the request is gone, and no other. -/
theorem mem_queued_done (h : TodoOk t) (hpeer : peer ∈ t.connected) {done : TodoPkt D}
    (ht' : (TodoOp.done peer done true).apply t = .ok t') :
    r ∈ t'.queued ↔ r ∈ t.queued ∧ r ≠ done := by
  obtain ⟨p, -, happly⟩ := done_apply hpeer done _
  rw [happly] at ht'
  unfold TodoState.finishTodo at ht'
  cases hfind : t.findTodo done with
  | none =>
    rw [hfind] at ht'
    obtain rfl := Except.ok.inj ht'
    refine ⟨fun hr => ⟨hr, ?_⟩, And.left⟩
    rintro rfl
    exact TodoState.findTodo_eq_none hfind hr
  | some req =>
    rw [hfind] at ht'
    obtain ⟨hreq, rfl⟩ := TodoState.findTodo_eq_some hfind
    simp only [if_true] at ht'
    obtain ⟨pre, post, hl, hpre, hpost, herase⟩ := TodoState.split_findTodo h.toTodoWired hreq
    have htodo : t'.todo = pre ++ post := (answered_todo ht').trans herase
    unfold TodoState.queued
    rw [htodo, hl]
    simp only [List.map_append, List.map_cons, List.mem_append, List.mem_cons, List.mem_map]
    constructor
    · rintro (⟨x, hx, rfl⟩ | ⟨x, hx, rfl⟩)
      · exact ⟨.inl ⟨x, hx, rfl⟩, hpre x hx⟩
      · exact ⟨.inr (.inr ⟨x, hx, rfl⟩), hpost x hx⟩
    · rintro ⟨hx | rfl | hx, hne⟩
      · exact .inl hx
      · exact absurd rfl hne
      · exact .inr hx

/-- Marking a peer that failed leaves the requests there are, and the peers. -/
theorem queued_failed (hpeer : peer ∈ t.connected) {done : TodoPkt D}
    (ht' : (TodoOp.done peer done false).apply t = .ok t') :
    t'.queued = t.queued ∧ t'.connected = t.connected := by
  obtain ⟨p, -, happly⟩ := done_apply hpeer done _
  rw [happly] at ht'
  unfold TodoState.finishTodo at ht'
  cases hfind : t.findTodo done with
  | none =>
    rw [hfind] at ht'
    obtain rfl := Except.ok.inj ht'
    exact ⟨rfl, rfl⟩
  | some req =>
    rw [hfind] at ht'
    simp only [Bool.false_eq_true, if_false] at ht'
    split_ifs at ht' with hout hzero
    · obtain rfl := Except.ok.inj ht'
      refine ⟨?_, TodoState.connected_modPeer fun _ => rfl⟩
      show ((t.todo.map _).map _) = _
      rw [List.map_map]
      refine List.map_congr_left fun x _ => ?_
      dsimp only [Function.comp]
      split_ifs <;> rfl
    · obtain rfl := Except.ok.inj ht'
      exact ⟨rfl, rfl⟩

theorem childrenDue_sha {sb : SyncBlock D} (h : childrenDue s sb = some r) : r.sha = sb.block := by
  unfold childrenDue at h
  split at h
  · exact Option.some.inj h ▸ rfl
  · split_ifs at h
    exact Option.some.inj h ▸ rfl

/-- A turn of the loop asks what is due for the syncblock under the first one's name. -/
theorem recvChildrenLoop_turn (s : State D) (t : TodoState D P) (first : D) (sb : SyncBlock D) :
    (match blockFindAny s first with
      | none => t.newTodoRequest (.getBlock first)
      | some b =>
        if numChildren s b none < sb.children then t.newTodoRequest (.getChildren (s.blk b).sha)
        else t) = ((childrenDue s (sb.at first)).map t.newTodoRequest).getD t := by
  unfold childrenDue SyncBlock.at
  dsimp only
  cases hfind : blockFindAny s first with
  | none => rfl
  | some b =>
    dsimp only
    split_ifs
    · rw [(blockFindAny_spec hfind).2]
      rfl
    · rfl

/-- What the loop leaves queued. -/
theorem recvChildrenLoop_ok (h : TodoOk t) (hpeer : peer ∈ t.connected) (first : D)
    (blocks : List (SyncBlock D)) :
    TodoOk (recvChildrenLoop s first blocks t) ∧
      peer ∈ (recvChildrenLoop s first blocks t).connected ∧
      ∀ r, r ∈ (recvChildrenLoop s first blocks t).queued ↔
        r ∈ t.queued ∨ ∃ sb ∈ blocks, childrenDue s (sb.at first) = some r := by
  induction blocks generalizing t with
  | nil =>
    refine ⟨h, hpeer, fun r => ?_⟩
    simp [recvChildrenLoop]
  | cons sb rest ih =>
    unfold recvChildrenLoop
    rw [recvChildrenLoop_turn]
    cases hdue : childrenDue s (sb.at first) with
    | none =>
      obtain ⟨hok, hcon, hmem⟩ := ih h hpeer
      refine ⟨hok, hcon, fun r => ?_⟩
      show r ∈ (recvChildrenLoop s first rest t).queued ↔ _
      rw [hmem]
      simp [hdue]
    | some new =>
      obtain ⟨t₁, ht₁, hok₁, -⟩ := todoOp_ok h (show TodoOp.Admitted t (.add new) from trivial)
      obtain rfl := Except.ok.inj ht₁
      have hcon₁ : peer ∈ (t.newTodoRequest new).connected := by
        have hpeers : (t.newTodoRequest new).peers = t.peers := by
          unfold TodoState.newTodoRequest
          split <;> rfl
        unfold TodoState.connected
        rw [hpeers]
        exact hpeer
      obtain ⟨hok, hcon, hmem⟩ := ih hok₁ hcon₁
      refine ⟨hok, hcon, fun r => ?_⟩
      show r ∈ (recvChildrenLoop s first rest (t.newTodoRequest new)).queued ↔ _
      rw [hmem, mem_queued_newTodoRequest]
      simp [hdue, or_assoc, eq_comm]

/-- What `recv_children` does from where the error has been looked at. -/
theorem recvChildrenBlocks_ok (h : TodoOk t) (hpeer : peer ∈ t.connected)
    (hlen : (pkt.len - UInt32.ofNat sizeofPktChildren).toNat % sizeofSyncBlock = 0) :
    ∃ t', recvChildrenBlocks s t peer pkt = .ok (t', .none) ∧ ∀ r, r ∈ t'.queued ↔
      (r ∈ t.queued ∨ ∃ first, pkt.blocks.head? = some first ∧
        ∃ sb ∈ pkt.blocks, childrenDue s (sb.at first.block) = some r) ∧
      r ≠ .getChildren pkt.block := by
  unfold recvChildrenBlocks
  dsimp only
  rw [if_neg (not_not.mpr hlen)]
  cases hblocks : pkt.blocks with
  | nil =>
    obtain ⟨t', ht', -⟩ := todoOp_ok h
      (show TodoOp.Admitted t (.done peer (.getChildren pkt.block) true) from hpeer)
    refine ⟨t', by dsimp only; rw [ht']; rfl, fun r => ?_⟩
    rw [mem_queued_done h hpeer ht']
    simp
  | cons first rest =>
    obtain ⟨hok, hcon, hmem⟩ := recvChildrenLoop_ok (s := s) h hpeer first.block (first :: rest)
    obtain ⟨t', ht', -⟩ := todoOp_ok hok
      (show TodoOp.Admitted _ (.done peer (.getChildren pkt.block) true) from hcon)
    refine ⟨t', by dsimp only; rw [ht']; rfl, fun r => ?_⟩
    rw [mem_queued_done hok hcon ht', hmem]
    simp

/-- Where the peer knows the block: what is due is asked exactly if it is all due for the
first. -/
theorem childrenAnswered_iff
    (hmem : ∀ r, r ∈ t'.queued ↔
      (r ∈ t.queued ∨ ∃ first, pkt.blocks.head? = some first ∧
        ∃ sb ∈ pkt.blocks, childrenDue s (sb.at first.block) = some r) ∧
      r ≠ .getChildren pkt.block) :
    ChildrenAnswered s t t' pkt ↔ ∀ first, pkt.blocks.head? = some first →
      (∀ sb ∈ pkt.blocks, ∀ r, childrenDue s sb = some r →
        r ≠ .getChildren pkt.block ∧ (r ∈ t.queued ∨ sb.block = first.block)) ∧
      ∀ sb ∈ pkt.blocks, ∀ r, childrenDue s (sb.at first.block) = some r →
        r = .getChildren pkt.block ∨ r ∈ t.queued ∨ ∃ sb' ∈ pkt.blocks, childrenDue s sb' = some r := by
  constructor
  · intro h first hfirst
    refine ⟨fun sb hsb r hr => ?_, fun sb hsb r hr => ?_⟩
    · have hqueued : r ∈ t'.queued := by
        unfold childrenDue at hr
        split at hr
        · rename_i hnone
          exact Option.some.inj hr ▸ h.unknown sb hsb hnone
        · rename_i b hsome
          split_ifs at hr with hless
          exact Option.some.inj hr ▸ h.deeper sb hsb b hsome hless
      obtain ⟨hask, hne⟩ := (hmem r).mp hqueued
      refine ⟨hne, hask.imp_right ?_⟩
      rintro ⟨first', hfirst', sb', -, hr'⟩
      obtain rfl := Option.some.inj (hfirst.symm.trans hfirst')
      have hsha := childrenDue_sha hr'
      exact (childrenDue_sha hr).symm.trans hsha
    · by_cases hne : r = .getChildren pkt.block
      · exact .inl hne
      · exact .inr (h.added r ((hmem r).mpr ⟨.inr ⟨first, hfirst, sb, hsb, hr⟩, hne⟩))
  · intro h
    have hdue : ∀ sb ∈ pkt.blocks, ∀ r, childrenDue s sb = some r → r ∈ t'.queued := by
      intro sb hsb r hr
      obtain ⟨first, hfirst⟩ : ∃ first, pkt.blocks.head? = some first := by
        cases hblocks : pkt.blocks with
        | nil => simp [hblocks] at hsb
        | cons first rest => exact ⟨first, rfl⟩
      obtain ⟨hne, hask⟩ := (h first hfirst).1 sb hsb r hr
      refine (hmem r).mpr ⟨hask.imp_right fun heq => ⟨first, hfirst, sb, hsb, ?_⟩, hne⟩
      rw [SyncBlock.at, ← heq]
      exact hr
    refine ⟨fun sb hsb hnone => hdue sb hsb _ ?_, fun sb hsb b hsome hless => hdue sb hsb _ ?_,
      fun r hr => ?_, fun hr => ((hmem _).mp hr).2 rfl⟩
    · simp [childrenDue, hnone]
    · simp [childrenDue, hsome, hless]
    · obtain ⟨hask, hne⟩ := (hmem r).mp hr
      rcases hask with hold | ⟨first, hfirst, sb, hsb, hr'⟩
      · exact .inl hold
      · exact ((h first hfirst).2 sb hsb r hr').resolve_left hne

/-- **What comes of a CHILDREN packet.** In every state of the requests that a run reaches
nothing stops the program; and where the packet is taken, what it says is dealt with
exactly if the first of its blocks is all there is to ask about, and no request is
dropped that the peer only does not know the answer to. -/
theorem recvChildren_right_iff {run : List (TodoState D P × TodoOp D P)} (s : State D)
    (h : TodoRun run t) (hpeer : peer ∈ t.connected) (pkt : PktChildren D) :
    ∃ t' e, recvChildren s t peer pkt = .ok (t', e) ∧
      (e = .none → (ChildrenRight s t t' peer pkt ↔ FirstIsAll s t pkt)) := by
  have hok := todoOk_of_run h
  unfold recvChildren
  by_cases hshort : pkt.len.toNat < sizeofPktChildren
  · exact ⟨t, .invalidLen, if_pos hshort, fun he => absurd he (by decide)⟩
  rw [if_neg hshort]
  cases blockFindAny s pkt.block with
  | none => exact ⟨t, .unknownBlock, rfl, fun he => absurd he (by decide)⟩
  | some parent =>
    dsimp only
    split_ifs with herr hlong hcode
    · exact ⟨t, .invalidLen, rfl, fun he => absurd he (by decide)⟩
    · exact ⟨t, .unknownCommand, rfl, fun he => absurd he (by decide)⟩
    · rw [not_not] at hlong hcode
      obtain ⟨t₁, ht₁, hok₁, -⟩ := todoOp_ok hok
        (show TodoOp.Admitted t (.done peer (.getChildren pkt.block) false) from hpeer)
      obtain ⟨hqueued, hcon⟩ := queued_failed hpeer ht₁
      have hlen : pkt.len = UInt32.ofNat sizeofPktChildren := UInt32.toNat_inj.mp hlong
      have hblocks : pkt.blocks = [] := by
        refine List.length_eq_zero_iff.mp (pkt.blocks_length.trans ?_)
        rw [hlong]
        rfl
      obtain ⟨t', ht', hmem⟩ := recvChildrenBlocks_ok (s := s) hok₁ (hcon ▸ hpeer)
        (show (pkt.len - UInt32.ofNat sizeofPktChildren).toNat % sizeofSyncBlock = 0 by
          rw [hlen, UInt32.sub_self]; rfl)
      refine ⟨t', .none, by rw [ht₁]; exact ht', fun _ => ?_⟩
      have hgone : .getChildren pkt.block ∉ t'.queued := fun hr => ((hmem _).mp hr).2 rfl
      constructor
      · intro hright
        refine ⟨fun hnone => absurd hnone herr, fun hnone => absurd hnone herr, fun _ hr => ?_⟩
        obtain ⟨r, hr, hpkt⟩ := List.mem_map.mp hr
        obtain ⟨r', hr', hpkt', -⟩ := hright.refused hcode r hr hpkt
        exact hgone (List.mem_map.mpr ⟨r', hr', hpkt'.trans hpkt⟩)
      · intro hcond
        refine ⟨fun hnone => absurd hnone herr, fun _ r hr hpkt => ?_⟩
        exact absurd (List.mem_map.mpr ⟨r, hr, hpkt⟩) (hcond.refused hcode)
    · rw [not_not] at herr
      by_cases hlen : (pkt.len - UInt32.ofNat sizeofPktChildren).toNat % sizeofSyncBlock = 0
      · obtain ⟨t', ht', hmem⟩ := recvChildrenBlocks_ok (s := s) hok hpeer hlen
        refine ⟨t', .none, ht', fun _ => ?_⟩
        have hother : pkt.err ≠ protocolEcodeUnknownBlock := by
          rw [herr]
          decide
        have hiff := childrenAnswered_iff hmem
        constructor
        · intro hright
          have hall := hiff.mp (hright.answered herr)
          exact ⟨fun _ first hfirst => (hall first hfirst).1,
            fun _ first hfirst => (hall first hfirst).2, fun hcode => absurd hcode hother⟩
        · intro hcond
          refine ⟨fun _ => hiff.mpr fun first hfirst => ?_, fun hcode => absurd hcode hother⟩
          exact ⟨hcond.due herr first hfirst, hcond.asked herr first hfirst⟩
      · refine ⟨t, .invalidLen, ?_, fun he => absurd he (by decide)⟩
        unfold recvChildrenBlocks
        dsimp only
        rw [if_pos hlen]

end

-- ---------------------------------------------------------------------------
-- Two children
-- ---------------------------------------------------------------------------

/-- A peer is asked for the children of the genesis block. -/
def askedForChildren : TodoState IdealDigest Unit :=
  ((TodoState.init.allocPeer.newTodoRequest (.getChildren .zero)).getTodoPkt
    ⟨firstPeer, 0, []⟩).1

theorem todoRun_askedForChildren : ∃ run, TodoRun run askedForChildren :=
  ⟨_, .step (.getPkt firstPeer) (.step (.add (.getChildren .zero))
    (.step .connect .start trivial rfl) trivial rfl) (List.mem_cons_self ..) rfl⟩

/-- The two blocks it says there are. -/
def twoChildren : PktChildren IdealDigest where
  len := 116
  block := .zero
  err := 0
  blocks := [⟨hashBlock idealCrypto sampleEmpty, 0⟩, ⟨hashBlock idealCrypto sampleFirst, 0⟩]
  blocks_length := rfl

/-- Or it knows nothing of the block. -/
def unknownChildren : PktChildren IdealDigest where
  len := 44
  block := .zero
  err := 12
  blocks := []
  blocks_length := rfl

theorem recvChildren_right_iff_asked :
    ∃ t' e, recvChildren sampleNode askedForChildren firstPeer twoChildren = .ok (t', e) ∧
      (e = .none → (ChildrenRight sampleNode askedForChildren t' firstPeer twoChildren ↔
        FirstIsAll sampleNode askedForChildren twoChildren)) := by
  obtain ⟨run, hrun⟩ := todoRun_askedForChildren
  exact recvChildren_right_iff sampleNode hrun (List.mem_cons_self ..) twoChildren

/-- Nobody is asked for the second block; and the request that one peer cannot answer is
not there for the others. -/
theorem recvChildren_forgets :
    (∃ run, TodoRun run askedForChildren) ∧
      (∃ t', recvChildren sampleNode askedForChildren firstPeer twoChildren = .ok (t', .none) ∧
        ¬ ChildrenRight sampleNode askedForChildren t' firstPeer twoChildren) ∧
      ∃ t', recvChildren sampleNode askedForChildren firstPeer unknownChildren = .ok (t', .none) ∧
        ¬ ChildrenRight sampleNode askedForChildren t' firstPeer unknownChildren := by
  have hrun : ∀ pkt e queued, (recvChildren sampleNode askedForChildren firstPeer pkt).toOption.map
      (fun r => (r.1.queued, r.2)) = some (queued, e) →
      ∃ t', recvChildren sampleNode askedForChildren firstPeer pkt = .ok (t', e) ∧
        t'.queued = queued := by
    intro pkt e queued h
    cases hok : recvChildren sampleNode askedForChildren firstPeer pkt with
    | error f =>
      rw [hok] at h
      cases h
    | ok r =>
      rw [hok] at h
      cases h
      exact ⟨_, rfl, rfl⟩
  refine ⟨todoRun_askedForChildren, ?_, ?_⟩
  · obtain ⟨t', ht', hqueued⟩ := hrun twoChildren .none
      [.getBlock (hashBlock idealCrypto sampleEmpty)] (by decide +kernel)
    refine ⟨t', ht', fun hright => ?_⟩
    have hasked := (hright.answered rfl).unknown ⟨hashBlock idealCrypto sampleFirst, 0⟩
      (List.mem_cons_of_mem _ (List.mem_singleton_self _)) (by decide +kernel)
    rw [hqueued] at hasked
    exact absurd hasked (by decide +kernel)
  · obtain ⟨t', ht', hqueued⟩ := hrun unknownChildren .none [] (by decide +kernel)
    refine ⟨t', ht', fun hright => ?_⟩
    obtain ⟨r, hr, hpkt⟩ := List.mem_map.mp
      (show .getChildren .zero ∈ askedForChildren.queued by decide +kernel)
    obtain ⟨r', hr', hpkt', -⟩ := hright.refused rfl r hr hpkt
    have hqueued' : .getChildren .zero ∈ t'.queued :=
      List.mem_map.mpr ⟨r', hr', hpkt'.trans hpkt⟩
    rw [hqueued] at hqueued'
    exact absurd hqueued' (by simp)

end Pettycoin
