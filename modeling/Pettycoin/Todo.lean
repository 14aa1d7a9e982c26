import Pettycoin.IdealHash
import Mathlib.Data.List.FinRange
import Mathlib.Logic.Function.Basic

/-!
# Pettycoin — what to ask the peers

`todo.c`, with the peers as far as it uses them: the requests the node wants
answered, which peers it asked each of them, which of these failed, and how many
answers are due from each peer.

Everything keeps the count of a peer right but `todo_forget_about_block`, which
drops requests and leaves the counts as they are (`requests_accounted_iff`).

* `getTodoPkt_ok`, `finishTodo_ok` — asking, and being answered;
* `todoOp_ok` — any call;
* `forget_leaves_count` — the one that leaves a count behind;
* `requests_accounted_iff` — when all counts are right.
-/

namespace Pettycoin

-- ---------------------------------------------------------------------------
-- Requests and peers
-- ---------------------------------------------------------------------------

/-- `MAX_PEERS`. -/
def maxPeers : Nat := 64
/-- `MAX_REQUESTS`. -/
def maxRequests : UInt32 := 4

/-- The packets that ask for something. What `find_todo` compares is all there is to
them: the type, the digest, and the shard and offset where the type has them. -/
inductive TodoPkt (D : Type)
  | getBlock (block : D)
  | getShard (block : D) (shardnum : UInt16)
  | getTxmap (block : D) (shardnum : UInt16)
  | getChildren (block : D)
  | getTxInBlock (block : D) (shardnum : UInt16) (txoff : UInt8)
  | getTx (tx : D)
deriving DecidableEq

/-- The digest that `get_todo_ptrs` finds. -/
def TodoPkt.sha {D : Type} : TodoPkt D → D
  | getBlock block => block
  | getShard block _ => block
  | getTxmap block _ => block
  | getChildren block => block
  | getTxInBlock block _ _ => block
  | getTx tx => tx

/-- `struct todo_request`. -/
structure TodoRequest (D : Type) where
  pkt : TodoPkt D
  peersAsked : Fin maxPeers → Bool
  peersFailed : Fin maxPeers → Bool

/-- `struct peer`, with the packets queued for it. -/
structure TodoPeer (P : Type) where
  peerNum : Fin maxPeers
  requestsOutstanding : UInt32
  todo : List P

/-- `state->todo`, `state->peers` and `state->peer_map`. -/
structure TodoState (D P : Type) where
  todo : List (TodoRequest D)
  peers : List (TodoPeer P)
  peerMap : Fin maxPeers → Bool

/-- Why the program stops. -/
inductive TodoFault
  /-- `delete_todo`: `find_peer` returns `NULL`. -/
  | nullPeer
  /-- `finish_todo`: the peer has no request outstanding. -/
  | noneOutstanding
deriving DecidableEq

/-- Asked, and not failed. -/
def TodoRequest.outstanding {D : Type} (r : TodoRequest D) (i : Fin maxPeers) : Bool :=
  r.peersAsked i && !r.peersFailed i

namespace TodoState

variable {D P : Type} [DecidableEq D]

/-- No peers, and nothing to do. -/
def init : TodoState D P := ⟨[], [], fun _ => false⟩

/-- Change the peer of that number. -/
def modPeer (s : TodoState D P) (i : Fin maxPeers) (f : TodoPeer P → TodoPeer P) :
    TodoState D P :=
  { s with peers := s.peers.map fun p => if p.peerNum = i then f p else p }

/-- `find_todo()`. -/
def findTodo (s : TodoState D P) (pkt : TodoPkt D) : Option (TodoRequest D) :=
  s.todo.find? fun r => r.pkt == pkt

/-- `new_todo_request()`, which all of `todo_add_*` come to. -/
def newTodoRequest (s : TodoState D P) (pkt : TodoPkt D) : TodoState D P :=
  match s.findTodo pkt with
  | some _ => s
  | none => { s with todo := s.todo ++ [⟨pkt, fun _ => false, fun _ => false⟩] }

/-- `todo_for_peer()`. -/
def todoForPeer (s : TodoState D P) (i : Fin maxPeers) (pkt : P) : TodoState D P :=
  s.modPeer i fun p => { p with todo := p.todo ++ [pkt] }

/-- `find_peer()`. -/
def findPeer (s : TodoState D P) (i : Fin maxPeers) : Option (TodoPeer P) :=
  s.peers.find? fun p => p.peerNum == i

/-- `remove_peer_from_todo()`. -/
def removePeerFromTodo (s : TodoState D P) (i : Fin maxPeers) : TodoState D P :=
  { s with
    todo := s.todo.map fun r =>
      { r with
        peersAsked := Function.update r.peersAsked i false
        peersFailed := Function.update r.peersFailed i false } }

/-- The loop of `delete_todo`, over these numbers. -/
def answered (r : TodoRequest D) :
    List (Fin maxPeers) → TodoState D P → Except TodoFault (TodoState D P)
  | [], s => .ok s
  | i :: rest, s =>
    if r.outstanding i then
      match s.findPeer i with
      | none => .error .nullPeer
      | some _ =>
        answered r rest
          (s.modPeer i fun p => { p with requestsOutstanding := p.requestsOutstanding - 1 })
    else answered r rest s

/-- `delete_todo()`. -/
def deleteTodo (s : TodoState D P) (r : TodoRequest D) : Except TodoFault (TodoState D P) :=
  answered r (List.finRange maxPeers) { s with todo := s.todo.eraseP fun x => x.pkt == r.pkt }

/-- Set the bit of the peer in `peers_failed` of this request. -/
def setFailed (s : TodoState D P) (r : TodoRequest D) (i : Fin maxPeers) : TodoState D P :=
  { s with
    todo := s.todo.map fun x =>
      if x.pkt = r.pkt then { x with peersFailed := Function.update x.peersFailed i true } else x }

/-- `finish_todo()`, which all of `todo_done_*` come to, for a connected peer. -/
def finishTodo (s : TodoState D P) (peer : TodoPeer P) (pkt : TodoPkt D) (success : Bool) :
    Except TodoFault (TodoState D P) :=
  match s.findTodo pkt with
  | none => .ok s
  | some r =>
    if success then s.deleteTodo r
    else if r.outstanding peer.peerNum then
      let s := s.setFailed r peer.peerNum
      if peer.requestsOutstanding = 0 then .error .noneOutstanding
      else .ok (s.modPeer peer.peerNum fun p =>
        { p with requestsOutstanding := p.requestsOutstanding - 1 })
    else .ok s

/-- `todo_forget_about_block()`. -/
def todoForgetAboutBlock (s : TodoState D P) (block : D) : TodoState D P :=
  { s with todo := s.todo.filter fun r => r.pkt.sha != block }

/-- Find the first request that the peer was not asked, and ask. -/
def askFirst (i : Fin maxPeers) : List (TodoRequest D) → Option (List (TodoRequest D) × TodoPkt D)
  | [] => none
  | r :: rest =>
    if r.peersAsked i then (askFirst i rest).map fun found => (r :: found.1, found.2)
    else some ({ r with peersAsked := Function.update r.peersAsked i true } :: rest, r.pkt)

/-- `get_todo_pkt()`, with what is sent to the peer: a packet queued for it, or a
request. -/
def getTodoPkt (s : TodoState D P) (peer : TodoPeer P) :
    TodoState D P × Option (P ⊕ TodoPkt D) :=
  match peer.todo with
  | pkt :: rest => (s.modPeer peer.peerNum fun p => { p with todo := rest }, some (.inl pkt))
  | [] =>
    if peer.requestsOutstanding ≥ maxRequests then (s, none)
    else
      match askFirst peer.peerNum s.todo with
      | none => (s, none)
      | some (todo, pkt) =>
        ({ s with todo := todo }.modPeer peer.peerNum fun p =>
          { p with requestsOutstanding := p.requestsOutstanding + 1 }, some (.inr pkt))

/-- `get_peernum()`: the first number not taken. -/
def getPeernum (s : TodoState D P) : Option (Fin maxPeers) :=
  (List.finRange maxPeers).find? fun i => !s.peerMap i

/-- `alloc_peer()`: there may be too many already. -/
def allocPeer (s : TodoState D P) : TodoState D P :=
  match s.getPeernum with
  | none => s
  | some i =>
    { s with
      peers := ⟨i, 0, []⟩ :: s.peers
      peerMap := Function.update s.peerMap i true }

/-- `destroy_peer()`. -/
def destroyPeer (s : TodoState D P) (i : Fin maxPeers) : TodoState D P :=
  { s with
    peers := s.peers.filter fun p => p.peerNum != i
    peerMap := Function.update s.peerMap i false }.removePeerFromTodo i

end TodoState

-- ---------------------------------------------------------------------------
-- Operations
-- ---------------------------------------------------------------------------

/-- What is done with the requests and the peers. -/
inductive TodoOp (D P : Type)
  /-- `todo_add_*` -/
  | add (pkt : TodoPkt D)
  /-- `todo_for_peer` -/
  | forPeer (peer : Fin maxPeers) (pkt : P)
  /-- `get_todo_pkt` -/
  | getPkt (peer : Fin maxPeers)
  /-- `todo_done_*` -/
  | done (peer : Fin maxPeers) (pkt : TodoPkt D) (success : Bool)
  /-- `todo_forget_about_block` -/
  | forget (block : D)
  /-- `alloc_peer` -/
  | connect
  /-- `destroy_peer` -/
  | disconnect (peer : Fin maxPeers)

variable {D P : Type} [DecidableEq D]

/-- The numbers of the connected peers. -/
def TodoState.connected (s : TodoState D P) : List (Fin maxPeers) := s.peers.map (·.peerNum)

/-- What is done for a peer is done while it is connected. -/
def TodoOp.Admitted (s : TodoState D P) : TodoOp D P → Prop
  | add _ | forget _ | connect => True
  | forPeer i _ | getPkt i | done i _ _ | disconnect i => i ∈ s.connected

/-- What it does. -/
def TodoOp.apply (s : TodoState D P) : TodoOp D P → Except TodoFault (TodoState D P)
  | add pkt => .ok (s.newTodoRequest pkt)
  | forPeer i pkt => .ok (s.todoForPeer i pkt)
  | getPkt i =>
    match s.findPeer i with
    | none => .ok s
    | some peer => .ok (s.getTodoPkt peer).1
  | done i pkt success =>
    match s.findPeer i with
    | none => .ok s
    | some peer => s.finishTodo peer pkt success
  | forget block => .ok (s.todoForgetAboutBlock block)
  | connect => .ok s.allocPeer
  | disconnect i => .ok (s.destroyPeer i)

/-- A run from the start, with each state it passed and what was done there. -/
inductive TodoRun : List (TodoState D P × TodoOp D P) → TodoState D P → Prop
  | start : TodoRun [] .init
  | step {run : List (TodoState D P × TodoOp D P)} {s s' : TodoState D P} (op : TodoOp D P) :
    TodoRun run s → op.Admitted s → op.apply s = .ok s' → TodoRun (run ++ [(s, op)]) s'

-- ---------------------------------------------------------------------------
-- The counts
-- ---------------------------------------------------------------------------

/-- How many requests are outstanding for the peer of that number. -/
def TodoState.outstanding (s : TodoState D P) (i : Fin maxPeers) : Nat :=
  s.todo.countP fun r => r.outstanding i

/-- Every peer's count is right. -/
def Accounted (s : TodoState D P) : Prop :=
  ∀ p ∈ s.peers, p.requestsOutstanding.toNat = s.outstanding p.peerNum

/-- No request is there twice, no two peers have one number, and only connected peers
were asked. -/
structure TodoWired (s : TodoState D P) : Prop where
  distinct : (s.todo.map (·.pkt)).Nodup
  numbers : s.connected.Nodup
  peerMap : ∀ i, s.peerMap i = true ↔ i ∈ s.connected
  failed_asked : ∀ r ∈ s.todo, ∀ i, r.peersFailed i = true → r.peersAsked i = true
  asked_connected : ∀ r ∈ s.todo, ∀ i, r.peersAsked i = true → i ∈ s.connected

/-- Besides, no count is too low or too high. -/
structure TodoOk (s : TodoState D P) : Prop extends TodoWired s where
  counted : ∀ p ∈ s.peers, s.outstanding p.peerNum ≤ p.requestsOutstanding.toNat
  bounded : ∀ p ∈ s.peers, p.requestsOutstanding.toNat ≤ maxRequests.toNat

/-- How many requests outstanding for that peer it drops without an answer. -/
def TodoOp.forgotten (s : TodoState D P) (i : Fin maxPeers) : TodoOp D P → Nat
  | forget block => s.todo.countP fun r => r.pkt.sha == block && r.outstanding i
  | _ => 0

/-- The peers of `s'` were there in `s`, and their counts are in excess as they were but
for `forgotten` more; or they are new, with nothing outstanding. -/
def ExcessKept (s s' : TodoState D P) (forgotten : Fin maxPeers → Nat) : Prop :=
  ∀ p' ∈ s'.peers,
    (p'.requestsOutstanding = 0 ∧ s'.outstanding p'.peerNum = 0) ∨
    ∃ p ∈ s.peers, p.peerNum = p'.peerNum ∧
      p'.requestsOutstanding.toNat + s.outstanding p.peerNum
        = p.requestsOutstanding.toNat + s'.outstanding p.peerNum + forgotten p.peerNum

namespace TodoState

variable {s s' : TodoState D P} {i : Fin maxPeers}

omit [DecidableEq D] in
theorem mem_connected : i ∈ s.connected ↔ ∃ p ∈ s.peers, p.peerNum = i := List.mem_map

omit [DecidableEq D] in
theorem findPeer_eq_some {p : TodoPeer P} (h : s.findPeer i = some p) :
    p ∈ s.peers ∧ p.peerNum = i :=
  ⟨List.mem_of_find?_eq_some h, by simpa using List.find?_some h⟩

omit [DecidableEq D] in
theorem findPeer_isSome (h : i ∈ s.connected) : ∃ p, s.findPeer i = some p := by
  obtain ⟨p, hp, hnum⟩ := mem_connected.mp h
  exact Option.isSome_iff_exists.mp (List.find?_isSome.mpr ⟨p, hp, by simpa using hnum⟩)

omit [DecidableEq D] in
theorem connected_modPeer {f : TodoPeer P → TodoPeer P} (hf : ∀ p, (f p).peerNum = p.peerNum) :
    (s.modPeer i f).connected = s.connected := by
  unfold connected modPeer
  rw [List.map_map]
  refine List.map_congr_left fun p _ => ?_
  dsimp only [Function.comp]
  split_ifs
  · exact hf p
  · rfl

/-- One request less for a peer. -/
def takeOne (p : TodoPeer P) : TodoPeer P :=
  { p with requestsOutstanding := p.requestsOutstanding - 1 }

omit [DecidableEq D] in
/-- The loop of `delete_todo` takes one off the count of each peer it is outstanding for. -/
theorem answered_eq_ok (r : TodoRequest D) {l : List (Fin maxPeers)} (hl : l.Nodup)
    (hcon : ∀ i ∈ l, r.outstanding i = true → i ∈ s.connected) :
    answered r l s = .ok { s with
      peers := s.peers.map fun p =>
        if p.peerNum ∈ l ∧ r.outstanding p.peerNum = true then takeOne p else p } := by
  induction l generalizing s with
  | nil =>
    unfold answered
    simp
  | cons i rest ih =>
    obtain ⟨hi, hrest⟩ := List.nodup_cons.mp hl
    unfold answered
    split_ifs with hout
    · obtain ⟨p, hp⟩ := findPeer_isSome (hcon i (List.mem_cons_self ..) hout)
      have hconn : (s.modPeer i takeOne).connected = s.connected := connected_modPeer fun _ => rfl
      rw [hp]
      dsimp only
      change answered r rest (s.modPeer i takeOne) = _
      rw [ih hrest fun j hj hjo => by
        rw [hconn]
        exact hcon j (List.mem_cons_of_mem _ hj) hjo]
      unfold modPeer
      dsimp only
      rw [List.map_map]
      congr 2
      refine List.map_congr_left fun q _ => ?_
      dsimp only [Function.comp]
      by_cases hq : q.peerNum = i
      · -- the rest of the loop leaves it alone
        have hnot : ¬ ((takeOne q).peerNum ∈ rest ∧ r.outstanding (takeOne q).peerNum = true) :=
          fun h => hi (hq ▸ h.1)
        simp only [if_pos hq]
        rw [if_neg hnot, if_pos ⟨hq ▸ List.mem_cons_self .., hq ▸ hout⟩]
      · simp [hq]
    · rw [ih hrest fun j hj => hcon j (List.mem_cons_of_mem _ hj)]
      congr 2
      refine List.map_congr_left fun q _ => ?_
      by_cases hq : q.peerNum = i
      · rw [if_neg (fun h => hi (hq ▸ h.1)), if_neg (fun h => hout (hq ▸ h.2))]
      · simp [hq]

omit [DecidableEq D] in
/-- A change that leaves every count alone. -/
theorem excessKept_of_same (hp : ∀ p' ∈ s'.peers, ∃ p ∈ s.peers, p.peerNum = p'.peerNum ∧
      p.requestsOutstanding = p'.requestsOutstanding)
    (hout : ∀ j ∈ s'.connected, s'.outstanding j = s.outstanding j) :
    ExcessKept s s' fun _ => 0 := by
  intro p' hp'
  obtain ⟨p, hmem, hnum, hreq⟩ := hp p' hp'
  refine Or.inr ⟨p, hmem, hnum, ?_⟩
  have h := hout p'.peerNum (mem_connected.mpr ⟨p', hp', rfl⟩)
  rw [← hnum] at h
  rw [hreq, h, Nat.add_zero]

-- ---------------------------------------------------------------------------
-- Requests are added and dropped
-- ---------------------------------------------------------------------------

theorem findTodo_eq_none {pkt : TodoPkt D} (h : s.findTodo pkt = none) :
    pkt ∉ s.todo.map (·.pkt) := by
  intro hmem
  obtain ⟨r, hr, rfl⟩ := List.mem_map.mp hmem
  exact absurd (List.find?_eq_none.mp h r hr) (by simp)

theorem findTodo_eq_some {pkt : TodoPkt D} {r : TodoRequest D} (h : s.findTodo pkt = some r) :
    r ∈ s.todo ∧ r.pkt = pkt :=
  ⟨List.mem_of_find?_eq_some h, by simpa using List.find?_some h⟩

theorem newTodoRequest_ok (h : TodoWired s) (pkt : TodoPkt D) :
    TodoWired (s.newTodoRequest pkt) ∧
      ∀ i, (s.newTodoRequest pkt).outstanding i = s.outstanding i := by
  unfold newTodoRequest
  cases hfind : s.findTodo pkt with
  | some r => exact ⟨h, fun _ => rfl⟩
  | none =>
    refine ⟨⟨?_, h.numbers, h.peerMap, ?_, ?_⟩, fun i => ?_⟩
    · dsimp only
      rw [List.map_append]
      refine List.nodup_append.mpr ⟨h.distinct, List.nodup_singleton _, ?_⟩
      rintro x hx y hy rfl
      obtain rfl := List.mem_singleton.mp hy
      exact findTodo_eq_none hfind hx
    · intro r hr
      rcases List.mem_append.mp hr with hr | hr
      · exact h.failed_asked r hr
      · obtain rfl := List.mem_singleton.mp hr
        exact fun i hi => absurd hi (by simp)
    · intro r hr
      rcases List.mem_append.mp hr with hr | hr
      · exact h.asked_connected r hr
      · obtain rfl := List.mem_singleton.mp hr
        exact fun i hi => absurd hi (by simp)
    · unfold outstanding
      dsimp only
      rw [List.countP_append, List.countP_singleton]
      rfl

theorem todoForgetAboutBlock_ok (h : TodoWired s) (block : D) :
    TodoWired (s.todoForgetAboutBlock block) ∧
      ∀ i, (s.todoForgetAboutBlock block).outstanding i
        + (TodoOp.forget (P := P) block).forgotten s i = s.outstanding i := by
  refine ⟨⟨?_, h.numbers, h.peerMap, ?_, ?_⟩, fun i => ?_⟩
  · exact h.distinct.sublist (List.filter_sublist.map _)
  · exact fun r hr => h.failed_asked r (List.mem_of_mem_filter hr)
  · exact fun r hr => h.asked_connected r (List.mem_of_mem_filter hr)
  · unfold outstanding todoForgetAboutBlock TodoOp.forgotten
    dsimp only
    induction s.todo with
    | nil => rfl
    | cons r rest ih =>
      rw [List.filter_cons, List.countP_cons, List.countP_cons]
      by_cases hsha : r.pkt.sha = block
      · rw [if_neg (by simpa using hsha), ← ih]
        simp only [hsha, beq_self_eq_true, Bool.true_and]
        exact (Nat.add_assoc ..).symm
      · rw [if_pos (by simpa using hsha), List.countP_cons, ← ih]
        simp only [beq_eq_false_iff_ne.mpr hsha, Bool.false_and, Bool.false_eq_true, if_false]
        exact Nat.add_right_comm ..

-- ---------------------------------------------------------------------------
-- A peer is asked
-- ---------------------------------------------------------------------------

omit [DecidableEq D] in
/-- A change to one peer, while the requests stay wired. -/
theorem wired_modPeer (h : TodoWired s) {f : TodoPeer P → TodoPeer P}
    (hf : ∀ p, (f p).peerNum = p.peerNum) : TodoWired (s.modPeer i f) where
  distinct := h.distinct
  numbers := by
    rw [connected_modPeer hf]
    exact h.numbers
  peerMap j := by
    rw [connected_modPeer hf]
    exact h.peerMap j
  failed_asked := h.failed_asked
  asked_connected r hr j hj := by
    rw [connected_modPeer hf]
    exact h.asked_connected r hr j hj

omit [DecidableEq D] in
theorem mem_peers_modPeer {f : TodoPeer P → TodoPeer P} {p' : TodoPeer P}
    (h : p' ∈ (s.modPeer i f).peers) :
    ∃ p ∈ s.peers, p' = if p.peerNum = i then f p else p := by
  obtain ⟨p, hp, heq⟩ := List.mem_map.mp h
  exact ⟨p, hp, heq.symm⟩

omit [DecidableEq D] in
/-- What `get_todo_pkt` does to the requests. -/
theorem askFirst_eq_some {l l' : List (TodoRequest D)} {pkt : TodoPkt D}
    (h : askFirst i l = some (l', pkt)) :
    ∃ pre r post, l = pre ++ r :: post ∧ r.peersAsked i = false ∧
      l' = pre ++ { r with peersAsked := Function.update r.peersAsked i true } :: post := by
  induction l generalizing l' with
  | nil => exact absurd h (by simp [askFirst])
  | cons r rest ih =>
    unfold askFirst at h
    split_ifs at h with hasked
    · obtain ⟨⟨rest', pkt'⟩, hrest, heq⟩ := Option.map_eq_some_iff.mp h
      obtain ⟨rfl, rfl⟩ := Prod.mk.inj heq
      obtain ⟨pre, r', post, rfl, hr', rfl⟩ := ih hrest
      exact ⟨r :: pre, r', post, rfl, hr', rfl⟩
    · obtain ⟨rfl, rfl⟩ := Prod.mk.inj (Option.some.inj h)
      exact ⟨[], r, rest, rfl, by simpa using hasked, rfl⟩

omit [DecidableEq D] in
/-- One more request is outstanding for the peer that is asked. -/
theorem askFirst_ok (h : TodoWired s) (hi : i ∈ s.connected) {todo : List (TodoRequest D)}
    {pkt : TodoPkt D} (hask : askFirst i s.todo = some (todo, pkt)) :
    TodoWired { s with todo := todo } ∧
      ∀ j, ({ s with todo := todo } : TodoState D P).outstanding j
        = s.outstanding j + if j = i then 1 else 0 := by
  obtain ⟨pre, r, post, hl, hasked, rfl⟩ := askFirst_eq_some hask
  have hmem : ∀ x ∈ pre ++ { r with peersAsked := Function.update r.peersAsked i true } :: post,
      x ∈ s.todo ∨ x = { r with peersAsked := Function.update r.peersAsked i true } := by
    intro x hx
    rw [hl]
    rcases List.mem_append.mp hx with hx | hx
    · exact Or.inl (List.mem_append_left _ hx)
    · rcases List.mem_cons.mp hx with hx | hx
      · exact Or.inr hx
      · exact Or.inl (List.mem_append_right _ (List.mem_cons_of_mem _ hx))
  have hr : r ∈ s.todo := hl ▸ List.mem_append_right _ (List.mem_cons_self ..)
  refine ⟨⟨?_, h.numbers, h.peerMap, ?_, ?_⟩, fun j => ?_⟩
  · have hd := h.distinct
    rw [hl, List.map_append, List.map_cons] at hd
    dsimp only
    rwa [List.map_append, List.map_cons]
  · intro x hx j hj
    rcases hmem x hx with hx | rfl
    · exact h.failed_asked x hx j hj
    · have hrj := h.failed_asked r hr j hj
      by_cases hji : j = i
      · exact absurd (hji ▸ hrj) (by simp [hasked])
      · exact (Function.update_of_ne hji ..).trans hrj
  · intro x hx j hj
    rcases hmem x hx with hx | rfl
    · exact h.asked_connected x hx j hj
    · by_cases hji : j = i
      · exact hji ▸ hi
      · exact h.asked_connected r hr j ((Function.update_of_ne hji ..).symm.trans hj)
  · unfold outstanding
    dsimp only
    rw [hl, List.countP_append, List.countP_append, List.countP_cons, List.countP_cons]
    by_cases hji : j = i
    · subst hji
      have hfailed : r.peersFailed j = false := by
        by_contra hf
        exact absurd (h.failed_asked r hr j (by simpa using hf)) (by simp [hasked])
      simp [TodoRequest.outstanding, hasked, hfailed]
      omega
    · simp [TodoRequest.outstanding, hji]

-- ---------------------------------------------------------------------------
-- A request is answered
-- ---------------------------------------------------------------------------

/-- A request found in the list stands in it once. -/
theorem split_findTodo (h : TodoWired s) {r : TodoRequest D} (hr : r ∈ s.todo) :
    ∃ pre post, s.todo = pre ++ r :: post ∧ (∀ x ∈ pre, x.pkt ≠ r.pkt) ∧
      (∀ x ∈ post, x.pkt ≠ r.pkt) ∧ (s.todo.eraseP fun x => x.pkt == r.pkt) = pre ++ post := by
  obtain ⟨pre, post, hl⟩ := List.append_of_mem hr
  have hd := h.distinct
  rw [hl, List.map_append, List.map_cons] at hd
  obtain ⟨-, hcons, hdisj⟩ := List.nodup_append.mp hd
  obtain ⟨hpost, -⟩ := List.nodup_cons.mp hcons
  have hpre' : ∀ x ∈ pre, x.pkt ≠ r.pkt := fun x hx heq =>
    hdisj x.pkt (List.mem_map_of_mem hx) r.pkt (List.mem_cons_self ..) heq
  refine ⟨pre, post, hl, hpre', fun x hx heq => hpost (heq ▸ List.mem_map_of_mem hx), ?_⟩
  rw [hl, List.eraseP_append_right _ fun x hx => by simpa using hpre' x hx,
    List.eraseP_cons_of_pos (by simp)]

/-- Deleting a request takes one off the count of each peer it is outstanding for. -/
theorem deleteTodo_ok (h : TodoOk s) {r : TodoRequest D} (hr : r ∈ s.todo) :
    ∃ s', s.deleteTodo r = .ok s' ∧ TodoWired s' ∧
      (∀ j, s'.outstanding j + (if r.outstanding j = true then 1 else 0) = s.outstanding j) ∧
      s'.peers = s.peers.map fun p =>
        if r.outstanding p.peerNum = true then takeOne p else p := by
  obtain ⟨pre, post, hl, -, -, herase⟩ := split_findTodo h.toTodoWired hr
  have hcon : ∀ j ∈ List.finRange maxPeers, r.outstanding j = true →
      j ∈ ({ s with todo := s.todo.eraseP fun x => x.pkt == r.pkt } : TodoState D P).connected := by
    intro j _ hj
    unfold TodoRequest.outstanding at hj
    rw [Bool.and_eq_true] at hj
    exact h.asked_connected r hr j hj.1
  unfold deleteTodo
  rw [answered_eq_ok r (List.nodup_finRange _) hcon]
  have hpeers : (s.peers.map fun p =>
      if p.peerNum ∈ List.finRange maxPeers ∧ r.outstanding p.peerNum = true then takeOne p else p)
      = s.peers.map fun p => if r.outstanding p.peerNum = true then takeOne p else p :=
    List.map_congr_left fun p _ => by simp
  have hsub : ∀ x ∈ s.todo.eraseP (fun x => x.pkt == r.pkt), x ∈ s.todo :=
    fun x hx => List.mem_of_mem_eraseP hx
  have hconn : (s.peers.map fun p => if r.outstanding p.peerNum = true then takeOne p else p).map
      (·.peerNum) = s.connected := by
    rw [List.map_map]
    refine List.map_congr_left fun p _ => ?_
    dsimp only [Function.comp]
    split_ifs <;> rfl
  refine ⟨_, rfl, ⟨?_, ?_, ?_, ?_, ?_⟩, fun j => ?_, hpeers⟩
  · exact h.distinct.sublist ((List.eraseP_sublist ..).map _)
  · show (List.map _ _).Nodup
    rw [hpeers, hconn]
    exact h.numbers
  · intro j
    show _ ↔ j ∈ List.map _ _
    rw [hpeers, hconn]
    exact h.peerMap j
  · exact fun x hx => h.failed_asked x (hsub x hx)
  · intro x hx j hj
    show j ∈ List.map _ _
    rw [hpeers, hconn]
    exact h.asked_connected x (hsub x hx) j hj
  · unfold outstanding
    dsimp only
    rw [herase, hl, List.countP_append, List.countP_append, List.countP_cons]
    exact Nat.add_assoc ..

/-- A failure takes the request off those outstanding for the peer. -/
theorem setFailed_ok (h : TodoWired s) {r : TodoRequest D} (hr : r ∈ s.todo)
    (hout : r.outstanding i = true) :
    TodoWired (s.setFailed r i) ∧
      ∀ j, (s.setFailed r i).outstanding j + (if j = i then 1 else 0) = s.outstanding j := by
  obtain ⟨pre, post, hl, hpre, hpost, -⟩ := split_findTodo h hr
  have hasked : r.peersAsked i = true ∧ r.peersFailed i = false := by
    unfold TodoRequest.outstanding at hout
    simpa using hout
  have hmap : (s.setFailed r i).todo
      = pre ++ { r with peersFailed := Function.update r.peersFailed i true } :: post := by
    unfold setFailed
    dsimp only
    rw [hl, List.map_append, List.map_cons, if_pos rfl,
      List.map_congr_left (fun x hx => if_neg (hpre x hx)),
      List.map_congr_left (l := post) (fun x hx => if_neg (hpost x hx)), List.map_id', List.map_id']
  have hmem : ∀ x ∈ (s.setFailed r i).todo,
      x ∈ s.todo ∨ x = { r with peersFailed := Function.update r.peersFailed i true } := by
    intro x hx
    rw [hmap] at hx
    rw [hl]
    rcases List.mem_append.mp hx with hx | hx
    · exact Or.inl (List.mem_append_left _ hx)
    · rcases List.mem_cons.mp hx with hx | hx
      · exact Or.inr hx
      · exact Or.inl (List.mem_append_right _ (List.mem_cons_of_mem _ hx))
  refine ⟨⟨?_, h.numbers, h.peerMap, ?_, ?_⟩, fun j => ?_⟩
  · have hd := h.distinct
    rw [hl, List.map_append, List.map_cons] at hd
    rwa [hmap, List.map_append, List.map_cons]
  · intro x hx j hj
    rcases hmem x hx with hx | rfl
    · exact h.failed_asked x hx j hj
    · by_cases hji : j = i
      · exact hji ▸ hasked.1
      · exact h.failed_asked r hr j ((Function.update_of_ne hji ..).symm.trans hj)
  · intro x hx j hj
    rcases hmem x hx with hx | rfl
    · exact h.asked_connected x hx j hj
    · exact h.asked_connected r hr j hj
  · unfold outstanding
    rw [hmap, hl, List.countP_append, List.countP_append, List.countP_cons, List.countP_cons]
    by_cases hji : j = i
    · subst hji
      rw [if_pos rfl, if_pos hout, if_neg (by simp [TodoRequest.outstanding])]
      exact Nat.add_assoc ..
    · simp [TodoRequest.outstanding, hji]

omit [DecidableEq D] in
theorem takeOne_toNat {p : TodoPeer P} (h : 0 < p.requestsOutstanding.toNat) :
    (takeOne p).requestsOutstanding.toNat + 1 = p.requestsOutstanding.toNat := by
  show (p.requestsOutstanding - 1).toNat + 1 = _
  have hone : (1 : UInt32) ≤ p.requestsOutstanding := UInt32.le_iff_toNat_le.mpr h
  rw [UInt32.toNat_sub_of_le _ _ hone, show (1 : UInt32).toNat = 1 from rfl]
  exact Nat.sub_add_cancel h

-- ---------------------------------------------------------------------------
-- Peers come and go
-- ---------------------------------------------------------------------------

omit [DecidableEq D] in
/-- A new peer gets a number that nobody was asked under. -/
theorem allocPeer_ok (h : TodoWired s) :
    TodoWired s.allocPeer ∧ (∀ j, s.allocPeer.outstanding j = s.outstanding j) ∧
      ∀ p ∈ s.allocPeer.peers, p ∈ s.peers ∨
        (p.requestsOutstanding = 0 ∧ s.allocPeer.outstanding p.peerNum = 0) := by
  unfold allocPeer
  cases hnum : s.getPeernum with
  | none => exact ⟨h, fun _ => rfl, fun p hp => Or.inl hp⟩
  | some i =>
    have hfree : i ∉ s.connected := fun hi => by
      have hmap := (h.peerMap i).mpr hi
      have hnot := List.find?_some hnum
      rw [hmap] at hnot
      exact absurd hnot (by decide)
    refine ⟨⟨h.distinct, ?_, fun j => ?_, h.failed_asked, fun r hr j hj => ?_⟩, fun _ => rfl,
      fun p hp => ?_⟩
    · exact List.nodup_cons.mpr ⟨hfree, h.numbers⟩
    · show Function.update s.peerMap i true j = true ↔ j ∈ i :: s.connected
      by_cases hji : j = i
      · subst hji
        simp
      · rw [Function.update_of_ne hji, h.peerMap, List.mem_cons]
        exact ⟨Or.inr, fun hj => hj.resolve_left hji⟩
    · exact List.mem_cons_of_mem _ (h.asked_connected r hr j hj)
    · rcases List.mem_cons.mp hp with rfl | hp
      · refine Or.inr ⟨rfl, List.countP_eq_zero.mpr fun r hr hout => hfree ?_⟩
        unfold TodoRequest.outstanding at hout
        rw [Bool.and_eq_true] at hout
        exact h.asked_connected r hr i hout.1
      · exact Or.inl hp

omit [DecidableEq D] in
/-- A peer that goes takes its bits with it. -/
theorem destroyPeer_ok (h : TodoWired s) :
    TodoWired (s.destroyPeer i) ∧
      (∀ j ∈ (s.destroyPeer i).connected, (s.destroyPeer i).outstanding j = s.outstanding j) ∧
      ∀ p ∈ (s.destroyPeer i).peers, p ∈ s.peers := by
  have hconn : ∀ j, j ∈ (s.destroyPeer i).connected ↔ j ∈ s.connected ∧ j ≠ i := by
    intro j
    simp only [mem_connected, destroyPeer, removePeerFromTodo, List.mem_filter, bne_iff_ne]
    constructor
    · rintro ⟨p, ⟨hp, hne⟩, rfl⟩
      exact ⟨⟨p, hp, rfl⟩, hne⟩
    · rintro ⟨⟨p, hp, rfl⟩, hne⟩
      exact ⟨p, ⟨hp, hne⟩, rfl⟩
  refine ⟨⟨?_, ?_, fun j => ?_, ?_, ?_⟩, fun j hj => ?_, fun p hp => List.mem_of_mem_filter hp⟩
  · show (List.map _ (List.map _ _)).Nodup
    rw [List.map_map]
    exact h.distinct
  · exact h.numbers.sublist (List.filter_sublist.map _)
  · rw [hconn, ← h.peerMap]
    show Function.update s.peerMap i false j = true ↔ _
    by_cases hji : j = i
    · subst hji
      simp
    · rw [Function.update_of_ne hji]
      exact ⟨fun hj => ⟨hj, hji⟩, fun hj => hj.1⟩
  · intro r hr j hj
    obtain ⟨x, hx, rfl⟩ := List.mem_map.mp hr
    by_cases hji : j = i
    · subst hji
      exact absurd hj (by simp)
    · exact (Function.update_of_ne hji ..).trans
        (h.failed_asked x hx j ((Function.update_of_ne hji ..).symm.trans hj))
  · intro r hr j hj
    obtain ⟨x, hx, rfl⟩ := List.mem_map.mp hr
    by_cases hji : j = i
    · subst hji
      exact absurd hj (by simp)
    · exact (hconn j).mpr
        ⟨h.asked_connected x hx j ((Function.update_of_ne hji ..).symm.trans hj), hji⟩
  · have hji := ((hconn j).mp hj).2
    unfold outstanding destroyPeer removePeerFromTodo
    dsimp only
    rw [List.countP_map]
    refine List.countP_congr fun r _ => ?_
    simp [TodoRequest.outstanding, hji]

end TodoState

-- ---------------------------------------------------------------------------
-- Steps and runs
-- ---------------------------------------------------------------------------

section

variable {s s' : TodoState D P} {op : TodoOp D P}

open TodoState

omit [DecidableEq D] in
theorem todoOk_of_excess {f : Fin maxPeers → Nat} (h : TodoOk s) (hw : TodoWired s')
    (hk : ExcessKept s s' f)
    (hb : ∀ p ∈ s'.peers, p.requestsOutstanding.toNat ≤ maxRequests.toNat) : TodoOk s' where
  toTodoWired := hw
  counted p' hp' := by
    rcases hk p' hp' with ⟨hzero, hout⟩ | ⟨p, hp, hnum, heq⟩
    · rw [hout]
      exact Nat.zero_le _
    · have hle := h.counted p hp
      rw [← hnum]
      omega
  bounded := hb

omit [DecidableEq D] in
theorem eq_of_peerNum (h : TodoWired s) {p q : TodoPeer P} (hp : p ∈ s.peers) (hq : q ∈ s.peers)
    (heq : p.peerNum = q.peerNum) : p = q :=
  List.inj_on_of_nodup_map h.numbers hp hq heq

omit [DecidableEq D] in
theorem getTodoPkt_ok (h : TodoOk s) {peer : TodoPeer P} (hpeer : peer ∈ s.peers) :
    TodoWired (s.getTodoPkt peer).1 ∧ ExcessKept s (s.getTodoPkt peer).1 (fun _ => 0) ∧
      ∀ p ∈ (s.getTodoPkt peer).1.peers, p.requestsOutstanding.toNat ≤ maxRequests.toNat := by
  have hself : ExcessKept s s fun _ => 0 :=
    excessKept_of_same (fun p hp => ⟨p, hp, rfl, rfl⟩) fun _ _ => rfl
  unfold getTodoPkt
  cases peer.todo with
  | cons pkt rest =>
    refine ⟨wired_modPeer h.toTodoWired fun _ => rfl,
      excessKept_of_same (fun p' hp' => ?_) fun _ _ => rfl, fun p' hp' => ?_⟩
    · obtain ⟨p, hp, rfl⟩ := mem_peers_modPeer hp'
      exact ⟨p, hp, by split_ifs <;> rfl, by split_ifs <;> rfl⟩
    · obtain ⟨p, hp, rfl⟩ := mem_peers_modPeer hp'
      split_ifs <;> exact h.bounded p hp
  | nil =>
    dsimp only
    split_ifs with hmax
    · exact ⟨h.toTodoWired, hself, h.bounded⟩
    · cases hask : askFirst peer.peerNum s.todo with
      | none => exact ⟨h.toTodoWired, hself, h.bounded⟩
      | some found =>
        obtain ⟨hw, hout⟩ := askFirst_ok h.toTodoWired (mem_connected.mpr ⟨peer, hpeer, rfl⟩) hask
        have hlt : peer.requestsOutstanding.toNat < maxRequests.toNat :=
          UInt32.lt_iff_toNat_lt.mp (UInt32.not_le.mp hmax)
        have hadd : (peer.requestsOutstanding + 1).toNat = peer.requestsOutstanding.toNat + 1 := by
          rw [show maxRequests.toNat = 4 from rfl] at hlt
          rw [UInt32.toNat_add, show (1 : UInt32).toNat = 1 from rfl]
          omega
        refine ⟨wired_modPeer hw fun _ => rfl, fun p' hp' => ?_, fun p' hp' => ?_⟩
        all_goals
          obtain ⟨p, hp, rfl⟩ := mem_peers_modPeer hp'
          by_cases hnum : p.peerNum = peer.peerNum
        · obtain rfl := eq_of_peerNum h.toTodoWired hp hpeer hnum
          refine Or.inr ⟨p, hp, by rw [if_pos rfl], ?_⟩
          have hout' := hout p.peerNum
          rw [if_pos rfl] at hout'
          rw [if_pos rfl]
          change (p.requestsOutstanding + 1).toNat + _ = _ + outstanding _ p.peerNum + 0
          change outstanding _ p.peerNum = _ at hout'
          unfold outstanding at hout' ⊢
          unfold modPeer
          dsimp only at hout' ⊢
          omega
        · refine Or.inr ⟨p, hp, by rw [if_neg hnum], ?_⟩
          have hout' := hout p.peerNum
          rw [if_neg hnum] at hout'
          rw [if_neg hnum]
          unfold outstanding at hout' ⊢
          unfold modPeer
          dsimp only at hout' ⊢
          omega
        · obtain rfl := eq_of_peerNum h.toTodoWired hp hpeer hnum
          rw [if_pos rfl]
          exact hadd.trans_le hlt
        · rw [if_neg hnum]
          exact h.bounded p hp

theorem finishTodo_ok (h : TodoOk s) {peer : TodoPeer P} (hpeer : peer ∈ s.peers)
    (pkt : TodoPkt D) (success : Bool) :
    ∃ s', s.finishTodo peer pkt success = .ok s' ∧ TodoWired s' ∧ ExcessKept s s' (fun _ => 0) ∧
      ∀ p ∈ s'.peers, p.requestsOutstanding.toNat ≤ maxRequests.toNat := by
  have hself : ExcessKept s s fun _ => 0 :=
    excessKept_of_same (fun p hp => ⟨p, hp, rfl, rfl⟩) fun _ _ => rfl
  unfold finishTodo
  cases hfind : s.findTodo pkt with
  | none => exact ⟨s, rfl, h.toTodoWired, hself, h.bounded⟩
  | some r =>
    obtain ⟨hr, -⟩ := findTodo_eq_some hfind
    -- a count with a request outstanding is not zero
    have hpos : ∀ p ∈ s.peers, r.outstanding p.peerNum = true → 0 < p.requestsOutstanding.toNat :=
      fun p hp hout => Nat.lt_of_lt_of_le (List.countP_pos_iff.mpr ⟨r, hr, hout⟩) (h.counted p hp)
    dsimp only
    split_ifs with hsucc hout hzero
    · obtain ⟨s', hok, hw, hcount, hpeers⟩ := deleteTodo_ok h hr
      refine ⟨s', hok, hw, fun p' hp' => ?_, fun p' hp' => ?_⟩
      all_goals
        rw [hpeers] at hp'
        obtain ⟨p, hp, rfl⟩ := List.mem_map.mp hp'
        by_cases hrp : r.outstanding p.peerNum = true
      · have htake := takeOne_toNat (hpos p hp hrp)
        have hc := hcount p.peerNum
        rw [if_pos hrp] at hc
        refine Or.inr ⟨p, hp, by rw [if_pos hrp]; rfl, ?_⟩
        rw [if_pos hrp]
        dsimp only
        omega
      · have hc := hcount p.peerNum
        rw [if_neg hrp] at hc
        refine Or.inr ⟨p, hp, by rw [if_neg hrp], ?_⟩
        rw [if_neg hrp]
        dsimp only
        omega
      · have htake := takeOne_toNat (hpos p hp hrp)
        have hb := h.bounded p hp
        rw [if_pos hrp]
        omega
      · rw [if_neg hrp]
        exact h.bounded p hp
    · have hne := hpos peer hpeer hout
      rw [hzero] at hne
      exact absurd hne (Nat.lt_irrefl 0)
    · obtain ⟨hw, hcount⟩ := setFailed_ok h.toTodoWired hr hout
      refine ⟨_, rfl, wired_modPeer hw fun _ => rfl, fun p' hp' => ?_, fun p' hp' => ?_⟩
      all_goals
        obtain ⟨p, hp, rfl⟩ := mem_peers_modPeer hp'
        by_cases hnum : p.peerNum = peer.peerNum
      · obtain rfl := eq_of_peerNum h.toTodoWired hp hpeer hnum
        have htake := takeOne_toNat (hpos p hp hout)
        have hc := hcount p.peerNum
        rw [if_pos rfl] at hc
        refine Or.inr ⟨p, hp, by rw [if_pos rfl], ?_⟩
        rw [if_pos rfl]
        change (takeOne p).requestsOutstanding.toNat + _ = _ + (s.setFailed r p.peerNum).outstanding _ + 0
        omega
      · have hc := hcount p.peerNum
        rw [if_neg hnum] at hc
        refine Or.inr ⟨p, hp, by rw [if_neg hnum], ?_⟩
        rw [if_neg hnum]
        change _ = _ + (s.setFailed r peer.peerNum).outstanding _ + 0
        omega
      · obtain rfl := eq_of_peerNum h.toTodoWired hp hpeer hnum
        have htake := takeOne_toNat (hpos p hp hout)
        have hb := h.bounded p hp
        rw [if_pos rfl]
        change (takeOne p).requestsOutstanding.toNat ≤ _
        omega
      · rw [if_neg hnum]
        exact h.bounded p hp
    · exact ⟨s, rfl, h.toTodoWired, hself, h.bounded⟩

/-- **A step.** Nothing stops the program, the bitmaps stay right, and the counts are
in excess as before, but for what `todo_forget_about_block` drops. -/
theorem todoOp_ok (h : TodoOk s) (ha : op.Admitted s) :
    ∃ s', op.apply s = .ok s' ∧ TodoOk s' ∧ ExcessKept s s' fun i => op.forgotten s i := by
  cases op with
  | add pkt =>
    obtain ⟨hw, hout⟩ := newTodoRequest_ok h.toTodoWired pkt
    have hpeers : (s.newTodoRequest pkt).peers = s.peers := by
      unfold newTodoRequest
      split <;> rfl
    have hk : ExcessKept s (s.newTodoRequest pkt) fun _ => 0 :=
      excessKept_of_same (fun p hp => ⟨p, hpeers ▸ hp, rfl, rfl⟩) fun j _ => hout j
    exact ⟨_, rfl, todoOk_of_excess h hw hk fun p hp => h.bounded p (hpeers ▸ hp), hk⟩
  | forPeer i pkt =>
    have hk : ExcessKept s (s.todoForPeer i pkt) fun _ => 0 := by
      refine excessKept_of_same (fun p' hp' => ?_) fun _ _ => rfl
      obtain ⟨p, hp, rfl⟩ := mem_peers_modPeer hp'
      exact ⟨p, hp, by split_ifs <;> rfl, by split_ifs <;> rfl⟩
    refine ⟨_, rfl, todoOk_of_excess h (wired_modPeer h.toTodoWired fun _ => rfl) hk fun p' hp' => ?_,
      hk⟩
    obtain ⟨p, hp, rfl⟩ := mem_peers_modPeer hp'
    split_ifs <;> exact h.bounded p hp
  | getPkt i =>
    obtain ⟨peer, hfind⟩ := findPeer_isSome ha
    obtain ⟨hpeer, rfl⟩ := findPeer_eq_some hfind
    obtain ⟨hw, hk, hb⟩ := getTodoPkt_ok h hpeer
    refine ⟨(s.getTodoPkt peer).1, ?_, todoOk_of_excess h hw hk hb, hk⟩
    show (match s.findPeer peer.peerNum with | none => _ | some peer => _) = _
    rw [hfind]
  | done i pkt success =>
    obtain ⟨peer, hfind⟩ := findPeer_isSome ha
    obtain ⟨hpeer, rfl⟩ := findPeer_eq_some hfind
    obtain ⟨s', hok, hw, hk, hb⟩ := finishTodo_ok h hpeer pkt success
    refine ⟨s', ?_, todoOk_of_excess h hw hk hb, hk⟩
    show (match s.findPeer peer.peerNum with | none => _ | some peer => _) = _
    rw [hfind]
    exact hok
  | forget block =>
    obtain ⟨hw, hout⟩ := todoForgetAboutBlock_ok h.toTodoWired block
    have hk : ExcessKept s (s.todoForgetAboutBlock block)
        fun i => (TodoOp.forget (P := P) block).forgotten s i := by
      intro p hp
      refine Or.inr ⟨p, hp, rfl, ?_⟩
      rw [← hout p.peerNum]
      dsimp only
      omega
    exact ⟨_, rfl, todoOk_of_excess h hw hk h.bounded, hk⟩
  | connect =>
    obtain ⟨hw, hout, hpeers⟩ := allocPeer_ok h.toTodoWired
    have hk : ExcessKept s s.allocPeer fun _ => 0 := by
      intro p hp
      rcases hpeers p hp with hold | hnew
      · exact Or.inr ⟨p, hold, rfl, by rw [hout, Nat.add_zero]⟩
      · exact Or.inl hnew
    refine ⟨_, rfl, todoOk_of_excess h hw hk fun p hp => ?_, hk⟩
    rcases hpeers p hp with hold | ⟨hzero, -⟩
    · exact h.bounded p hold
    · rw [hzero]
      exact Nat.zero_le _
  | disconnect i =>
    obtain ⟨hw, hout, hpeers⟩ := destroyPeer_ok (i := i) h.toTodoWired
    have hk : ExcessKept s (s.destroyPeer i) fun _ => 0 :=
      excessKept_of_same (fun p hp => ⟨p, hpeers p hp, rfl, rfl⟩) hout
    exact ⟨_, rfl, todoOk_of_excess h hw hk fun p hp => h.bounded p (hpeers p hp), hk⟩

/-- A request that a connected peer has yet to answer is dropped. -/
def TodoOp.Leaks (s : TodoState D P) : TodoOp D P → Prop
  | forget block => ∃ p ∈ s.peers, ∃ r ∈ s.todo, r.pkt.sha = block ∧ r.outstanding p.peerNum = true
  | _ => False

theorem forgotten_eq_zero (hleak : ¬ op.Leaks s) {p : TodoPeer P} (hp : p ∈ s.peers) :
    op.forgotten s p.peerNum = 0 := by
  cases op with
  | forget block =>
    refine List.countP_eq_zero.mpr fun r hr hout => hleak ⟨p, hp, r, hr, ?_⟩
    rw [Bool.and_eq_true, beq_iff_eq] at hout
    exact hout
  | _ => rfl

/-- The counts stay right but where a request is dropped. -/
theorem accounted_step (h : TodoOk s) (hacc : Accounted s) (ha : op.Admitted s)
    (hs' : op.apply s = .ok s') : Accounted s' ↔ ¬ op.Leaks s := by
  obtain ⟨s'', hok, -, hk⟩ := todoOp_ok h ha
  obtain rfl := Except.ok.inj (hs'.symm.trans hok)
  constructor
  · intro hacc' hleak
    cases op with
    | forget block =>
      obtain ⟨p, hp, r, hr, hsha, hout⟩ := hleak
      obtain rfl := Except.ok.inj hs'
      have hbefore := hacc p hp
      have hafter := hacc' p hp
      have hcount := (todoForgetAboutBlock_ok h.toTodoWired block).2 p.peerNum
      have hpos : 0 < (TodoOp.forget (P := P) block).forgotten s p.peerNum :=
        List.countP_pos_iff.mpr ⟨r, hr, by rw [hout, hsha]; simp⟩
      omega
    | _ => exact hleak
  · intro hleak p' hp'
    rcases hk p' hp' with ⟨hzero, hout⟩ | ⟨p, hp, hnum, heq⟩
    · rw [hzero, hout]
      rfl
    · have hbefore := hacc p hp
      dsimp only at heq
      rw [forgotten_eq_zero hleak hp] at heq
      rw [← hnum]
      omega

omit [DecidableEq D] in
theorem todoOk_init : TodoOk (.init : TodoState D P) where
  distinct := List.nodup_nil
  numbers := List.nodup_nil
  peerMap i := iff_of_false (by simp [TodoState.init]) (by simp [TodoState.init, connected])
  failed_asked r hr := absurd hr (by simp [TodoState.init])
  asked_connected r hr := absurd hr (by simp [TodoState.init])
  counted p hp := absurd hp (by simp [TodoState.init])
  bounded p hp := absurd hp (by simp [TodoState.init])

variable {run : List (TodoState D P × TodoOp D P)}

theorem todoOk_of_run (h : TodoRun run s) : TodoOk s := by
  induction h with
  | start => exact todoOk_init
  | step op _ ha hs' ih =>
    obtain ⟨s', hok, hok', -⟩ := todoOp_ok ih ha
    obtain rfl := Except.ok.inj (hs'.symm.trans hok)
    exact hok'

/-- **The accounts of a run.** In every state reached no count passes `MAX_REQUESTS` or
wraps, only connected peers are asked, and whatever is done next does not stop the
program. And the count of every peer was right all the time, in each state of the run,
exactly when no `todo_forget_about_block` dropped a request that a connected peer was
yet to answer. -/
theorem requests_accounted_iff (h : TodoRun run s) :
    TodoOk s ∧ (∀ op : TodoOp D P, op.Admitted s → ∃ s', op.apply s = .ok s') ∧
      ((∀ x ∈ run.map Prod.fst ++ [s], Accounted x) ↔ ∀ x ∈ run, ¬ x.2.Leaks x.1) := by
  refine ⟨todoOk_of_run h, fun op ha => ?_, ?_⟩
  · obtain ⟨s', hok, -⟩ := todoOp_ok (todoOk_of_run h) ha
    exact ⟨s', hok⟩
  · induction h with
    | start =>
      refine iff_of_true (fun x hx p hp => ?_) fun x hx => absurd hx (by simp)
      obtain rfl := List.mem_singleton.mp hx
      exact absurd hp (by simp [TodoState.init])
    | @step run s s' op hrun ha hs' ih =>
      have hstep := fun hacc => accounted_step (todoOk_of_run hrun) hacc ha hs'
      rw [List.map_append]
      constructor
      · intro hall x hx
        have hacc : ∀ x ∈ run.map Prod.fst ++ [s], Accounted x :=
          fun x hx => hall x (List.mem_append_left _ hx)
        rcases List.mem_append.mp hx with hx | hx
        · exact ih.mp hacc x hx
        · obtain rfl := List.mem_singleton.mp hx
          exact (hstep (hacc s (by simp))).mp (hall s' (by simp))
      · intro hleaks x hx
        have hacc := ih.mpr fun x hx => hleaks x (List.mem_append_left _ hx)
        rcases List.mem_append.mp hx with hx | hx
        · exact hacc x hx
        · obtain rfl := List.mem_singleton.mp hx
          exact (hstep (hacc s (by simp))).mpr (hleaks (s, op) (by simp))

end

-- ---------------------------------------------------------------------------
-- A request that is forgotten
-- ---------------------------------------------------------------------------

def firstPeer : Fin maxPeers := ⟨0, by decide⟩

/-- A peer connects, there is a shard to ask for, and the peer is asked. -/
def askedState : TodoState IdealDigest Unit :=
  ((TodoState.init.allocPeer.newTodoRequest (.getShard .zero 0)).getTodoPkt
    ⟨firstPeer, 0, []⟩).1

theorem todoRun_asked : ∃ run, TodoRun run askedState :=
  ⟨_, .step (.getPkt firstPeer) (.step (.add (.getShard .zero 0)) (.step .connect .start trivial rfl)
    trivial rfl) (List.mem_cons_self ..) rfl⟩

theorem requests_accounted_iff_asked :
    ∃ run, TodoRun run askedState ∧
      ((∀ x ∈ run.map Prod.fst ++ [askedState], Accounted x) ↔ ∀ x ∈ run, ¬ x.2.Leaks x.1) := by
  obtain ⟨run, h⟩ := todoRun_asked
  exact ⟨run, h, (requests_accounted_iff h).2.2⟩

/-- The block is forgotten before the peer answers: nothing is outstanding, and the peer
still has one answer to give. -/
theorem forget_leaves_count :
    ∃ run, TodoRun run (askedState.todoForgetAboutBlock .zero) ∧
      (askedState.todoForgetAboutBlock .zero).todo = [] ∧
      (askedState.todoForgetAboutBlock .zero).peers = [⟨firstPeer, 1, []⟩] ∧
      ¬ Accounted (askedState.todoForgetAboutBlock .zero) := by
  obtain ⟨run, h⟩ := todoRun_asked
  refine ⟨_, .step (.forget .zero) h trivial rfl, rfl, rfl, fun hacc => ?_⟩
  exact absurd (hacc ⟨firstPeer, 1, []⟩ (List.mem_singleton.mpr rfl)) (by decide)

end Pettycoin
