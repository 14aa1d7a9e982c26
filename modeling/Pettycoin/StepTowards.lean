import Pettycoin.ReorgRun

/-!
# Pettycoin — one step towards a block

The three loops of `step_towards`, pointer by pointer (`Towards.step`), and the
loop of `steal_pending_txs` (`StealLoop`).

In a tree they never follow NULL, and end: `step_towards` with the child of the
nearest common ancestor that leads to the target, `steal_pending_txs` having
visited the blocks of the old branch that are not on the new one
(`stepTowards_finds_branch`).

* `back_reaches`, `meet_reaches` — what each loop comes to;
* `stepTowards_reaches` — `stepTowards` is what the three come to;
* `exists_stealVisits` — the blocks the other loop visits;
* `stepTowards_finds_branch` — the branch, and how to take it.
-/

namespace Pettycoin

open Forest ExceptRules

variable {D : Type} {s : State D} {a b c : Nat}

-- ---------------------------------------------------------------------------
-- The loops
-- ---------------------------------------------------------------------------

/-- The pointers of `step_towards`, by the loop that it is in. `prev_target` is
not set before the second loop sets it. -/
inductive Towards where
  | back (curr target : BlockId)
  | forth (curr target : BlockId) (prevTarget : Option BlockId)
  | meet (curr target : BlockId) (prevTarget : Option BlockId)
  | done (ret : Option BlockId)
  deriving DecidableEq

/-- One test of a loop, with the body if it holds: `none` if that follows NULL, or
reads `prev_target` before it is set. -/
def Towards.step (s : State D) : Towards → Option Towards
  | back curr target =>
    if (s.blk curr).depth > (s.blk target).depth then
      (s.blk curr).prev.map fun curr => back curr target
    else if curr = target then some (done none)
    else some (forth curr target none)
  | forth curr target prevTarget =>
    if (s.blk target).depth > (s.blk curr).depth then
      (s.blk target).prev.map fun prev => forth curr prev (some target)
    else some (meet curr target prevTarget)
  | meet curr target prevTarget =>
    if curr = target then prevTarget.map fun last => done (some last)
    else (s.blk target).prev.bind fun t => (s.blk curr).prev.map fun c => meet c t (some target)
  | done ret => some (done ret)

/-- `step_towards` comes from the one to the other. -/
def Towards.Reaches (s : State D) : Towards → Towards → Prop :=
  Relation.ReflTransGen fun t t' => t.step s = some t'

/-- The loop of `steal_pending_txs` from `b` until `stop` visits these blocks: where
`b` is NULL it can only stop. -/
inductive StealLoop (s : State D) (stop : Option BlockId) : Option BlockId → List BlockId → Prop
  | stop : StealLoop s stop stop []
  | visit {b : BlockId} {visited : List BlockId} (hb : some b ≠ stop)
      (h : StealLoop s stop (s.blk b).prev visited) : StealLoop s stop (some b) (b :: visited)

/-- What `steal_pending_txs` visits when the longest known moves from `old` to `new`. -/
def StealVisits (s : State D) (old new : BlockId) (visited : List BlockId) : Prop :=
  (Towards.Reaches s (.back new old) (.done none) ∧ visited = []) ∨
    ∃ last, Towards.Reaches s (.back new old) (.done (some last)) ∧
      StealLoop s (s.blk last).prev (some old) visited

/-- `p` is the nearest common ancestor. -/
structure NearestCommon (s : State D) (a b p : Nat) : Prop where
  left : Anc (prevOf s) p a
  right : Anc (prevOf s) p b
  nearest : ∀ x, Anc (prevOf s) x a → Anc (prevOf s) x b → Anc (prevOf s) x p

-- ---------------------------------------------------------------------------
-- `step_towards`
-- ---------------------------------------------------------------------------

theorem Towards.Reaches.head {t t' t'' : Towards} (h : t.step s = some t')
    (h' : Reaches s t' t'') : Reaches s t t'' :=
  Relation.ReflTransGen.head h h'

/-- The first loop ends where `rewindTo` does. -/
theorem back_reaches (h : TreeOk s) {target n : Nat} (hb : b < s.numBlocks)
    (hn : (s.blk b).depth ≤ (s.blk target).depth + n) :
    Towards.Reaches s (.back b target) (.back (rewindTo s (s.blk target).depth n b).1 target) := by
  induction n generalizing b with
  | zero => exact .refl
  | succ n ih =>
    unfold rewindTo
    split_ifs with hd
    · obtain ⟨p, hp⟩ := h.exists_prev hb (by omega)
      have hdp := h.depth_prev b p hp
      rw [show (s.blk b).prev = some p from hp]
      refine .head ?_ (ih (h.anc_lt (Anc.of_parent hp) hb) (show (s.blk p).depth ≤ _ by omega))
      simp [Towards.step, hd, show (s.blk b).prev = some p from hp]
    · exact .refl

/-- So does the second, and keeps the block before. -/
theorem forth_reaches (h : TreeOk s) {curr n : Nat} {last : Option Nat} (hb : b < s.numBlocks)
    (hn : (s.blk b).depth ≤ (s.blk curr).depth + n) :
    Towards.Reaches s (.forth curr b last)
      (.forth curr (rewindTo s (s.blk curr).depth n b).1
        ((rewindTo s (s.blk curr).depth n b).2.or last)) := by
  induction n generalizing b last with
  | zero => exact .refl
  | succ n ih =>
    unfold rewindTo
    split_ifs with hd
    · obtain ⟨p, hp⟩ := h.exists_prev hb (by omega)
      have hdp := h.depth_prev b p hp
      rw [show (s.blk b).prev = some p from hp]
      have hrest := @ih p (some b) (h.anc_lt (Anc.of_parent hp) hb)
        (show (s.blk p).depth ≤ _ by omega)
      have hstep : Towards.step s (.forth curr b last) = some (.forth curr p (some b)) := by
        simp [Towards.step, hd, show (s.blk b).prev = some p from hp]
      refine .head hstep ?_
      simpa [Option.or_assoc] using hrest
    · exact .refl

/-- The third ends with what `stepMeet` finds. -/
theorem meet_reaches (h : TreeOk s) {last : Option Nat} {x n : Nat} (hc : c < s.numBlocks)
    (ha : a < s.numBlocks) (hd : (s.blk c).depth = (s.blk a).depth) (hn : (s.blk c).depth < n)
    (hmeet : stepMeet s n c a last = some x) :
    Towards.Reaches s (.meet c a last) (.done (some x)) := by
  induction n generalizing c a last with
  | zero => omega
  | succ n ih =>
    unfold stepMeet at hmeet
    split_ifs at hmeet with heq
    · refine .head ?_ .refl
      simp [Towards.step, show c = a from heq, hmeet]
    · have hne : c ≠ a := heq
      have hpos : 0 < (s.blk c).depth := by
        refine Nat.pos_of_ne_zero fun h0 => hne ?_
        have hc0 : 0 = c := h.anc_eq_of_depth (h.genesis_anc hc) (by omega)
        have ha0 : 0 = a := h.anc_eq_of_depth (h.genesis_anc ha) (by omega)
        exact hc0.symm.trans ha0
      obtain ⟨pc, hpc⟩ := h.exists_prev hc hpos
      obtain ⟨pa, hpa⟩ := h.exists_prev ha (by omega)
      have hdc := h.depth_prev c pc hpc
      have hda := h.depth_prev a pa hpa
      rw [show (s.blk c).prev = some pc from hpc, show (s.blk a).prev = some pa from hpa] at hmeet
      refine .head ?_ (ih (h.anc_lt (Anc.of_parent hpc) hc) (h.anc_lt (Anc.of_parent hpa) ha)
        (by omega) (by omega) hmeet)
      simp [Towards.step, hne, show (s.blk c).prev = some pc from hpc,
        show (s.blk a).prev = some pa from hpa]

/-- In a tree the loops come to an end, with what `stepTowards` returns. -/
theorem stepTowards_reaches (h : TreeOk s) {curr target : Nat} (hcurr : curr < s.numBlocks)
    (htarget : target < s.numBlocks) :
    Towards.Reaches s (.back curr target) (.done (stepTowards s curr target)) := by
  have hspec := stepTowards_spec h hcurr htarget
  obtain ⟨hanc, hdepth, -⟩ := rewindTo_spec h hcurr
    (show (s.blk curr).depth ≤ (s.blk target).depth + (s.blk curr).depth by omega)
  have hback := back_reaches h hcurr
    (show (s.blk curr).depth ≤ (s.blk target).depth + (s.blk curr).depth by omega)
  refine Relation.ReflTransGen.trans hback ?_
  unfold stepTowards at hspec ⊢
  generalize (rewindTo s (s.blk target).depth (s.blk curr).depth curr).1 = c at hanc hdepth hspec ⊢
  have hc := h.anc_lt hanc hcurr
  have hle : ¬ (s.blk c).depth > (s.blk target).depth := by omega
  dsimp only at hspec ⊢
  split_ifs at hspec ⊢ with heq
  · refine .head ?_ .refl
    simp [Towards.step, show c = target from heq]
  · have hne : c ≠ target := heq
    have hstep : Towards.step s (.back c target) = some (.forth c target none) := by
      simp [Towards.step, hle, hne]
    refine Towards.Reaches.head hstep ?_
    have hforth : Towards.Reaches s (.forth c target none) _ := forth_reaches h htarget
      (show (s.blk target).depth ≤ (s.blk c).depth + (s.blk target).depth by omega)
    refine Relation.ReflTransGen.trans hforth ?_
    obtain ⟨hanct, hdeptht, -⟩ := rewindTo_spec h htarget
      (show (s.blk target).depth ≤ (s.blk c).depth + (s.blk target).depth by omega)
    generalize rewindTo s (s.blk c).depth (s.blk target).depth target = r
      at hanct hdeptht hspec ⊢
    obtain ⟨a, last⟩ := r
    dsimp only at hanct hdeptht hspec ⊢
    have hda : (s.blk c).depth = (s.blk a).depth := by omega
    rw [Option.or_none]
    have hstep' : Towards.step s (.forth c a last) = some (.meet c a last) := by
      simp [Towards.step, hda]
    refine Towards.Reaches.head hstep' ?_
    rcases hspec with ⟨hnone, htc⟩ | ⟨x, hx, -⟩
    · -- then `target` is where the first loop ended
      refine absurd ?_ hne
      rcases htc.total hanc with htc' | hct
      · exact (h.anc_eq_of_depth htc' (by omega)).symm
      · refine h.anc_eq_of_depth hct ?_
        have hle := h.anc_depth htc
        omega
    · rw [hx]
      exact meet_reaches h hc (h.anc_lt hanct htarget) hda (Nat.lt_succ_self _) hx

theorem Towards.Reaches.done_unique {t : Towards} {r r' : Option BlockId}
    (h : Reaches s t (.done r)) (h' : Reaches s t (.done r')) : r = r' := by
  induction h using Relation.ReflTransGen.head_induction_on with
  | refl =>
    -- a call that is done stays as it is
    suffices ∀ t, Reaches s (.done r) t → t = .done r by
      injection (this _ h').symm
    intro t ht
    induction ht with
    | refl => rfl
    | tail _ hstep ih =>
      subst ih
      exact (Option.some.inj hstep).symm
  | head hstep _ ih =>
    refine ih ?_
    rcases Relation.ReflTransGen.cases_head h' with heq | ⟨t', hstep', hrest⟩
    · subst heq
      obtain rfl := Option.some.inj hstep
      exact .refl
    · obtain rfl := Option.some.inj (hstep.symm.trans hstep')
      exact hrest

-- ---------------------------------------------------------------------------
-- The branch
-- ---------------------------------------------------------------------------

/-- The first step from the fork is the child of the nearest common ancestor on the
way to `target`. -/
theorem FirstStep.iff_nearestCommon (h : TreeOk s) {curr target last : Nat}
    (hfirst : FirstStep s curr target last) (b : Nat) :
    b = last ↔ ∃ p, NearestCommon s curr target p ∧ prevOf s b = some p ∧
      Anc (prevOf s) b target := by
  obtain ⟨p, hp, hpc⟩ := hfirst.fork
  have hnearest : NearestCommon s curr target p := by
    refine ⟨hpc, (Anc.of_parent hp).trans hfirst.anc, fun x hxc hxt => ?_⟩
    rcases hxt.total hfirst.anc with hxl | hlx
    · rcases anc_iff_eq_or_parent.mp hxl with rfl | ⟨q, hq, hxq⟩
      · exact absurd hxc hfirst.off
      · obtain rfl := Option.some.inj (hp.symm.trans hq)
        exact hxq
    · exact absurd (hlx.trans hxc) hfirst.off
  constructor
  · rintro rfl
    exact ⟨p, hnearest, hp, hfirst.anc⟩
  · rintro ⟨q, hq, hbq, hbt⟩
    have hqp : q = p :=
      (hnearest.nearest q hq.left hq.right).antisymm h.grows
        (hq.nearest p hnearest.left hnearest.right)
    exact child_unique h.grows (hqp ▸ hbq) hp hbt hfirst.anc

/-- Below an ancestor of `curr` no step leads on. -/
theorem not_nearestCommon_of_anc (h : TreeOk s) {curr target : Nat}
    (htc : Anc (prevOf s) target curr) (b : Nat) :
    ¬ ∃ p, NearestCommon s curr target p ∧ prevOf s b = some p ∧ Anc (prevOf s) b target := by
  rintro ⟨p, hp, hbp, hbt⟩
  have htp := (hp.nearest target htc (Anc.refl _ _)).le h.grows
  have hbl := hbt.le h.grows
  have hlt := h.prev_lt b p hbp
  omega

-- ---------------------------------------------------------------------------
-- `steal_pending_txs`
-- ---------------------------------------------------------------------------

/-- The loop visits the blocks from `b` back to `last`, each once, and the model does
there what the source does. -/
theorem stealLoop_of_anc (h : TreeOk s) {last p n : Nat} (hb : Anc (prevOf s) last b)
    (hlt : b < s.numBlocks) (hp : prevOf s last = some p)
    (hn : (s.blk b).depth < (s.blk p).depth + n) :
    ∃ visited, StealLoop s (some p) (some b) visited ∧ visited.Nodup ∧
      (∀ x, x ∈ visited ↔ Anc (prevOf s) last x ∧ Anc (prevOf s) x b) ∧
      ∀ s' : State D, s'.blk = s.blk →
        stealBackTo (some p) n s' b = visited.foldl blockToPending s' := by
  induction n generalizing b with
  | zero =>
    have hdl := h.anc_depth hb
    have hdp := h.depth_prev last p hp
    omega
  | succ n ih =>
    have hdp := h.depth_prev last p hp
    have hdl := h.anc_depth hb
    have hne : some b ≠ some p := by
      intro heq
      obtain rfl := Option.some.inj heq
      omega
    have hunfold : ∀ (s' : State D) (q : Nat), s'.blk = s.blk → prevOf s b = some q →
        stealBackTo (some p) (n + 1) s' b = stealBackTo (some p) n (blockToPending s' b) q := by
      intro s' q hs' hq
      rw [stealBackTo, if_neg hne]
      simp only [(blockToPending_putsBack s' b).blk, hs', show (s.blk b).prev = some q from hq]
    rcases anc_iff_eq_or_parent.mp hb with rfl | ⟨q, hq, hlq⟩
    · refine ⟨[last], .visit hne ?_, List.nodup_singleton _, fun x => ?_, fun s' hs' => ?_⟩
      · rw [show (s.blk last).prev = some p from hp]
        exact .stop
      · rw [List.mem_singleton]
        exact ⟨fun hx => hx ▸ ⟨Anc.refl _ _, Anc.refl _ _⟩,
          fun hx => hx.2.antisymm h.grows hx.1⟩
      · rw [hunfold s' p hs' hp]
        have hstop : stealBackTo (some p) n (blockToPending s' last) p = blockToPending s' last := by
          cases n with
          | zero => rfl
          | succ n => rw [stealBackTo, if_pos rfl]
        rw [hstop]
        rfl
    · have hdq := h.depth_prev b q hq
      obtain ⟨visited, hloop, hnodup, hmem, hfold⟩ := ih hlq
        (h.anc_lt (Anc.of_parent hq) hlt) (by omega)
      refine ⟨b :: visited, ?_, List.nodup_cons.mpr ⟨fun hbv => ?_, hnodup⟩,
        fun x => ?_, fun s' hs' => ?_⟩
      · refine .visit hne ?_
        rw [show (s.blk b).prev = some q from hq]
        exact hloop
      · have hdb := h.anc_depth ((hmem b).mp hbv).2
        omega
      · rw [List.mem_cons, hmem]
        constructor
        · rintro (rfl | ⟨hlx, hxq⟩)
          · exact ⟨hb, Anc.refl _ _⟩
          · exact ⟨hlx, hxq.trans (Anc.of_parent hq)⟩
        · rintro ⟨hlx, hxb⟩
          rcases anc_iff_eq_or_parent.mp hxb with rfl | ⟨q', hq', hxq⟩
          · exact .inl rfl
          · obtain rfl := Option.some.inj (hq.symm.trans hq')
            exact .inr ⟨hlx, hxq⟩
      · rw [hunfold s' q hs' hq, List.foldl_cons]
        exact hfold _ ((blockToPending_putsBack s' b).blk.trans hs')

/-- What is visited, in a tree: the blocks of the old branch that are not on the new
one. -/
theorem exists_stealVisits (h : TreeOk s) {old new : Nat} (hold : old < s.numBlocks)
    (hnew : new < s.numBlocks) :
    ∃ visited, StealVisits s old new visited ∧ visited.Nodup ∧
      (∀ x, x ∈ visited ↔ Anc (prevOf s) x old ∧ ¬ Anc (prevOf s) x new) ∧
      stealPendingTxs s old new = visited.foldl blockToPending s := by
  have hreach := stepTowards_reaches h hnew hold
  unfold stealPendingTxs
  rcases stepTowards_spec h hnew hold with ⟨hnone, hanc⟩ | ⟨last, hsome, hfirst⟩
  · rw [hnone] at hreach ⊢
    refine ⟨[], .inl ⟨hreach, rfl⟩, List.nodup_nil, fun x => ?_, rfl⟩
    simp only [List.not_mem_nil, false_iff]
    rintro ⟨hxo, hxn⟩
    exact hxn (hxo.trans hanc)
  · obtain ⟨p, hp, hpn⟩ := hfirst.fork
    rw [hsome] at hreach ⊢
    obtain ⟨visited, hloop, hnodup, hmem, hfold⟩ := stealLoop_of_anc h hfirst.anc hold
      (n := (s.blk old).depth + 1) hp (by omega)
    refine ⟨visited, .inr ⟨last, hreach, ?_⟩, hnodup, fun x => ?_, ?_⟩
    · rw [show (s.blk last).prev = some p from hp]
      exact hloop
    · rw [hmem]
      constructor
      · rintro ⟨hlx, hxo⟩
        exact ⟨hxo, fun hxn => hfirst.off (hlx.trans hxn)⟩
      · rintro ⟨hxo, hxn⟩
        refine ⟨?_, hxo⟩
        rcases hxo.total hfirst.anc with hxl | hlx
        · rcases anc_iff_eq_or_parent.mp hxl with rfl | ⟨q, hq, hxq⟩
          · exact Anc.refl _ _
          · obtain rfl := Option.some.inj (hp.symm.trans hq)
            exact absurd (hxq.trans hpn) hxn
        · exact hlx
    · show stealBackTo (s.blk last).prev _ s old = _
      rw [show (s.blk last).prev = some p from hp]
      exact hfold s rfl

-- ---------------------------------------------------------------------------
-- Both
-- ---------------------------------------------------------------------------

/-- **`step_towards` finds the branch.** In a tree it comes to an end without following
NULL, and returns NULL exactly if the target is the block itself or an ancestor of it;
else it returns the one block that is a child of the nearest common ancestor and an
ancestor of the target, or the target itself. And `steal_pending_txs`, which follows no
NULL either, puts the blocks of the old branch back that are not on the new one, and no
others. -/
theorem stepTowards_finds_branch (h : TreeOk s) {curr target : Nat} (hcurr : curr < s.numBlocks)
    (htarget : target < s.numBlocks) :
    (∃ ret, (∀ ret', Towards.Reaches s (.back curr target) (.done ret') ↔ ret' = ret) ∧
      stepTowards s curr target = ret ∧
      (ret = none ↔ Anc (prevOf s) target curr) ∧
      ∀ b, ret = some b ↔ ∃ p, NearestCommon s curr target p ∧ prevOf s b = some p ∧
        Anc (prevOf s) b target) ∧
    ∃ visited, StealVisits s target curr visited ∧ visited.Nodup ∧
      (∀ x, x ∈ visited ↔ Anc (prevOf s) x target ∧ ¬ Anc (prevOf s) x curr) ∧
      stealPendingTxs s target curr = visited.foldl blockToPending s := by
  have hreach := stepTowards_reaches h hcurr htarget
  refine ⟨⟨stepTowards s curr target, fun ret' => ?_, rfl, ?_, fun b => ?_⟩,
    exists_stealVisits h htarget hcurr⟩
  · exact ⟨fun h' => h'.done_unique hreach, fun heq => heq ▸ hreach⟩
  · rcases stepTowards_spec h hcurr htarget with ⟨hnone, hanc⟩ | ⟨last, hsome, hfirst⟩
    · exact iff_of_true hnone hanc
    · refine iff_of_false (by simp [hsome]) fun hanc => hfirst.off (hfirst.anc.trans hanc)
  · rcases stepTowards_spec h hcurr htarget with ⟨hnone, hanc⟩ | ⟨last, hsome, hfirst⟩
    · exact iff_of_false (by simp [hnone]) (not_nearestCommon_of_anc h hanc b)
    · rw [hsome, Option.some_inj, eq_comm]
      exact hfirst.iff_nearestCommon h b

/-- From one side of a fork to the other. -/
theorem stepTowards_finds_branch_fork :
    ∃ s, NodeReach idealEnv s ∧
      (stepTowards s 2 1 = none ↔ Anc (prevOf s) 1 2) ∧
      ∃ visited, StealVisits s 1 2 visited ∧
        ∀ x, x ∈ visited ↔ Anc (prevOf s) x 1 ∧ ¬ Anc (prevOf s) x 2 := by
  obtain ⟨s, s', hreach, hadd, hs', -⟩ := forkRun_spec
  have hlt : (2 : Nat) < s.numBlocks := hadd.prev_lt
  obtain ⟨_, -, hr⟩ := of_bind_eq_ok hs'
  have hthree : s.numBlocks = 3 := congrArg Prod.snd (Except.ok.inj hr)
  have hroom : s.numBlocks ≤ depthLimit := hthree ▸ Nat.le_of_ble_eq_true rfl
  have htree := ((nodeOk_of_nodeReach hreach).chain hroom).tree
  obtain ⟨⟨ret, -, hret, hnone, -⟩, visited, hvisits, -, hmem, -⟩ :=
    stepTowards_finds_branch htree hlt (show (1 : Nat) < s.numBlocks by omega)
  exact ⟨s, hreach, hret ▸ hnone, visited, hvisits, hmem⟩

end Pettycoin
