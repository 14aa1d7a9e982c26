import Pettycoin.Lib.Sorting
import Pettycoin.NoTrace
import Pettycoin.Retarget

/-!
# Pettycoin — the timestamp rule

A block has to come after the median of the blocks before it, and less than two
hours ahead of the clock (`TimestampRule`). `check_timestamp` finds the median
with `asort`, whose comparison `cmp_times` never says that one time is below
another: it is no order (`not_threeWay_cmpTimes`), so that the sort may leave
the times as it likes.

`checkTimestampBy_iff_rule` says for which blocks that makes no difference.

* `recentTimes_eq` — the times that are sorted;
* `not_threeWay_cmpTimes` — the comparison is no order;
* `checkTimestampBy_iff` — what the function asks for, whatever the sort does;
* `checkTimestampBy_iff_rule` — when that is the rule.
-/

namespace Pettycoin

open ExceptRules Sorting

variable {D : Type} {s : State D} {timestamp : UInt32} {prev : BlockId}

-- ---------------------------------------------------------------------------
-- The source
-- ---------------------------------------------------------------------------

/-- `cmp_times()`: the second test is the first again. -/
def cmpTimes (a b : UInt32) : Int :=
  if a > b then 1
  else if a > b then -1
  else 0

/-- `check_timestamp()`, with the sort that `asort` is. -/
def checkTimestampBy (asort : (UInt32 → UInt32 → Int) → List UInt32 → List UInt32) (s : State D)
    (timestamp : UInt32) (prev : BlockId) : Bool :=
  let i := (recentTimes s 11 prev).length
  let times := asort cmpTimes (recentTimes s 11 prev)
  if i ≠ 0 ∧ timestamp ≤ times.getD (i / 2) 0 then false
  else timestamp.toNat < s.now.toNat + 2 * 60 * 60

/-- A merge only asks whether one time is above another: with it `check_timestamp` is
`checkTimestamp`. -/
theorem checkTimestampBy_mergeSorter (s : State D) (timestamp : UInt32) (prev : BlockId) :
    checkTimestampBy mergeSorter s timestamp prev = checkTimestamp s timestamp prev := by
  have hle : (fun a b => decide (cmpTimes a b ≤ 0)) = fun a b : UInt32 => decide (a ≤ b) := by
    funext a b
    unfold cmpTimes
    by_cases hab : a > b
    · rw [if_pos hab]
      exact decide_eq_decide.mpr (iff_of_false (by omega) (UInt32.not_le.mpr hab))
    · rw [if_neg hab, if_neg hab]
      exact decide_eq_decide.mpr (iff_of_true (by omega) (UInt32.not_lt.mp hab))
  unfold checkTimestampBy checkTimestamp mergeSorter
  rw [hle]
  have hlen : ((recentTimes s 11 prev).mergeSort fun a b => decide (a ≤ b)).length
      = (recentTimes s 11 prev).length := List.length_mergeSort _
  generalize (recentTimes s 11 prev).mergeSort (fun a b : UInt32 => decide (a ≤ b)) = times at hlen ⊢
  rw [← hlen]
  dsimp only
  by_cases hempty : times.length = 0
  · rw [if_neg fun h => h.1 hempty, List.getElem?_eq_none (by omega)]
  · have hlt : times.length / 2 < times.length := by omega
    rw [List.getD_eq_getElem _ 0 hlt, List.getElem?_eq_getElem hlt]
    by_cases hold : timestamp ≤ times[times.length / 2]
    · rw [if_pos ⟨hempty, hold⟩]
      simp [UInt32.not_lt.mpr hold]
    · rw [if_neg fun h => hold h.2]
      simp [UInt32.not_le.mp hold]

-- ---------------------------------------------------------------------------
-- The rule
-- ---------------------------------------------------------------------------

/-- The timestamps of the latest 11 blocks, from `prev` back, without the genesis
block. -/
def latestTimes (s : State D) (prev : BlockId) : List UInt32 :=
  (List.range 11).filterMap fun i =>
    (blockAncestor s prev i).bind fun b => (s.blk b).prev.map fun _ => (s.blk b).tailer.timestamp

/-- The element at half the length of the sorted times. -/
def medianTime (times : List UInt32) : Option UInt32 :=
  (times.mergeSort fun a b => a ≤ b)[times.length / 2]?

/-- The rule: after the median, if there is one, and less than two hours ahead. -/
structure TimestampRule (s : State D) (timestamp : UInt32) (prev : BlockId) : Prop where
  after : ∀ median, medianTime (latestTimes s prev) = some median → median < timestamp
  ahead : timestamp.toNat < s.now.toNat + 2 * 60 * 60

/-- The loop of `check_timestamp` collects the latest times. -/
theorem recentTimes_eq (s : State D) (n : Nat) (prev : BlockId) :
    recentTimes s n prev = (List.range n).filterMap fun i =>
      (blockAncestor s prev i).bind fun b =>
        (s.blk b).prev.map fun _ => (s.blk b).tailer.timestamp := by
  induction n generalizing prev with
  | zero => rfl
  | succ n ih =>
    unfold recentTimes
    rw [List.range_succ_eq_map, List.filterMap_cons, List.filterMap_map]
    cases hp : (s.blk prev).prev with
    | none => simp [blockAncestor, hp]
    | some p => simp [blockAncestor, hp, ih]

/-- There are as many as there are blocks, up to 11. -/
theorem length_latestTimes (h : TreeOk s) (hprev : prev < s.numBlocks) :
    (latestTimes s prev).length = min 11 (s.blk prev).depth := by
  rw [latestTimes, ← recentTimes_eq]
  suffices ∀ n (b : Nat), b < s.numBlocks → (recentTimes s n b).length = min n (s.blk b).depth from
    this 11 prev hprev
  intro n
  induction n with
  | zero => simp [recentTimes]
  | succ n ih =>
    intro b hb
    unfold recentTimes
    rcases Nat.eq_zero_or_pos b with rfl | hpos
    · rw [show (s.blk 0).prev = none from h.genesis_prev, h.depth_genesis]
      rfl
    · obtain ⟨p, hp⟩ := h.has_prev b hpos hb
      rw [show (s.blk b).prev = some p from hp, h.depth_prev b p hp]
      simp only [List.length_cons, ih p (h.anc_lt (Forest.Anc.of_parent hp) hb)]
      omega

/-- The median is one of the times. -/
theorem mem_of_medianTime {times : List UInt32} {median : UInt32}
    (h : medianTime times = some median) : median ∈ times :=
  List.mem_mergeSort.mp (List.mem_of_getElem? h)

theorem medianTime_isSome {times : List UInt32} (h : times ≠ []) : ∃ m, medianTime times = some m := by
  have hpos := List.length_pos_iff.mpr h
  unfold medianTime
  rw [List.getElem?_eq_getElem (by rw [List.length_mergeSort]; omega)]
  exact ⟨_, rfl⟩

-- ---------------------------------------------------------------------------
-- The sort
-- ---------------------------------------------------------------------------

/-- `cmp_times` says that 1 is above 0, but not that 0 is below 1. -/
theorem not_threeWay_cmpTimes : ¬ ThreeWay cmpTimes := fun h =>
  absurd ((h.swap 0 1).mpr (by decide)) (by decide)

/-- What `check_timestamp` returns: one of the times stands at the middle. -/
theorem checkTimestampBy_iff {asort : (UInt32 → UInt32 → Int) → List UInt32 → List UInt32} :
    checkTimestampBy asort s timestamp prev = true ↔
      (latestTimes s prev ≠ [] → (asort cmpTimes (latestTimes s prev)).getD
        ((latestTimes s prev).length / 2) 0 < timestamp) ∧
      timestamp.toNat < s.now.toNat + 2 * 60 * 60 := by
  unfold checkTimestampBy
  rw [recentTimes_eq, ← latestTimes]
  dsimp only
  split_ifs with h
  · refine iff_of_false (by decide) fun hrule => ?_
    exact UInt32.not_lt.mpr h.2 (hrule.1 fun hempty => h.1 (by rw [hempty]; rfl))
  · rw [decide_eq_true_eq]
    refine ⟨fun hahead => ⟨fun hne => ?_, hahead⟩, fun hrule => hrule.2⟩
    refine UInt32.not_le.mp fun hle => h ⟨fun hzero => hne ?_, hle⟩
    exact List.length_eq_zero_iff.mp hzero

/-- The middle element after a sort that moves the times about is one of them. -/
theorem getD_sort_mem {asort : (UInt32 → UInt32 → Int) → List UInt32 → List UInt32}
    (h : Sorts asort) {times : List UInt32} (hne : times ≠ []) :
    (asort cmpTimes times).getD (times.length / 2) 0 ∈ times := by
  have hpos := List.length_pos_iff.mpr hne
  have hperm := h.perm cmpTimes times
  have hlt : times.length / 2 < (asort cmpTimes times).length := by
    rw [hperm.length_eq]
    omega
  rw [List.getD_eq_getElem _ 0 hlt]
  exact hperm.mem_iff.mp (List.getElem_mem hlt)

/-- **The timestamp rule, and when `check_timestamp` follows it.** Whatever the sort does
with a comparison that is no order, the function tells the blocks that keep the rule
exactly if the block is two hours ahead, or after all the latest times, or after none of
them. -/
theorem checkTimestampBy_iff_rule (s : State D) (timestamp : UInt32) (prev : BlockId) :
    (∀ asort : (UInt32 → UInt32 → Int) → List UInt32 → List UInt32, Sorts asort →
      (checkTimestampBy asort s timestamp prev = true ↔ TimestampRule s timestamp prev)) ↔
    s.now.toNat + 2 * 60 * 60 ≤ timestamp.toNat ∨ (∀ time ∈ latestTimes s prev, time < timestamp) ∨
      ∀ time ∈ latestTimes s prev, timestamp ≤ time := by
  constructor
  · intro hall
    by_contra hnone
    obtain ⟨hahead, hsome⟩ := not_or.mp hnone
    obtain ⟨hlate, hearly⟩ := not_or.mp hsome
    simp only [not_forall, UInt32.not_lt, UInt32.not_le] at hlate hearly
    obtain ⟨late, hlate, hle⟩ := hlate
    obtain ⟨early, hearly, hlt⟩ := hearly
    have hne : latestTimes s prev ≠ [] := List.ne_nil_of_mem hlate
    have hmid : (latestTimes s prev).length / 2 < (latestTimes s prev).length := by
      have hpos := List.length_pos_iff.mpr hne
      omega
    -- one sort puts an early time in the middle, another a late one
    obtain ⟨sort, hsort, hplace⟩ := exists_sorts_placing not_threeWay_cmpTimes hearly hmid
    obtain ⟨sort', hsort', hplace'⟩ := exists_sorts_placing not_threeWay_cmpTimes hlate hmid
    have hyes : checkTimestampBy sort s timestamp prev = true := by
      refine checkTimestampBy_iff.mpr ⟨fun _ => ?_, by omega⟩
      simpa [List.getD_eq_getElem?_getD, hplace] using hlt
    have hno : ¬ checkTimestampBy sort' s timestamp prev = true := by
      intro h
      have hmiddle := (checkTimestampBy_iff.mp h).1 hne
      simp only [List.getD_eq_getElem?_getD, hplace', Option.getD_some] at hmiddle
      exact UInt32.not_lt.mpr hle hmiddle
    exact hno ((hall sort' hsort').mpr ((hall sort hsort).mp hyes))
  · intro hcases asort hsort
    rw [checkTimestampBy_iff]
    constructor
    · rintro ⟨hmiddle, hahead⟩
      refine ⟨fun median hmedian => ?_, hahead⟩
      have hmem := mem_of_medianTime hmedian
      have hne : latestTimes s prev ≠ [] := List.ne_nil_of_mem hmem
      rcases hcases with hlate | hafter | hbefore
      · omega
      · exact hafter median hmem
      · have hle := hbefore _ (getD_sort_mem hsort hne)
        exact absurd (hmiddle hne) (UInt32.not_lt.mpr hle)
    · rintro ⟨hafter, hahead⟩
      refine ⟨fun hne => ?_, hahead⟩
      rcases hcases with hlate | hall | hbefore
      · omega
      · exact hall _ (getD_sort_mem hsort hne)
      · obtain ⟨median, hmedian⟩ := medianTime_isSome hne
        have hle := hbefore median (mem_of_medianTime hmedian)
        exact absurd (hafter median hmedian) (UInt32.not_lt.mpr hle)

-- ---------------------------------------------------------------------------
-- A block that comes too early
-- ---------------------------------------------------------------------------

/-- Two blocks, ten seconds apart. -/
def twoBlocksRun : List (NodeEvent IdealDigest) :=
  let first := lightBlock .zero 1 4 []
  [sampleHeader first, sampleHeader (lightBlock (hashBlock idealCrypto first) 2 8 [])]

/-- The sort that asks whether an element is below the one before leaves the two times as
they are: the block after them may come before the second. -/
theorem checkTimestamp_misses_median :
    ∃ s, NodeReach idealEnv s ∧ latestTimes s 2 = [20, 10] ∧
      Sorts (insertionSorter (α := UInt32)) ∧
      checkTimestampBy insertionSorter s 15 2 = true ∧ ¬ TimestampRule s 15 2 := by
  have hrun : (nodeRun idealEnv sampleNode twoBlocksRun >>= fun s =>
      .ok (decide (latestTimes s 2 = [20, 10]), decide (s.now = 1000))) = .ok (true, true) := by
    decide +kernel
  obtain ⟨s, hs, hchecks⟩ := of_bind_eq_ok hrun
  injection hchecks with hchecks
  simp only [Prod.mk.injEq, decide_eq_true_eq] at hchecks
  obtain ⟨htimes, hnow⟩ := hchecks
  refine ⟨s, nodeReach_sampleNode.run hs, htimes, sorts_insertionSorter, ?_, fun hrule => ?_⟩
  · rw [checkTimestampBy_iff, htimes, hnow]
    decide
  · have hafter := hrule.after 20 (by rw [htimes]; simp [medianTime, List.mergeSort])
    exact absurd hafter (by decide)

end Pettycoin
