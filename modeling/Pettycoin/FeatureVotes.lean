import Pettycoin.Generate
import Mathlib.Algebra.BigOperators.Group.Finset.Piecewise
import Mathlib.Algebra.Order.BigOperators.Group.Finset

/-!
# Pettycoin — what the generator votes for

`add_tx` counts for each of the eight features how many transactions set it, and a bit of
`features_vote` is to be set when at least half of them do. The counts are right
(`UpdatesOf.counts`); but `new_features` starts at zero and bits are only ever cleared, so
that no block votes for anything (`features_voted_iff`).

* `newFeatures_eq_zero` — the loop only ever clears bits;
* `UpdatesOf.tallied` — the counts are right after any updates;
* `features_voted_iff` — when the vote is.
-/

namespace Pettycoin

open ExceptRules

variable {D : Type} [Digest D]

/-- The transaction sets feature `i`. -/
def GenUpdate.asks (update : GenUpdate D) (i : Nat) : Bool := update.features.toNat.testBit i

/-- The working blocks of the generator with the updates added so far, in whatever order
nonces were tried in between. -/
inductive UpdatesOf (C : Crypto D) (args : GenArgs D) :
    List (GenUpdate D) → WorkingBlock D → Prop
  | start {w : WorkingBlock D} (now : UInt32) :
    generateStart C args now = .ok (some w) → UpdatesOf C args [] w
  | add {updates : List (GenUpdate D)} {w w' : WorkingBlock D} (update : GenUpdate D) :
    UpdatesOf C args updates w → w.addTx C update = .ok w' →
    UpdatesOf C args (updates ++ [update]) w'
  | unsolved {updates : List (GenUpdate D)} {w w' : WorkingBlock D} (now : UInt32) :
    UpdatesOf C args updates w → w.solveBlock C now = .ok (w', false) →
    UpdatesOf C args updates w'

/-- How many of the transactions set feature `i`. -/
def votesAsked (updates : List (GenUpdate D)) (i : Nat) : Nat :=
  updates.countP fun update => update.asks i

/-- The counts are of these transactions, and the vote is of at least half of them. -/
structure FeaturesVoted (updates : List (GenUpdate D)) (w : WorkingBlock D) : Prop where
  counts : ∀ i < 8, w.featureCounts[i]?.map UInt32.toNat = some (votesAsked updates i)
  vote : ∀ i < 8, w.hdr.featuresVote.toNat.testBit i = true ↔
    updates.length ≤ 2 * votesAsked updates i

-- ---------------------------------------------------------------------------
-- Bits
-- ---------------------------------------------------------------------------

theorem and_bit_ne_zero_iff (features : UInt32) {i : Nat} (hi : i < 32) :
    features &&& 1 <<< UInt32.ofNat i ≠ 0 ↔ features.toNat.testBit i = true := by
  have hshift : ((1 : UInt32) <<< UInt32.ofNat i).toNat = 2 ^ i := by
    rw [UInt32.toNat_shiftLeft, UInt32.toNat_ofNat_of_lt' (hi.trans (by decide)),
      Nat.mod_eq_of_lt hi]
    show 1 <<< i % 2 ^ 32 = 2 ^ i
    rw [Nat.one_shiftLeft, Nat.mod_eq_of_lt (Nat.pow_lt_pow_right (by decide) hi)]
  rw [ne_eq, ← UInt32.toNat_inj, UInt32.toNat_and, hshift]
  show ¬ features.toNat &&& 2 ^ i = 0 ↔ _
  rw [Nat.and_two_pow]
  cases features.toNat.testBit i with
  | false => simp
  | true => simp

omit [Digest D] in
/-- Clearing bits of zero leaves zero. -/
theorem newFeatures_eq_zero (counts : List UInt32) (numTrans : UInt32) :
    WorkingBlock.newFeatures counts numTrans = 0 := by
  have key : ∀ l : List (Nat × UInt32), l.foldl (fun (features : UInt8) c =>
      if c.2 < numTrans / 2 then features &&& ~~~(1 <<< UInt8.ofNat c.1) else features) 0 = 0 := by
    intro l
    induction l with
    | nil => rfl
    | cons c l ih =>
      rw [List.foldl_cons, UInt8.zero_and, ite_self]
      exact ih
  exact key _

/-- Counting one transaction. -/
theorem countFeatures_getElem? (counts : List UInt32) (features : UInt32) {i : Nat} (hi : i < 32) :
    (WorkingBlock.countFeatures counts features)[i]?
      = counts[i]?.map fun count => if features.toNat.testBit i then count + 1 else count := by
  unfold WorkingBlock.countFeatures
  rw [List.getElem?_mapIdx]
  cases counts[i]? with
  | none => rfl
  | some count =>
    refine congrArg some ?_
    dsimp only
    by_cases hbit : features.toNat.testBit i = true
    · rw [if_pos ((and_bit_ne_zero_iff features hi).mpr hbit), if_pos hbit]
    · rw [if_neg fun h => hbit ((and_bit_ne_zero_iff features hi).mp h), if_neg hbit]

-- ---------------------------------------------------------------------------
-- The updates
-- ---------------------------------------------------------------------------

section

variable {C : Crypto D} {args : GenArgs D} {updates : List (GenUpdate D)} {w w' : WorkingBlock D}
  {update : GenUpdate D}

/-- What an update does to the sizes of the shards, the counts and the vote. -/
theorem of_addTx (h : w.addTx C update = .ok w') :
    w'.shardNums = w.shardNums.modify update.shard.toNat (· + 1) ∧
      w'.featureCounts = WorkingBlock.countFeatures w.featureCounts update.features ∧
      w'.hdr.featuresVote = 0 := by
  unfold WorkingBlock.addTx at h
  obtain ⟨_, -, h⟩ := of_bind_eq_ok h
  obtain ⟨_, -, h⟩ := of_bind_eq_ok h
  obtain ⟨_, -, h⟩ := of_bind_eq_ok h
  obtain ⟨w₁, hmerkle, h⟩ := of_bind_eq_ok h
  obtain rfl := Except.ok.inj h
  unfold WorkingBlock.merkleHashShard at hmerkle
  cases hroot : merkleHashes C ((w.insertHashes update).transHashes[update.shard.toNat]?.getD []) 0
      ((w.insertHashes update).shardNums[update.shard.toNat]?.getD 0).toNat with
  | error fault =>
    rw [hroot] at hmerkle
    exact absurd hmerkle (by simp [Except.mapError])
  | ok merkle =>
    rw [hroot] at hmerkle
    obtain rfl := Except.ok.inj hmerkle
    exact ⟨rfl, rfl, newFeatures_eq_zero _ _⟩

/-- Nonces have nothing to do with it. -/
theorem of_unsolved {now : UInt32} (h : w.solveBlock C now = .ok (w', false)) :
    w'.shardNums = w.shardNums ∧ w'.featureCounts = w.featureCounts ∧
      w'.hdr.featuresVote = w.hdr.featuresVote := by
  obtain ⟨-, rfl⟩ := WorkingBlock.of_solveBlock h
  rw [if_neg (by simp)]
  unfold WorkingBlock.nextNonce
  dsimp only
  split_ifs
  · exact ⟨rfl, rfl, rfl⟩
  · exact ⟨rfl, rfl, rfl⟩
  · exact ⟨rfl, rfl, rfl⟩

/-- The block before any transaction. -/
theorem of_generateStart {now : UInt32} (h : generateStart C args now = .ok (some w)) :
    (∀ i : Nat, w.shardNums[i]?.getD 0 = 0) ∧ w.featureCounts = List.replicate 8 0 ∧
      w.hdr.featuresVote = 0 := by
  unfold generateStart at h
  split_ifs at h
  · exact absurd h (by simp)
  · obtain ⟨w₁, hnew, h⟩ := of_bind_eq_ok h
    obtain rfl := Option.some.inj (Except.ok.inj h)
    obtain ⟨merkles, hlen, hfold, -⟩ := WorkingBlock.merkleHashShards (C := C)
      (w := WorkingBlock.hashPrevTxhashes C (WorkingBlock.blank args now))
      (WorkingBlock.counted_blank now)
      (WorkingBlock.hashPrevTxhashes C (WorkingBlock.blank args now)).numShards
    unfold WorkingBlock.new at hnew
    dsimp only at hnew
    rw [hfold, ok_bind] at hnew
    obtain rfl := Except.ok.inj hnew
    have hzero : ∀ i : Nat,
        (List.replicate (2 ^ args.shardOrder.toNat) (0 : UInt8))[i]?.getD 0 = 0 := by
      intro i
      rw [List.getElem?_replicate]
      split_ifs
      · rfl
      · rfl
    cases hnonce : args.nonce with
    | none => exact ⟨hzero, rfl, rfl⟩
    | some nonce => exact ⟨hzero, rfl, rfl⟩

/-- Values below `n`, each of them `most` times at most. -/
theorem length_le_of_countP {α : Type} (l : List α) (f : α → Nat) {n most : Nat}
    (hf : ∀ x ∈ l, f x < n) (hmost : ∀ i < n, l.countP (fun x => f x == i) ≤ most) :
    l.length ≤ n * most := by
  have hsum : ∀ l : List α, (∀ x ∈ l, f x < n) →
      ∑ i ∈ Finset.range n, l.countP (fun x => f x == i) = l.length := by
    intro l
    induction l with
    | nil => simp
    | cons x l ih =>
      intro hl
      simp only [List.countP_cons, List.length_cons, Finset.sum_add_distrib, beq_iff_eq]
      rw [ih fun y hy => hl y (List.mem_cons_of_mem _ hy), Finset.sum_ite_eq,
        if_pos (Finset.mem_range.mpr (hl x List.mem_cons_self))]
  rw [← hsum l hf]
  refine (Finset.sum_le_card_nsmul _ _ most fun i hi => hmost i (Finset.mem_range.mp hi)).trans ?_
  rw [Finset.card_range]
  exact le_of_eq (Nat.nsmul_eq_mul _ _)

/-- The shards have as many transactions as there were updates of them, and the counts are
as many as set the feature. -/
structure Tallied (updates : List (GenUpdate D)) (w : WorkingBlock D) : Prop where
  shards : ∀ i : Nat, (w.shardNums[i]?.getD 0).toNat
    = updates.countP fun update => update.shard.toNat == i
  counts : ∀ i < 8, w.featureCounts[i]?.map UInt32.toNat = some (votesAsked updates i)
  vote : w.hdr.featuresVote = 0

omit [Digest D] in
/-- There is not room for so many transactions that a count wraps. -/
theorem Tallied.length_lt (h : Tallied updates w) : updates.length < 2 ^ 32 - 1 := by
  have hmost : ∀ i < 2 ^ 16, updates.countP (fun update => update.shard.toNat == i) ≤ 255 := by
    intro i _
    rw [← h.shards i]
    have := (w.shardNums[i]?.getD 0).toNat_lt
    omega
  have hle := length_le_of_countP updates (fun update => update.shard.toNat)
    (fun update _ => update.shard.toNat_lt) hmost
  omega

theorem Tallied.add (h : Tallied updates w) (hadd : w.addTx C update = .ok w') :
    Tallied (updates ++ [update]) w' := by
  obtain ⟨hshards, hcounts, hvote⟩ := of_addTx hadd
  have hroom := (WorkingBlock.fits_of_addTx hadd).room
  have hshard := (WorkingBlock.fits_of_addTx hadd).shard
  refine ⟨fun i => ?_, fun i hi => ?_, hvote⟩
  · rw [hshards, List.countP_append, List.countP_singleton, ← h.shards i]
    by_cases hi : update.shard.toNat = i
    · subst hi
      have hlt : update.shard.toNat < w.shardNums.length := by
        rw [w.shardNums_length]
        exact hshard
      rw [List.getElem?_modify_eq, if_pos (beq_self_eq_true _)]
      rw [List.getElem?_eq_getElem hlt] at hroom ⊢
      show (w.shardNums[update.shard.toNat] + 1).toNat = w.shardNums[update.shard.toNat].toNat + 1
      rw [UInt8.toNat_add]
      exact Nat.mod_eq_of_lt (Nat.succ_lt_succ hroom)
    · rw [List.getElem?_modify_ne _ _ hi, if_neg (by simpa using hi), Nat.add_zero]
  · have hlt := h.length_lt
    have hle : votesAsked updates i ≤ updates.length := List.countP_le_length
    have hi' := h.counts i hi
    have hsum : votesAsked (updates ++ [update]) i
        = votesAsked updates i + if update.features.toNat.testBit i then 1 else 0 := by
      unfold votesAsked
      rw [List.countP_append, List.countP_singleton]
      rfl
    rw [hcounts, countFeatures_getElem? _ _ (by omega), hsum]
    cases hcount : w.featureCounts[i]? with
    | none =>
      rw [hcount] at hi'
      exact absurd hi' (by simp)
    | some count =>
      rw [hcount] at hi'
      have hnat : count.toNat = votesAsked updates i := Option.some.inj hi'
      rw [Option.map_some, Option.map_some]
      split_ifs with hbit
      · rw [UInt32.toNat_add, hnat]
        exact congrArg some (Nat.mod_eq_of_lt (by show votesAsked updates i + 1 < 2 ^ 32; omega))
      · rw [hnat, Nat.add_zero]

/-- **Nothing is lost of what the transactions ask**, but for the vote. -/
theorem UpdatesOf.tallied (h : UpdatesOf C args updates w) : Tallied updates w := by
  induction h with
  | start now hstart =>
    obtain ⟨hshards, hcounts, hvote⟩ := of_generateStart hstart
    refine ⟨fun i => ?_, fun i hi => ?_, hvote⟩
    · rw [hshards i]
      rfl
    · rw [hcounts, List.getElem?_replicate, if_pos hi]
      rfl
  | add update _ hadd ih => exact ih.add hadd
  | unsolved now _ hsolve ih =>
    obtain ⟨hshards, hcounts, hvote⟩ := of_unsolved hsolve
    exact ⟨fun i => by rw [hshards, ih.shards i], fun i hi => by rw [hcounts, ih.counts i hi],
      hvote.trans ih.vote⟩

/-- **The generator votes for what its transactions ask exactly if they ask for nothing**:
after every update the counts are right, and the vote is of what at least half of the
transactions ask if and only if there is no such feature. -/
theorem features_voted_iff (h : UpdatesOf C args updates w) (hadd : w.addTx C update = .ok w') :
    FeaturesVoted (updates ++ [update]) w' ↔
      ∀ i < 8, 2 * votesAsked (updates ++ [update]) i < (updates ++ [update]).length := by
  have ht := h.tallied.add hadd
  have hzero : ∀ i, w'.hdr.featuresVote.toNat.testBit i = false := by
    intro i
    rw [ht.vote]
    exact Nat.zero_testBit i
  constructor
  · intro hv i hi
    have hvote := hv.vote i hi
    rw [hzero i] at hvote
    exact not_le.mp fun hle => absurd (hvote.mpr hle) (by simp)
  · intro hfew
    refine ⟨ht.counts, fun i hi => ?_⟩
    rw [hzero i]
    exact iff_of_false (by simp) (not_le.mpr (hfew i hi))

/-- Three transactions, of which one asks for a feature. -/
def fewVotes : List (GenUpdate (Bytes 32)) :=
  [⟨0, 0, 0, ⟨Bytes.zero 32, Bytes.zero 32⟩⟩, ⟨1, 0, 1, ⟨Bytes.zero 32, Bytes.zero 32⟩⟩,
    ⟨0, 1, 0, ⟨Bytes.zero 32, Bytes.zero 32⟩⟩]

/-- The block after the genesis block holds them in the end, whatever they ask for. -/
theorem features_voted_iff_few : ∃ w w' : WorkingBlock (Bytes 32),
    UpdatesOf zeroEnv.crypto zeroArgs (fewVotes.take 2) w ∧
      w.addTx zeroEnv.crypto ⟨0, 1, 0, ⟨Bytes.zero 32, Bytes.zero 32⟩⟩ = .ok w' ∧
      votesAsked fewVotes 0 = 1 ∧ FeaturesVoted fewVotes w' := by
  have hrun : ((generateStart zeroEnv.crypto zeroArgs 1000).toOption.join.any fun w₀ =>
      (w₀.addTx zeroEnv.crypto ⟨0, 0, 0, ⟨Bytes.zero 32, Bytes.zero 32⟩⟩).toOption.any fun w₁ =>
        (w₁.addTx zeroEnv.crypto ⟨1, 0, 1, ⟨Bytes.zero 32, Bytes.zero 32⟩⟩).toOption.any fun w₂ =>
          (w₂.addTx zeroEnv.crypto ⟨0, 1, 0, ⟨Bytes.zero 32, Bytes.zero 32⟩⟩).toOption.isSome)
        = true := by
    decide +kernel
  obtain ⟨w₀, h₀, hrun⟩ := (Option.any_eq_true _ _).mp hrun
  obtain ⟨w₁, h₁, hrun⟩ := (Option.any_eq_true _ _).mp hrun
  obtain ⟨w₂, h₂, hrun⟩ := (Option.any_eq_true _ _).mp hrun
  obtain ⟨w₃, h₃⟩ := Option.isSome_iff_exists.mp hrun
  have hstart : UpdatesOf zeroEnv.crypto zeroArgs [] w₀ :=
    .start 1000 (eq_ok_of_toOption (Option.join_eq_some_iff.mp h₀))
  have htwo := UpdatesOf.add _ (.add _ hstart (eq_ok_of_toOption h₁)) (eq_ok_of_toOption h₂)
  have hthird := eq_ok_of_toOption h₃
  exact ⟨w₂, w₃, htwo, hthird, by decide, (features_voted_iff htwo hthird).mpr (by decide)⟩

/-- The block after the genesis block, when a transaction with these features is added. -/
theorem updatesOf_zero : ∃ w, UpdatesOf zeroEnv.crypto zeroArgs [] w ∧ ∀ features : UInt32,
    ∃ w', w.addTx zeroEnv.crypto ⟨0, 0, features, ⟨Bytes.zero 32, Bytes.zero 32⟩⟩ = .ok w' := by
  obtain ⟨w, hw, hhashed, hof⟩ := WorkingBlock.new_ok zeroEnv.crypto zeroArgs 1000
  obtain ⟨hhashed', hof'⟩ := WorkingBlock.setNonce_ok hhashed hof zeroArgs.nonce
  have hstart : generateStart zeroEnv.crypto zeroArgs 1000
      = .ok (some (w.setNonce zeroArgs.nonce)) := by
    unfold generateStart
    rw [hw]
    rfl
  have hsize := (of_generateStart hstart).1 0
  refine ⟨_, .start 1000 hstart, fun features => ?_⟩
  have hfits : (w.setNonce zeroArgs.nonce).Fits
      ⟨0, 0, features, ⟨Bytes.zero 32, Bytes.zero 32⟩⟩ := by
    refine ⟨Nat.pow_pos (by decide), ?_, Nat.zero_le _⟩
    show ((w.setNonce zeroArgs.nonce).shardNums[0]?.getD 0).toNat < 255
    rw [hsize]
    decide
  obtain ⟨w', hw', -⟩ := WorkingBlock.addTx_of_fits hhashed' hfits
  exact ⟨w', hw'⟩

/-- With a transaction that sets feature 0 the vote is not right. -/
theorem feature_not_voted : ∃ w w' : WorkingBlock (Bytes 32),
    UpdatesOf zeroEnv.crypto zeroArgs [] w ∧
      w.addTx zeroEnv.crypto ⟨0, 0, 1, ⟨Bytes.zero 32, Bytes.zero 32⟩⟩ = .ok w' ∧
      w'.hdr.featuresVote = 0 ∧
      ¬ FeaturesVoted [⟨0, 0, 1, ⟨Bytes.zero 32, Bytes.zero 32⟩⟩] w' := by
  obtain ⟨w, hw, hadd⟩ := updatesOf_zero
  obtain ⟨w', hw'⟩ := hadd 1
  have hzero : w'.hdr.featuresVote = 0 := (of_addTx hw').2.2
  refine ⟨w, w', hw, hw', hzero, fun hv => ?_⟩
  have hset := (hv.vote 0 (by decide)).mpr (by decide)
  rw [hzero] at hset
  exact absurd hset (by decide)

end

end Pettycoin
