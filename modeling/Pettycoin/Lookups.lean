import Pettycoin.Claims
import Pettycoin.Amounts

/-!
# Pettycoin — what the lookups find

`txhash_gettx_ancestor` returns the first element it meets in a block at or before
the one asked about. Which one that is depends on the layout of the table, unless
there is only one (`txhashGettxAncestor_eq_some`); whether there is one does not
(`txhashGettxAncestor_eq_none`). With that, the outcome of `check_tx_inputs` is told
where it is the same for every layout: no input is known in full
(`checkTxInputs_unknown`), or all inputs are found and pass (`checkTxInputs_carried`).

What happens in a block that nothing is built on does not change what the lookups
find from any other block (`Beside`).

* `txhashGettxAncestor_eq_some`, `txhashGettxAncestor_eq_none` — what is found, and
  when nothing is;
* `checkTxInputs_unknown`, `checkTxInputs_carried` — the outcomes that do not depend
  on the layout;
* `createRefs_congr` — nor do the refs;
* `Beside.checkTxRefs_eq` — what happens in a block aside.
-/

namespace Pettycoin

open ExceptRules

variable {D : Type} [Digest D] [DecidableEq D] {E : Env D} {s s' : State D} {b b' : Nat}

-- ---------------------------------------------------------------------------
-- txhash_gettx_ancestor
-- ---------------------------------------------------------------------------

/-- A place at or before `b` that `txhash` records under this hash. -/
def Lies (s : State D) (sha : D) (b : BlockId) (place : BlockId × Nat × Nat) : Prop :=
  ∃ te ∈ s.txhash, te.sha = sha ∧ te.loc = .inBlock place.1 place.2.1 place.2.2 ∧
    blockPreceeds s place.1 b = true

omit [Digest D] in
theorem lies_of_lookup {sha : D} {place : BlockId × Nat × Nat}
    (h : txhashGettxAncestor s sha b = some place) : Lies s sha b place := by
  unfold txhashGettxAncestor at h
  obtain ⟨te, hte, hin⟩ := List.exists_of_findSome?_eq_some h
  obtain ⟨hmem, hsha⟩ := List.mem_filter.mp hte
  cases hloc : te.loc with
  | pending tx =>
    rw [hloc] at hin
    exact absurd hin (by simp)
  | inBlock y i j =>
    rw [hloc] at hin
    dsimp only at hin
    split_ifs at hin with hpre
    obtain rfl := Option.some.inj hin
    exact ⟨te, hmem, beq_iff_eq.mp hsha, hloc, hpre⟩

omit [Digest D] in
theorem txhashGettxAncestor_eq_none {sha : D} :
    txhashGettxAncestor s sha b = none ↔ ∀ place, ¬ Lies s sha b place := by
  constructor
  · rintro h ⟨y, i, j⟩ ⟨te, hmem, hsha, hloc, hpre⟩
    unfold txhashGettxAncestor at h
    have hnone := List.findSome?_eq_none_iff.mp h te
      (List.mem_filter.mpr ⟨hmem, beq_iff_eq.mpr hsha⟩)
    rw [hloc] at hnone
    dsimp only at hnone hpre
    rw [if_pos hpre] at hnone
    exact absurd hnone (by simp)
  · intro h
    cases hfind : txhashGettxAncestor s sha b with
    | none => rfl
    | some place => exact absurd (lies_of_lookup hfind) (h place)

omit [Digest D] in
/-- The only place there is, it finds. -/
theorem txhashGettxAncestor_eq_some {sha : D} {place : BlockId × Nat × Nat}
    (h : Lies s sha b place) (honly : ∀ place', Lies s sha b place' → place' = place) :
    txhashGettxAncestor s sha b = some place := by
  cases hfind : txhashGettxAncestor s sha b with
  | none => exact absurd h (txhashGettxAncestor_eq_none.mp hfind place)
  | some place' => rw [honly place' (lies_of_lookup hfind)]

omit [Digest D] in
/-- What it finds depends on the table, and on what comes before `b`. -/
theorem txhashGettxAncestor_congr {sha : D} (htxhash : s'.txhash = s.txhash)
    (hpre : ∀ te ∈ s.txhash, ∀ y i j : Nat, te.loc = .inBlock y i j →
      blockPreceeds s' y b' = blockPreceeds s y b) :
    txhashGettxAncestor s' sha b' = txhashGettxAncestor s sha b := by
  unfold txhashGettxAncestor txhashVals
  rw [htxhash]
  have hmem : ∀ te ∈ s.txhash.filter fun te => te.sha == sha, te ∈ s.txhash := fun te hte =>
    List.mem_of_mem_filter hte
  generalize s.txhash.filter _ = l at hmem ⊢
  induction l with
  | nil => rfl
  | cons te l ih =>
    rw [List.findSome?_cons, List.findSome?_cons,
      ih fun te' hte' => hmem te' (List.mem_cons_of_mem _ hte')]
    cases hloc : te.loc with
    | pending tx => rfl
    | inBlock y i j =>
      dsimp only
      rw [hpre te (hmem te List.mem_cons_self) y i j hloc]

-- ---------------------------------------------------------------------------
-- tx_find_doublespend
-- ---------------------------------------------------------------------------

omit [Digest D] in
/-- No known transaction in a block related to `b` spends the output, but the one at `me`. -/
theorem txFindDoublespend_eq_none {me : Option (BlockId × Nat × Nat)} {inp : Input D} :
    txFindDoublespend s b me inp = none ↔
      ∀ ie ∈ inputhashVals s inp.input inp.output, ∀ te ∈ txhashVals s ie.usedBy,
        ∀ y i j : Nat, te.loc = .inBlock y i j → me = some (y, i, j) ∨
          shardIsTx (s.shardOf y i) j = false ∨
          (blockPreceeds s y b = false ∧ blockPreceeds s b y = false) := by
  unfold txFindDoublespend
  simp only [List.findSome?_eq_none_iff]
  refine forall₂_congr fun ie _ => forall₂_congr fun te _ => ?_
  cases hloc : te.loc with
  | pending tx => simp
  | inBlock y i j =>
    constructor
    · rintro h y' i' j' heq
      obtain ⟨rfl, rfl, rfl⟩ : y = y' ∧ i = i' ∧ j = j' := by simpa using heq
      by_contra hno
      simp only [not_or, Bool.not_eq_false, not_and_or] at hno
      obtain ⟨hme, htx, hpre⟩ := hno
      dsimp only at h
      rw [if_neg hme, if_neg (by rw [htx]; simp),
        if_pos (Bool.or_eq_true_iff.mpr hpre)] at h
      exact absurd h (by simp)
    · intro h
      rcases h y i j rfl with hme | htx | ⟨hbefore, hafter⟩
      · dsimp only
        rw [if_pos hme]
      · dsimp only
        rw [htx]
        simp
      · dsimp only
        rw [hbefore, hafter]
        simp

-- ---------------------------------------------------------------------------
-- One input
-- ---------------------------------------------------------------------------

variable {me me' : Option (BlockId × Nat × Nat)} {inp : Input D} {addr : Address}

/-- An input that is nowhere known in full is unknown. -/
theorem checkOneInput_unknown (isClaim : Bool)
    (h : ∀ y i j : Nat, Lies s inp.input b (y, i, j) → blockGetTx s y i j = none) :
    checkOneInput E s b me inp addr isClaim = .ok (.unknown, 0) := by
  unfold checkOneInput
  cases hfind : txhashGettxAncestor s inp.input b with
  | none => rfl
  | some place =>
    obtain ⟨y, i, j⟩ := place
    dsimp only
    rw [h y i j (lies_of_lookup hfind)]

/-- An input that passes is not spent twice. -/
theorem not_spent_of_checkOneInput {amount : UInt32}
    (h : checkOneInput E s b me inp addr false = .ok (.ok, amount)) :
    txFindDoublespend s b me inp = none := by
  unfold checkOneInput at h
  split at h
  · exact absurd (Except.ok.inj h) (by simp)
  · split at h
    · exact absurd (Except.ok.inj h) (by simp)
    · simp only [Bool.false_eq_true, if_false, ok_bind] at h
      split at h
      · exact absurd (Except.ok.inj h) (by simp)
      · split_ifs at h with hspent
        · exact absurd (Except.ok.inj h) (by simp)
        · simpa using hspent

/-- What it takes to pass. -/
theorem checkOneInput_of_found {y i j : Nat} {intx : Tx D} {amount : UInt32}
    (hfind : txhashGettxAncestor s inp.input b = some (y, i, j))
    (htx : blockGetTx s y i j = some intx)
    (hout : findOutput E.crypto E.past intx inp.output = some (addr, amount))
    (hspent : txFindDoublespend s b me inp = none) :
    checkOneInput E s b me inp addr false = .ok (.ok, amount) := by
  unfold checkOneInput
  rw [hfind]
  dsimp only
  rw [htx]
  dsimp only
  unfold checkSimpleInput
  rw [hout]
  simp [hspent]

/-- No input but that of a claim stops the check. -/
theorem checkOneInput_total : ∃ r, checkOneInput E s b me inp addr false = .ok r := by
  unfold checkOneInput
  split
  · exact ⟨_, rfl⟩
  · split
    · exact ⟨_, rfl⟩
    · simp only [Bool.false_eq_true, if_false, ok_bind]
      split
      · exact ⟨_, rfl⟩
      · split_ifs <;> exact ⟨_, rfl⟩

-- ---------------------------------------------------------------------------
-- All inputs
-- ---------------------------------------------------------------------------

/-- The loop, when every input is unknown: the last one is reported. -/
theorem checkTxInputsFrom_unknown {tx : Tx D} (inps : List (Input D)) (i known : Nat)
    (total : UInt32) (bad : Nat)
    (h : ∀ inp ∈ inps, checkOneInput E s b me inp addr (txType tx = .claim) = .ok (.unknown, 0))
    (hknown : known < i + inps.length) (hbad : bad < i + inps.length) :
    ∃ n < i + inps.length, checkTxInputsFrom E s b me tx addr inps i known total bad
      = .ok (.unknown, n) := by
  induction inps generalizing i bad with
  | nil =>
    refine ⟨bad, hbad, ?_⟩
    unfold checkTxInputsFrom
    rw [List.length_nil, Nat.add_zero] at hknown
    rw [if_pos (Nat.ne_of_lt hknown)]
  | cons inp rest ih =>
    rw [List.length_cons] at hknown hbad
    obtain ⟨n, hn, hrest⟩ := ih (i + 1) i (fun inp' hinp' => h inp' (List.mem_cons_of_mem _ hinp'))
      (by omega) (by omega)
    refine ⟨n, by rw [List.length_cons]; omega, ?_⟩
    unfold checkTxInputsFrom
    rw [h inp List.mem_cons_self]
    exact hrest

/-- **Of a transaction no input of which is known in full**, the inputs are unknown. -/
theorem checkTxInputs_unknown {tx : Tx D} (hne : txInputs tx ≠ [])
    (h : ∀ inp ∈ txInputs tx, ∀ y i j : Nat, Lies s inp.input b (y, i, j) →
      blockGetTx s y i j = none) :
    ∃ n inp, txInput tx n = some inp ∧ checkTxInputs E s b me tx = .ok (.unknown, n) := by
  have hpos : 0 < (txInputs tx).length := List.length_pos_of_ne_nil hne
  obtain ⟨addr, haddr⟩ : ∃ addr, getTxInputAddress E.crypto tx = some addr := by
    cases tx with
    | fromGateway t => exact absurd rfl hne
    | normal t => exact ⟨_, rfl⟩
    | toGateway t => exact ⟨_, rfl⟩
    | claim t => exact ⟨_, rfl⟩
  obtain ⟨n, hn, hcheck⟩ := @checkTxInputsFrom_unknown D _ _ E s b me addr tx (txInputs tx) 0 0 0 0
    (fun inp hinp => checkOneInput_unknown _ (h inp hinp)) (by omega) (by omega)
  have hlt : n < (txInputs tx).length := by omega
  refine ⟨n, (txInputs tx)[n], ?_, ?_⟩
  · exact List.getElem?_eq_getElem (by omega)
  · unfold checkTxInputs
    rw [haddr]
    exact hcheck

/-- No claim passes. -/
theorem not_claim_of_checkTxInputs {tx : Tx D} {n : Nat}
    (hok : checkTxInputs E s b me tx = .ok (.ok, n)) : txType tx ≠ .claim := by
  cases tx with
  | claim t => rcases checkTxInputs_claim hok with hr | hr <;> exact InputEcode.noConfusion hr
  | _ => exact TxType.noConfusion

/-- **A transaction that passes, passes elsewhere** if each of its inputs does. -/
theorem checkTxInputs_carried {tx : Tx D} {n : Nat}
    (h : ∀ inp ∈ txInputs tx, ∀ (addr : Address) (amount : UInt32),
      checkOneInput E s b me inp addr false = .ok (.ok, amount) →
      checkOneInput E s' b' me' inp addr false = .ok (.ok, amount))
    (hok : checkTxInputs E s b me tx = .ok (.ok, n)) :
    checkTxInputs E s' b' me' tx = .ok (.ok, n) := by
  have htype := not_claim_of_checkTxInputs hok
  have key : ∀ (addr : Address) (inps : List (Input D)) (i known : Nat) (total : UInt32)
      (bad : Nat), known ≤ i → (∀ inp ∈ inps, inp ∈ txInputs tx) →
      checkTxInputsFrom E s b me tx addr inps i known total bad = .ok (.ok, n) →
      checkTxInputsFrom E s' b' me' tx addr inps i known total bad = .ok (.ok, n) := by
    intro addr inps
    induction inps with
    | nil => exact fun i known total bad _ _ hok => hok
    | cons inp rest ih =>
      intro i known total bad hle hsub hok
      obtain ⟨-, amounts, hall, -⟩ := checkTxInputsFrom_ok htype _ _ _ _ _ _ hle hok
      obtain ⟨amount, -, hone, -⟩ := List.forall₂_cons_left_iff.mp hall
      have hone' := h inp (hsub inp List.mem_cons_self) addr amount hone
      unfold checkTxInputsFrom at hok ⊢
      rw [decide_eq_false htype] at hok ⊢
      rw [hone] at hok
      rw [hone']
      exact ih _ _ _ _ (by omega) (fun inp' hinp' => hsub inp' (List.mem_cons_of_mem _ hinp')) hok
  unfold checkTxInputs at hok ⊢
  cases haddr : getTxInputAddress E.crypto tx with
  | none =>
    rw [haddr] at hok
    exact hok
  | some addr =>
    rw [haddr] at hok
    exact key addr _ _ _ _ _ (Nat.le_refl 0) (fun _ hinp => hinp) hok

/-- The check returns, if it does not have to look at a claim whose transaction is known. -/
theorem checkTxInputs_total {tx : Tx D}
    (h : txType tx = .claim → ∀ inp ∈ txInputs tx, ∀ addr : Address,
      ∃ r, checkOneInput E s b me inp addr true = .ok r) :
    ∃ r, checkTxInputs E s b me tx = .ok r := by
  have key : ∀ (addr : Address) (inps : List (Input D)) (i known : Nat) (total : UInt32)
      (bad : Nat), (∀ inp ∈ inps, inp ∈ txInputs tx) →
      ∃ r, checkTxInputsFrom E s b me tx addr inps i known total bad = .ok r := by
    intro addr inps
    induction inps with
    | nil =>
      intro i known total bad _
      unfold checkTxInputsFrom
      split_ifs <;> exact ⟨_, rfl⟩
    | cons inp rest ih =>
      intro i known total bad hsub
      have hone : ∃ r, checkOneInput E s b me inp addr (txType tx = .claim) = .ok r := by
        by_cases hclaim : txType tx = .claim
        · rw [decide_eq_true hclaim]
          exact h hclaim inp (hsub inp List.mem_cons_self) addr
        · rw [decide_eq_false hclaim]
          exact checkOneInput_total
      obtain ⟨⟨e, amount⟩, hone⟩ := hone
      have hrest : ∀ inp' ∈ rest, inp' ∈ txInputs tx := fun inp' hinp' =>
        hsub inp' (List.mem_cons_of_mem _ hinp')
      unfold checkTxInputsFrom
      rw [hone]
      cases e with
      | ok => exact ih _ _ _ _ hrest
      | unknown => exact ih _ _ _ _ hrest
      | _ => exact ⟨_, rfl⟩
  unfold checkTxInputs
  split
  · exact ⟨_, rfl⟩
  · exact key _ _ _ _ _ _ fun _ hinp => hinp

-- ---------------------------------------------------------------------------
-- Refs
-- ---------------------------------------------------------------------------

omit [Digest D] in
/-- The ref of an input depends on where it is found, and how far back. -/
theorem resolveInput_congr {inp : Input D} {o o' : UInt32}
    (hfind : txhashGettxAncestor s' inp.input b' = txhashGettxAncestor s inp.input b)
    (hnow : s'.now = s.now)
    (hplace : ∀ y i j : Nat, txhashGettxAncestor s inp.input b = some (y, i, j) →
      (s'.blk y).tailer = (s.blk y).tailer ∧
        (s'.blk b').hdr.depth - (s'.blk y).hdr.depth + o'
          = (s.blk b).hdr.depth - (s.blk y).hdr.depth + o) :
    resolveInput s' b' inp o' = resolveInput s b inp o := by
  unfold resolveInput
  rw [hfind]
  cases hlookup : txhashGettxAncestor s inp.input b with
  | none => rfl
  | some place =>
    obtain ⟨y, i, j⟩ := place
    obtain ⟨htailer, hago⟩ := hplace y i j hlookup
    simp only [htailer, hago, hnow]

omit [Digest D] in
theorem createRefs_congr {tx : Tx D} {o o' : UInt32}
    (h : ∀ inp ∈ txInputs tx, resolveInput s' b' inp o' = resolveInput s b inp o) :
    createRefs s' b' tx o' = createRefs s b tx o := by
  unfold createRefs
  generalize txInputs tx = inps at h ⊢
  induction inps with
  | nil => rw [List.mapM_nil, List.mapM_nil]
  | cons inp rest ih =>
    rw [List.mapM_cons, List.mapM_cons, h inp List.mem_cons_self,
      ih fun inp' hinp' => h inp' (List.mem_cons_of_mem _ hinp')]

-- ---------------------------------------------------------------------------
-- Away from one block
-- ---------------------------------------------------------------------------

/-- The two states agree on all blocks but `b`, on which nothing is built, and on what the hash
tables say of them. -/
structure Beside (b : Nat) (s s' : State D) : Prop where
  leaf : ∀ x : Nat, prevOf s x ≠ some b
  blk : ∀ x : Nat, x ≠ b → s'.blk x = { s.blk x with allKnown := (s'.blk x).allKnown }
  elems : ∀ (sha : D) (y i j : Nat), y ≠ b →
    ((⟨sha, .inBlock y i j⟩ : TxhashElem D) ∈ s'.txhash ↔
      (⟨sha, .inBlock y i j⟩ : TxhashElem D) ∈ s.txhash)

namespace Beside

omit [Digest D] [DecidableEq D] in
theorem prevOf_eq (h : Beside b s s') {x : Nat} (hx : x ≠ b) : prevOf s' x = prevOf s x := by
  unfold prevOf
  rw [h.blk x hx]

omit [Digest D] [DecidableEq D] in
theorem shardOf_eq (h : Beside b s s') {x : Nat} (hx : x ≠ b) (i : Nat) :
    s'.shardOf x i = s.shardOf x i := by
  unfold State.shardOf
  rw [h.blk x hx]

omit [Digest D] [DecidableEq D] in
theorem ne_of_prevOf (h : Beside b s s') {x p : Nat} (hp : prevOf s x = some p) : p ≠ b := by
  rintro rfl
  exact h.leaf x hp

omit [Digest D] [DecidableEq D] in
/-- The block that nothing is built on precedes no other. -/
theorem not_preceeds (h : Beside b s s') {y : Nat} (hy : y ≠ b) : blockPreceeds s b y = false := by
  have key : ∀ n y : Nat, y ≠ b → blockPreceedsFrom s b n y = false := by
    intro n
    induction n with
    | zero =>
      intro y hy
      unfold blockPreceedsFrom
      exact beq_eq_false_iff_ne.mpr (Ne.symm hy)
    | succ n ih =>
      intro y hy
      unfold blockPreceedsFrom
      rw [beq_eq_false_iff_ne.mpr (Ne.symm hy), Bool.false_or]
      cases hp : (s.blk y).prev with
      | none => simp
      | some p => simp [ih p (h.ne_of_prevOf hp)]
  exact key _ y hy

omit [Digest D] [DecidableEq D] in
theorem symm (h : Beside b s s') (hleaf : ∀ x : Nat, prevOf s' x ≠ some b) : Beside b s' s where
  leaf := hleaf
  blk x hx := by rw [h.blk x hx]
  elems sha y i j hy := (h.elems sha y i j hy).symm

omit [Digest D] [DecidableEq D] in
theorem blockPreceeds_eq (h : Beside b s s') {x y : Nat} (hx : x ≠ b) (hy : y ≠ b) :
    blockPreceeds s' x y = blockPreceeds s x y := by
  have hdepth : ∀ z : Nat, z ≠ b → (s'.blk z).depth = (s.blk z).depth := fun z hz => by
    rw [h.blk z hz]
    rfl
  have key : ∀ n y : Nat, y ≠ b → blockPreceedsFrom s' x n y = blockPreceedsFrom s x n y := by
    intro n
    induction n with
    | zero => exact fun y _ => rfl
    | succ n ih =>
      intro y hy
      unfold blockPreceedsFrom
      rw [hdepth x hx, hdepth y hy, show (s'.blk y).prev = (s.blk y).prev from h.prevOf_eq hy]
      cases hp : (s.blk y).prev with
      | none => rfl
      | some p => simp only [ih p (h.ne_of_prevOf hp)]
  unfold blockPreceeds
  rw [hdepth y hy]
  exact key _ y hy

omit [Digest D] [DecidableEq D] in
/-- From another block the lookups find the same places. -/
theorem lies_iff (h : Beside b s s') (hleaf : ∀ x : Nat, prevOf s' x ≠ some b) {sha : D} {y : Nat}
    (hy : y ≠ b) (place : BlockId × Nat × Nat) : Lies s' sha y place ↔ Lies s sha y place := by
  obtain ⟨x, i, j⟩ := place
  have hside : ∀ {s s' : State D}, Beside b s s' → Lies s sha y (x, i, j) →
      Lies s' sha y (x, i, j) := by
    rintro s s' h ⟨te, hmem, rfl, hloc, hpre⟩
    obtain ⟨sha, loc⟩ := te
    obtain rfl : loc = .inBlock x i j := hloc
    have hx : x ≠ b := by
      rintro rfl
      rw [h.not_preceeds hy] at hpre
      exact Bool.false_ne_true hpre
    refine ⟨_, (h.elems sha x i j hx).mpr hmem, rfl, rfl, ?_⟩
    rw [h.blockPreceeds_eq hx hy]
    exact hpre
  exact ⟨hside (h.symm hleaf), hside h⟩

omit [Digest D] [DecidableEq D] in
theorem ne_of_lies (h : Beside b s s') {sha : D} {y x i j : Nat} (hy : y ≠ b)
    (hlies : Lies s sha y (x, i, j)) : x ≠ b := by
  rintro rfl
  obtain ⟨te, -, -, -, hpre⟩ := hlies
  rw [h.not_preceeds hy] at hpre
  exact Bool.false_ne_true hpre

omit [Digest D] [DecidableEq D] in
theorem blockGetTx_eq (h : Beside b s s') {x : Nat} (hx : x ≠ b) (i j : Nat) :
    blockGetTx s' x i j = blockGetTx s x i j := by
  unfold blockGetTx
  rw [h.shardOf_eq hx]

omit [Digest D] [DecidableEq D] in
theorem blockAncestor_eq (h : Beside b s s') {x : Nat} (hx : x ≠ b) (n : Nat) :
    blockAncestor s' x n = blockAncestor s x n ∧ ∀ a : Nat, blockAncestor s x n = some a → a ≠ b := by
  induction n generalizing x with
  | zero =>
    refine ⟨rfl, fun a ha => ?_⟩
    obtain rfl : x = a := Option.some.inj ha
    exact hx
  | succ n ih =>
    unfold blockAncestor
    rw [show (s'.blk x).prev = (s.blk x).prev from h.prevOf_eq hx]
    cases hp : (s.blk x).prev with
    | none => exact ⟨rfl, fun a ha => absurd ha (by simp)⟩
    | some p => exact ih (h.ne_of_prevOf hp)

/-- So the refs of a transaction of another block pass or fail as before. -/
theorem checkTxRefs_eq (h : Beside b s s') {x : Nat} (hx : x ≠ b) (C : Crypto D) (tx : Tx D)
    (refs : List InputRef) : checkTxRefs C s' x tx refs = checkTxRefs C s x tx refs := by
  have hreferred : ∀ ref : InputRef, referredTo C s' x ref = referredTo C s x ref := by
    intro ref
    obtain ⟨hanc, hne⟩ := h.blockAncestor_eq hx ref.blocksAgo.toNat
    unfold referredTo
    rw [hanc]
    cases ha : blockAncestor s x ref.blocksAgo.toNat with
    | none => rfl
    | some a => simp only [Option.map_some, h.shardOf_eq (hne a ha)]
  have hloop : ∀ (l : List (Input D × InputRef)) (i : Nat) (unknown : Option (Nat × BlockId)),
      checkTxRefsFrom C s' x l i unknown = checkTxRefsFrom C s x l i unknown := by
    intro l
    induction l with
    | nil => exact fun i unknown => by cases unknown <;> rfl
    | cons inpRef rest ih =>
      obtain ⟨inp, ref⟩ := inpRef
      intro i unknown
      unfold checkTxRefsFrom
      simp only [hreferred, ih]
  have hcheck : checkRefs s' x refs = checkRefs s x refs := by
    have hone : checkRef s' x = checkRef s x := by
      funext ref
      obtain ⟨hanc, hne⟩ := h.blockAncestor_eq hx ref.blocksAgo.toNat
      unfold checkRef
      rw [hanc]
      cases ha : blockAncestor s x ref.blocksAgo.toNat with
      | none => rfl
      | some a =>
        dsimp only
        rw [h.blk a (hne a ha), h.blk x hx]
        rfl
    unfold checkRefs
    rw [hone]
  unfold checkTxRefs
  rw [hcheck, hloop]

end Beside

end Pettycoin
