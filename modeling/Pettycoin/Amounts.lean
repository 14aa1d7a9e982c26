import Pettycoin.NodeRun
import Pettycoin.Marshal

/-!
# Pettycoin — what a transaction spends

`check_tx_inputs` adds up in 32 bits what `find_output` says of each input. Two
things it does not see: that two inputs name the same output, and that a
gateway transaction has no output of the number `num_outputs`. Otherwise the
amounts of the outputs named are the amount sent, the change and the fee
(`amounts_conserved_iff`).

* `outputsOf_le` — no output of a transaction that passes `check_tx` is above the
  limit;
* `Ledger.conserved` — what is spent is the amount sent, the change and the fee;
* `amounts_not_conserved` — an output named twice is paid out twice;
* `amounts_conserved_iff` — when value is conserved, exactly.
-/

namespace Pettycoin

open ExceptRules

variable {D : Type} [Digest D] [DecidableEq D] {E : Env D} {s : State D} {b : Nat}

-- ---------------------------------------------------------------------------
-- Outputs
-- ---------------------------------------------------------------------------

/-- The outputs of a transaction: to whom, and how much. -/
def outputsOf (C : Crypto D) : Tx D → List (Address × UInt32)
  | .normal t => [(t.outputAddr, t.sendAmount), (C.pubkeyToAddr t.inputKey, t.changeAmount)]
  | .fromGateway t => t.outputs.map fun out => (out.outputAddr, out.sendAmount)
  | .toGateway _ => []
  | .claim t => [(C.pubkeyToAddr t.inputKey, t.amount)]

omit [Digest D] [DecidableEq D] in
theorem length_outputsOf (C : Crypto D) (tx : Tx D) :
    (outputsOf C tx).length = numOutputs tx := by
  cases tx <;> simp [outputsOf, numOutputs]

/-- The output number of a gateway transaction that `find_output` should refuse. -/
def PastPayments (intx : Tx D) (output : UInt16) : Prop :=
  ∃ t, intx = .fromGateway t ∧ output.toNat = t.outputs.length

omit [Digest D] [DecidableEq D] in
/-- Elsewhere `find_output` finds the outputs there are. -/
theorem findOutput_eq_outputsOf {C : Crypto D} {past : TxFromGateway → GatewayPayment}
    {intx : Tx D} {output : UInt16} (h : ¬ PastPayments intx output) :
    findOutput C past intx output = (outputsOf C intx)[output.toNat]? := by
  have hzero : output = 0 ↔ output.toNat = 0 := by rw [← UInt16.toNat_inj]; rfl
  have hone : output = 1 ↔ output.toNat = 1 := by rw [← UInt16.toNat_inj]; rfl
  cases intx with
  | normal t =>
    simp only [findOutput, outputsOf]
    split_ifs with h0 h1
    · rw [hzero.mp h0]
      rfl
    · rw [hone.mp h1]
      rfl
    · rw [hzero] at h0
      rw [hone] at h1
      exact (List.getElem?_eq_none (by simp; omega)).symm
  | fromGateway t =>
    simp only [findOutput, outputsOf]
    have hne : output.toNat ≠ t.outputs.length := fun heq => h ⟨t, rfl, heq⟩
    split_ifs with hlen
    · exact (List.getElem?_eq_none (by simp; omega)).symm
    · have hlt : output.toNat < t.outputs.length := by omega
      unfold gatewayOutput
      simp [List.getElem?_eq_getElem hlt]
  | toGateway t => rfl
  | claim t =>
    simp only [findOutput, outputsOf]
    split_ifs with h0
    · rw [hzero.mp h0]
      rfl
    · rw [hzero] at h0
      exact (List.getElem?_eq_none (by simp; omega)).symm

omit [DecidableEq D] in
/-- A transaction with inputs that passes `check_tx`: the amounts and the number of
inputs are in bounds. -/
theorem wellformed_of_ok [DecidableEq D] {C : Crypto D} {version : UInt8}
    {send change : UInt32} {n : Nat} {tx : Tx D} {key : Pubkey}
    (h : checkTxWithInputsWellformed C version send change n tx key = .none) :
    send ≤ protocolMaxSatoshi ∧ change ≤ protocolMaxSatoshi ∧
      0 < n ∧ n ≤ protocolTxMaxInputs := by
  unfold checkTxWithInputsWellformed at h
  split_ifs at h with hversion hsend hchange hsmall hmany hnone hsign
  exact ⟨UInt32.not_lt.mp hsend, UInt32.not_lt.mp hchange, by omega, by omega⟩

omit [DecidableEq D] in
theorem wellformed_toGateway [DecidableEq D] {C : Crypto D} {t : TxToGateway D}
    (h : checkTxToGatewayBasic C t = .none) :
    checkTxWithInputsWellformed C t.version t.sendAmount t.changeAmount t.inputs.length
      (.toGateway t) t.inputKey = .none := by
  unfold checkTxToGatewayBasic at h
  simp only [acceptGateway, Bool.not_true, Bool.false_eq_true, and_false, if_false] at h
  exact h

omit [Digest D] [DecidableEq D] in
theorem checkPayments_le {shardOrd : UInt8} {theShard : Nat} {outs : List GatewayPayment}
    (h : checkPayments shardOrd theShard outs = .none) :
    ∀ out ∈ outs, out.sendAmount ≤ protocolMaxSatoshi := by
  induction outs with
  | nil => exact fun out hout => absurd hout List.not_mem_nil
  | cons o rest ih =>
    unfold checkPayments at h
    split_ifs at h with hshard hlarge hsmall
    intro out hout
    rcases List.mem_cons.mp hout with rfl | hrest
    · exact UInt32.not_lt.mp hlarge
    · exact ih h out hrest

/-- No output of a transaction that passes `check_tx` is too large. -/
theorem outputsOf_le {C : Crypto D} {intx : Tx D} (hok : TxOk C intx) {out : Address × UInt32}
    (hout : out ∈ outputsOf C intx) : out.2 ≤ protocolMaxSatoshi := by
  have hcheck := hok (newState (genesisBlock Digest.zero Digest.zero (Bytes.zero 13) ⟨0, 0, 0⟩) 0)
  cases intx with
  | normal t =>
    obtain ⟨hsend, hchange, -⟩ := wellformed_of_ok hcheck
    simp only [outputsOf, List.mem_cons, List.not_mem_nil, or_false] at hout
    rcases hout with rfl | rfl
    · exact hsend
    · exact hchange
  | fromGateway t =>
    have hpay : ∃ theShard, checkPayments protocolInitialShardOrder theShard t.outputs = .none := by
      have hgateway : checkTxFromGateway C protocolInitialShardOrder t = .none := hcheck
      unfold checkTxFromGateway at hgateway
      split_ifs at hgateway
      all_goals
        dsimp only at hgateway
        split at hgateway
        · rename_i hpay
          exact ⟨_, hpay⟩
        · rename_i hne
          exact absurd hgateway hne
    obtain ⟨theShard, hpay⟩ := hpay
    obtain ⟨o, ho, rfl⟩ := List.mem_map.mp hout
    exact checkPayments_le hpay o ho
  | toGateway t => exact absurd hout List.not_mem_nil
  | claim t =>
    have hamount : t.amount ≤ protocolMaxSatoshi := by
      have hclaim : checkTxClaim C t = .none := hcheck
      unfold checkTxClaim at hclaim
      split_ifs at hclaim with hversion hlarge hsign
      exact UInt32.not_lt.mp hlarge
    simp only [outputsOf, List.mem_singleton] at hout
    subst hout
    exact hamount

-- ---------------------------------------------------------------------------
-- The loop over the inputs
-- ---------------------------------------------------------------------------

/-- The transaction of this input is known in the ancestry of `b`, at the place
where it is looked up. -/
def SpendsFrom (s : State D) (b : Nat) (inp : Input D) (intx : Tx D) : Prop :=
  ∃ y i j : Nat, txhashGettxAncestor s inp.input b = some (y, i, j) ∧ blockGetTx s y i j = some intx

/-- What an input that passes says. -/
theorem checkOneInput_ok {me : Option (BlockId × Nat × Nat)} {inp : Input D} {addr : Address}
    {amount : UInt32} (h : checkOneInput E s b me inp addr false = .ok (.ok, amount)) :
    ∃ intx, SpendsFrom s b inp intx ∧
      findOutput E.crypto E.past intx inp.output = some (addr, amount) := by
  unfold checkOneInput at h
  split at h
  · injection h with h
    exact absurd h (by simp)
  · rename_i y i j hfound
    split at h
    · injection h with h
      exact absurd h (by simp)
    · rename_i intx htx
      refine ⟨intx, ⟨y, i, j, hfound, htx⟩, ?_⟩
      simp only [Bool.false_eq_true, if_false, ok_bind] at h
      unfold checkSimpleInput at h
      cases hout : findOutput E.crypto E.past intx inp.output with
      | none =>
        rw [hout] at h
        injection h with h
        exact absurd h (by simp)
      | some out =>
        obtain ⟨addr', amount'⟩ := out
        rw [hout] at h
        dsimp only at h
        by_cases haddr : addr = addr'
        · rw [if_pos haddr] at h
          dsimp only at h
          split_ifs at h
          · injection h with h
            exact absurd h (by simp)
          · injection h with h
            injection h with _ hamount
            rw [haddr, hamount]
        · rw [if_neg haddr] at h
          injection h with h
          exact absurd h (by simp)

/-- When the loop finds nothing wrong, every input passed and the amounts add up. -/
theorem checkTxInputsFrom_ok {me : Option (BlockId × Nat × Nat)} {tx : Tx D} {addr : Address}
    (htype : txType tx ≠ .claim) (inps : List (Input D)) (i known : Nat) (total : UInt32)
    (bad bad' : Nat) (hknown : known ≤ i)
    (h : checkTxInputsFrom E s b me tx addr inps i known total bad = .ok (.ok, bad')) :
    known = i ∧ ∃ amounts : List UInt32,
      List.Forall₂ (fun inp amount =>
        checkOneInput E s b me inp addr false = .ok (.ok, amount)) inps amounts ∧
      correctAmount tx (amounts.foldl (· + ·) total) = true := by
  induction inps generalizing i known total bad with
  | nil =>
    unfold checkTxInputsFrom at h
    split_ifs at h with hunknown hamount
    · injection h with h
      exact absurd h (by simp)
    · injection h with h
      exact absurd h (by simp)
    · exact ⟨by omega, [], .nil, by simpa using hamount⟩
  | cons inp rest ih =>
    unfold checkTxInputsFrom at h
    obtain ⟨⟨e, amount⟩, hone, h⟩ := of_bind_eq_ok h
    rw [decide_eq_false htype] at hone
    cases e with
    | ok =>
      obtain ⟨hi, amounts, hall, hcorrect⟩ := ih (i + 1) (known + 1) _ bad (by omega) h
      exact ⟨by omega, amount :: amounts, .cons hone hall, hcorrect⟩
    | unknown =>
      obtain ⟨hi, -⟩ := ih (i + 1) known _ i (by omega) h
      omega
    | bad =>
      injection h with h
      exact absurd h (by simp)
    | badAmount =>
      injection h with h
      exact absurd h (by simp)
    | doublespend =>
      injection h with h
      exact absurd h (by simp)
    | claimBad =>
      injection h with h
      exact absurd h (by simp)

-- ---------------------------------------------------------------------------
-- Sums
-- ---------------------------------------------------------------------------

/-- A sum in 32 bits that stays below `2 ^ 32`. -/
theorem toNat_foldl_add (amounts : List UInt32) (total : UInt32)
    (h : total.toNat + (amounts.map UInt32.toNat).sum < 2 ^ 32) :
    (amounts.foldl (· + ·) total).toNat = total.toNat + (amounts.map UInt32.toNat).sum := by
  induction amounts generalizing total with
  | nil => rfl
  | cons a rest ih =>
    rw [List.map_cons, List.sum_cons] at h ⊢
    have hadd : (total + a).toNat = total.toNat + a.toNat := by
      rw [UInt32.toNat_add]
      exact Nat.mod_eq_of_lt (by omega)
    rw [List.foldl_cons, ih (total + a) (by omega), hadd]
    omega

theorem sum_le_of_forall_le {amounts : List UInt32} {bound : Nat}
    (h : ∀ a ∈ amounts, a.toNat ≤ bound) :
    (amounts.map UInt32.toNat).sum ≤ amounts.length * bound := by
  induction amounts with
  | nil => exact Nat.zero_le _
  | cons a rest ih =>
    have hrest := ih fun x hx => h x (List.mem_cons_of_mem a hx)
    have ha := h a List.mem_cons_self
    rw [List.map_cons, List.sum_cons, List.length_cons, Nat.succ_mul]
    omega

/-- The amount a transaction sends, its change included. -/
def sentAmount : Tx D → Nat
  | .normal t => t.sendAmount.toNat + t.changeAmount.toNat
  | .fromGateway t => (t.outputs.map fun out => out.sendAmount.toNat).sum
  | .toGateway t => t.sendAmount.toNat + t.changeAmount.toNat
  | .claim t => t.amount.toNat

/-- The fee it pays. -/
def feeAmount (tx : Tx D) : Nat := if txPaysFee tx then sentAmount tx * 3 / 1024 + 1 else 0

/-- `PROTOCOL_FEE` does not overflow for the amounts `check_tx` lets through. -/
theorem toNat_protocolFee {x : UInt32} (h : x.toNat ≤ 2 * protocolMaxSatoshi.toNat) :
    (protocolFee x).toNat = x.toNat * 3 / 1024 + 1 := by
  have hmax : protocolMaxSatoshi.toNat = 2 ^ 29 := rfl
  rw [hmax] at h
  unfold protocolFee
  rw [UInt32.toNat_add, UInt32.toNat_div, UInt32.toNat_mul]
  simp only [UInt32.reduceToNat]
  have hthree : x.toNat * 3 % 2 ^ 32 = x.toNat * 3 := Nat.mod_eq_of_lt (by omega)
  rw [hthree]
  exact Nat.mod_eq_of_lt (by omega)

/-- The types that spend inputs for an amount of their own. -/
def SpendsInputs (tx : Tx D) : Prop := txType tx = .normal ∨ txType tx = .toGateway

/-- What a transaction that passes `check_tx` sends does not overflow, and it has a
few inputs. -/
theorem toNat_txAmountSent {C : Crypto D} {inside : Option BlockId} {tx : Tx D}
    (htype : SpendsInputs tx) (hcheck : checkTx C s tx inside = .none) :
    (txAmountSent tx).toNat = sentAmount tx ∧ sentAmount tx ≤ 2 * protocolMaxSatoshi.toNat ∧
      0 < numInputs tx ∧ numInputs tx ≤ protocolTxMaxInputs := by
  have hadd : ∀ x y : UInt32, x ≤ protocolMaxSatoshi → y ≤ protocolMaxSatoshi →
      (x + y).toNat = x.toNat + y.toNat ∧ x.toNat + y.toNat ≤ 2 * protocolMaxSatoshi.toNat := by
    intro x y hx hy
    have hx' := UInt32.le_iff_toNat_le.mp hx
    have hy' := UInt32.le_iff_toNat_le.mp hy
    have hmax : protocolMaxSatoshi.toNat = 2 ^ 29 := rfl
    rw [UInt32.toNat_add]
    omega
  cases tx with
  | normal t =>
    obtain ⟨hsend, hchange, hpos, hfew⟩ := wellformed_of_ok hcheck
    obtain ⟨hsum, hle⟩ := hadd _ _ hsend hchange
    exact ⟨hsum, hle, hpos, hfew⟩
  | toGateway t =>
    obtain ⟨hsend, hchange, hpos, hfew⟩ := wellformed_of_ok (wellformed_toGateway hcheck)
    obtain ⟨hsum, hle⟩ := hadd _ _ hsend hchange
    exact ⟨hsum, hle, hpos, hfew⟩
  | fromGateway t => exact absurd htype (by simp [SpendsInputs, txType])
  | claim t => exact absurd htype (by simp [SpendsInputs, txType])

/-- What `correct_amount` compares with, as a number. -/
theorem toNat_amountDue {C : Crypto D} {inside : Option BlockId} {tx : Tx D}
    (htype : SpendsInputs tx) (hcheck : checkTx C s tx inside = .none) :
    (txAmountSent tx + if txPaysFee tx then protocolFee (txAmountSent tx) else 0).toNat
      = sentAmount tx + feeAmount tx := by
  obtain ⟨hsent, hle, -⟩ := toNat_txAmountSent htype hcheck
  have hmax : protocolMaxSatoshi.toNat = 2 ^ 29 := rfl
  unfold feeAmount
  split_ifs
  · rw [UInt32.toNat_add, toNat_protocolFee (by omega), hsent]
    omega
  · rw [UInt32.toNat_add, hsent]
    simp only [UInt32.reduceToNat]
    omega

-- ---------------------------------------------------------------------------
-- Conservation
-- ---------------------------------------------------------------------------

/-- A transaction known in a block at or before `b`. -/
def KnownBefore (s : State D) (b : Nat) (intx : Tx D) : Prop :=
  ∃ (y i j : Nat) (refs : List InputRef),
    Forest.Anc (prevOf s) y b ∧ (s.shardOf y i).u j = .tx intx refs

/-- The input names an output of a transaction known before `b`, which is to
`addr` and of this amount. -/
def PaidTo (C : Crypto D) (s : State D) (b : Nat) (addr : Address) (inp : Input D)
    (amount : UInt32) : Prop :=
  ∃ intx, KnownBefore s b intx ∧ hashTx C intx = inp.input ∧
    (outputsOf C intx)[inp.output.toNat]? = some (addr, amount)

/-- The inputs name pairwise different outputs to the spender, and their amounts
are the amount sent, the change and the fee. -/
structure Conserved (C : Crypto D) (s : State D) (b : Nat) (tx : Tx D) : Prop where
  distinct : (txInputs tx).Pairwise fun inp inp' => sameOutput inp inp' = false
  sum : ∃ (addr : Address) (amounts : List UInt32), getTxInputAddress C tx = some addr ∧
    List.Forall₂ (PaidTo C s b addr) (txInputs tx) amounts ∧
      (amounts.map UInt32.toNat).sum = sentAmount tx + feeAmount tx

/-- The inputs name pairwise different outputs, none of them one past the payments
of a gateway transaction. -/
structure NamesOutputs (C : Crypto D) (s : State D) (b : Nat) (tx : Tx D) : Prop where
  distinct : (txInputs tx).Pairwise fun inp inp' => sameOutput inp inp' = false
  inRange : ∀ inp ∈ txInputs tx, ∀ intx, KnownBefore s b intx → hashTx C intx = inp.input →
    ¬ PastPayments intx inp.output

omit [Digest D] [DecidableEq D] in
/-- What `block_preceeds` finds is an ancestor. -/
theorem anc_of_blockPreceeds {a : Nat} (h : blockPreceeds s a b = true) :
    Forest.Anc (prevOf s) a b := by
  have hfrom : ∀ n b, blockPreceedsFrom s a n b = true → Forest.Anc (prevOf s) a b := by
    intro n
    induction n with
    | zero =>
      intro b hb
      unfold blockPreceedsFrom at hb
      exact beq_iff_eq.mp hb ▸ Forest.Anc.refl _ _
    | succ n ih =>
      intro b hb
      unfold blockPreceedsFrom at hb
      rcases Bool.or_eq_true_iff.mp hb with heq | hrest
      · exact beq_iff_eq.mp heq ▸ Forest.Anc.refl _ _
      · have hprev := (Bool.and_eq_true_iff.mp hrest).2
        cases hp : (s.blk b).prev with
        | none =>
          rw [hp] at hprev
          exact absurd hprev (by simp)
        | some p =>
          rw [hp] at hprev
          exact (ih p hprev).trans (Forest.Anc.of_parent hp)
  exact hfrom _ b h

/-- The transaction looked up for an input is known before the block, under the
hash that the input names. -/
theorem Ledger.knownBefore (hl : Ledger E s) {inp : Input D} {intx : Tx D}
    (h : SpendsFrom s b inp intx) :
    KnownBefore s b intx ∧ hashTx E.crypto intx = inp.input := by
  obtain ⟨y, i, j, hfound, htx⟩ := h
  unfold txhashGettxAncestor at hfound
  obtain ⟨te, hte, hin⟩ := List.exists_of_findSome?_eq_some hfound
  obtain ⟨hmem, hsha⟩ := List.mem_filter.mp hte
  cases hloc : te.loc with
  | pending tx =>
    rw [hloc] at hin
    exact absurd hin (by simp)
  | inBlock y' i' j' =>
    rw [hloc] at hin
    dsimp only at hin
    split_ifs at hin with hpre
    obtain ⟨rfl, rfl, rfl⟩ : y' = y ∧ i' = i ∧ j' = j := by simpa using hin
    obtain ⟨-, h, hentry, hh⟩ := hl.inBlock te hmem y' i' j' hloc
    unfold blockGetTx txFor at htx
    split at htx
    · rename_i tx refs hu
      obtain rfl : tx = intx := Option.some.inj htx
      rw [entryAt_tx hu] at hentry
      refine ⟨⟨y', i', j', refs, anc_of_blockPreceeds hpre, hu⟩, ?_⟩
      rw [← beq_iff_eq.mp hsha, ← hh, ← Option.some.inj hentry]
      rfl
    · exact absurd htx (by simp)

theorem txOk_of_knownBefore (hl : Ledger E s) {intx : Tx D} (h : KnownBefore s b intx) :
    TxOk E.crypto intx := by
  obtain ⟨y, i, j, refs, -, hu⟩ := h
  exact hl.txOk intx (Or.inl ⟨y, i, j, refs, hu⟩)

-- ---------------------------------------------------------------------------
-- The result
-- ---------------------------------------------------------------------------

/-- Each input that passes names an output there is. -/
theorem Ledger.paidTo (hl : Ledger E s) {me : Option (BlockId × Nat × Nat)} {tx : Tx D}
    {addr : Address} (hnames : NamesOutputs E.crypto s b tx) {inp : Input D}
    (hinp : inp ∈ txInputs tx) {amount : UInt32}
    (h : checkOneInput E s b me inp addr false = .ok (.ok, amount)) :
    PaidTo E.crypto s b addr inp amount ∧ amount.toNat ≤ protocolMaxSatoshi.toNat := by
  obtain ⟨intx, hfrom, hout⟩ := checkOneInput_ok h
  obtain ⟨hknown, hhash⟩ := hl.knownBefore hfrom
  rw [findOutput_eq_outputsOf (hnames.inRange inp hinp intx hknown hhash)] at hout
  refine ⟨⟨intx, hknown, hhash, hout⟩, ?_⟩
  exact UInt32.le_iff_toNat_le.mp
    (outputsOf_le (txOk_of_knownBefore hl hknown) (List.mem_of_getElem? hout))

/-- What relates two lists may depend on where the first comes from. -/
theorem forall₂_of_mem {α β : Type} {R S : α → β → Prop} {T : β → Prop} {l : List α}
    {l' : List β} (h : List.Forall₂ R l l') (hR : ∀ a ∈ l, ∀ b, R a b → S a b ∧ T b) :
    List.Forall₂ S l l' ∧ ∀ b ∈ l', T b := by
  induction h with
  | nil => exact ⟨.nil, fun b hb => absurd hb List.not_mem_nil⟩
  | cons hab _ ih =>
    obtain ⟨hS, hT⟩ := hR _ List.mem_cons_self _ hab
    obtain ⟨hrest, hall⟩ := ih fun a ha => hR a (List.mem_cons_of_mem _ ha)
    refine ⟨.cons hS hrest, fun b hb => ?_⟩
    rcases List.mem_cons.mp hb with rfl | hb
    · exact hT
    · exact hall b hb

/-- The amounts are conserved when the inputs name different outputs. -/
theorem Ledger.conserved (hl : Ledger E s) {me : Option (BlockId × Nat × Nat)}
    {inside : Option BlockId} {tx : Tx D} {bad : Nat} (htype : SpendsInputs tx)
    (hcheck : checkTx E.crypto s tx inside = .none)
    (hin : checkTxInputs E s b me tx = .ok (.ok, bad)) (hnames : NamesOutputs E.crypto s b tx) :
    Conserved E.crypto s b tx := by
  have hnotclaim : txType tx ≠ .claim := by
    rcases htype with h | h <;> rw [h] <;> decide
  obtain ⟨-, -, -, hfew⟩ := toNat_txAmountSent htype hcheck
  unfold numInputs at hfew
  cases haddr : getTxInputAddress E.crypto tx with
  | none =>
    cases tx with
    | fromGateway t => exact absurd htype (by simp [SpendsInputs, txType])
    | normal t => exact absurd haddr (by simp [getTxInputAddress])
    | toGateway t => exact absurd haddr (by simp [getTxInputAddress])
    | claim t => exact absurd haddr (by simp [getTxInputAddress])
  | some addr =>
    unfold checkTxInputs at hin
    rw [haddr] at hin
    obtain ⟨-, amounts, hall, hcorrect⟩ :=
      checkTxInputsFrom_ok hnotclaim (txInputs tx) 0 0 0 0 bad (Nat.le_refl 0) hin
    have hpaid : List.Forall₂ (PaidTo E.crypto s b addr) (txInputs tx) amounts ∧
        ∀ a ∈ amounts, a.toNat ≤ protocolMaxSatoshi.toNat := by
      exact forall₂_of_mem hall fun inp hinp amount hone => hl.paidTo hnames hinp hone
    have hbound := sum_le_of_forall_le hpaid.2
    have hlength := hpaid.1.length_eq
    have hmax : protocolMaxSatoshi.toNat = 2 ^ 29 := rfl
    have hfour : protocolTxMaxInputs = 4 := rfl
    have hsmall : (amounts.map UInt32.toNat).sum ≤ 4 * 2 ^ 29 := by
      rw [hmax] at hbound
      exact hbound.trans (Nat.mul_le_mul_right _ (by omega))
    refine ⟨hnames.distinct, addr, amounts, haddr, hpaid.1, ?_⟩
    unfold correctAmount at hcorrect
    have htotal := congrArg UInt32.toNat (beq_iff_eq.mp hcorrect)
    rw [toNat_amountDue htype hcheck, toNat_foldl_add amounts 0 (by simp; omega)] at htotal
    simpa using htotal

/-- An output that exists is not one past the payments, if the hash tells
transactions apart. -/
theorem namesOutputs_of_conserved {C : Crypto D} (hC : Function.Injective C.doubleSha)
    {tx : Tx D} (h : Conserved C s b tx) : NamesOutputs C s b tx := by
  refine ⟨h.distinct, fun inp hinp intx _ hhash hpast => ?_⟩
  obtain ⟨t, rfl, houtput⟩ := hpast
  obtain ⟨addr, amounts, -, hpaid, -⟩ := h.sum
  obtain ⟨n, hn⟩ := List.mem_iff_getElem?.mp hinp
  have hlt : n < amounts.length := by
    rw [← hpaid.length_eq]
    exact (List.getElem?_eq_some_iff.mp hn).1
  obtain ⟨intx', -, hhash', hout⟩ := (List.forall₂_iff_get.mp hpaid).2 n
    (List.getElem?_eq_some_iff.mp hn).1 hlt
  have hget : (txInputs tx).get ⟨n, (List.getElem?_eq_some_iff.mp hn).1⟩ = inp :=
    (List.getElem?_eq_some_iff.mp hn).2
  rw [hget] at hhash' hout
  have hsame := congrArg numOutputs (hashTx_injective hC (hhash'.trans hhash.symm))
  have hrange := (List.getElem?_eq_some_iff.mp hout).1
  rw [length_outputsOf, hsame] at hrange
  exact absurd hrange (by rw [houtput]; exact Nat.lt_irrefl _)

/-- Both inputs are the payment of 100. -/
def sampleTwice : Tx IdealDigest := sampleSpend 150 50 [samplePaid, samplePaid] (by decide)

/-- The node learns of the first block and of the payment in it. -/
def sampleFirstEvents : List (NodeEvent IdealDigest) :=
  [sampleHeader sampleFirst, samplePacket sampleFirst [(samplePayment, [])] 0 (samplePayment, [])]

/-- The payment is spent once. -/
def sampleOnce : Tx IdealDigest := sampleSpend 60 40 [samplePaid] (by decide)

/-- Then both pass `check_tx_inputs`. -/
theorem exists_sampleFirst : ∃ s, NodeReach idealEnv s ∧
    checkTxInputs idealEnv s 1 none sampleTwice = .ok (.ok, 0) ∧
    checkTxInputs idealEnv s 1 none sampleOnce = .ok (.ok, 0) := by
  have hrun : (nodeRun idealEnv sampleNode sampleFirstEvents >>= fun s =>
      .ok (checkTxInputs idealEnv s 1 none sampleTwice, checkTxInputs idealEnv s 1 none sampleOnce))
        = .ok (.ok (.ok, 0), .ok (.ok, 0)) := by
    decide +kernel
  obtain ⟨s, hs, hchecks⟩ := of_bind_eq_ok hrun
  injection hchecks with hchecks
  injection hchecks with htwice honce
  exact ⟨s, nodeReach_sampleNode.run hs, htwice, honce⟩

/-- A transaction that names one output twice passes the checks, and hands on twice
what it takes. -/
theorem amounts_not_conserved :
    ∃ s, NodeReach idealEnv s ∧ SpendsInputs sampleTwice ∧
      checkTx idealCrypto s sampleTwice none = .none ∧
      checkTxInputs idealEnv s 1 none sampleTwice = .ok (.ok, 0) ∧
      ¬ Conserved idealCrypto s 1 sampleTwice := by
  obtain ⟨s, hreach, hin, -⟩ := exists_sampleFirst
  refine ⟨s, hreach, Or.inl rfl, rfl, hin, fun h => ?_⟩
  have htwice := (List.pairwise_cons.mp h.distinct).1 samplePaid List.mem_cons_self
  exact absurd htwice (by simp [sameOutput])

/-- **Value conservation.** A transaction with inputs that passes `check_tx` and
`check_tx_inputs` at a block conserves value when its inputs name pairwise
different outputs, none one past the payments of a gateway transaction; and, for
a hash without collisions, only then. -/
theorem amounts_conserved_iff (hreach : NodeReach E s) {me : Option (BlockId × Nat × Nat)}
    {inside : Option BlockId} {tx : Tx D} {bad : Nat} (htype : SpendsInputs tx)
    (hcheck : checkTx E.crypto s tx inside = .none)
    (hin : checkTxInputs E s b me tx = .ok (.ok, bad)) :
    (NamesOutputs E.crypto s b tx → Conserved E.crypto s b tx) ∧
    (Function.Injective E.crypto.doubleSha →
      (Conserved E.crypto s b tx ↔ NamesOutputs E.crypto s b tx)) :=
  have hl := (ledgerOk_of_nodeReach hreach).toLedger
  ⟨hl.conserved htype hcheck hin, fun hC =>
    ⟨namesOutputs_of_conserved hC, hl.conserved htype hcheck hin⟩⟩

theorem namesOutputs_sampleOnce (s : State IdealDigest) (b : Nat) :
    NamesOutputs idealCrypto s b sampleOnce where
  distinct := List.pairwise_singleton _ _
  inRange inp hinp intx _ hhash hpast := by
    obtain rfl : inp = samplePaid := List.mem_singleton.mp hinp
    have hsame := congrArg numOutputs (hashTx_injective idealCrypto_injective hhash)
    obtain ⟨t, rfl, hout⟩ := hpast
    exact absurd (hout.trans hsame) (by decide)

/-- A transaction that spends the payment once conserves value. -/
theorem amounts_conserved_iff_once :
    ∃ s, NodeReach idealEnv s ∧ checkTxInputs idealEnv s 1 none sampleOnce = .ok (.ok, 0) ∧
      Conserved idealCrypto s 1 sampleOnce := by
  obtain ⟨s, hreach, -, hin⟩ := exists_sampleFirst
  exact ⟨s, hreach, hin, (amounts_conserved_iff hreach (Or.inl rfl) (rfl : checkTx _ _ _ none = _) hin).1
    (namesOutputs_sampleOnce s 1)⟩

end Pettycoin
