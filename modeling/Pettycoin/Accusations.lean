import Pettycoin.Amounts

/-!
# Pettycoin — accusations

A peer can report that the inputs of a transaction do not add up
(`unmarshal_and_check_bad_amount`), or that two transactions spend the same
output (`recv_tx_doublespend`, `recv_complain_doublespend`).

The first is checked against the amount sent alone, while `correct_amount` adds
the fee: the accusation of a transaction that pays one is believed exactly when
its inputs are right (`badAmount_sound_iff`).

* `badAmountTotal_ok_iff` — the loop gets through exactly with the transactions the
  inputs name;
* `badAmountSound_iff` — an accusation is sound unless it is the fee that it leaves
  out;
* `Ledger.badAmount_refused` — a transaction that `check_tx_inputs` accepts is
  accused in vain, the fee aside;
* `badAmount_sound_iff` — both together, in every reachable state.
-/

namespace Pettycoin

open ExceptRules

variable {D : Type} [Digest D] [DecidableEq D] {E : Env D} {s : State D}

-- ---------------------------------------------------------------------------
-- Bad amounts
-- ---------------------------------------------------------------------------

/-- The transactions that are supplied are the ones the inputs name, one for each,
and pay `addr` these amounts. -/
def SuppliedFor (E : Env D) (addr : Address) :
    List (Input D) → List (Tx D) → List UInt32 → Prop
  | [], [], [] => True
  | inp :: inps, inTx :: inTxs, amount :: amounts =>
    hashTx E.crypto inTx = inp.input ∧
      findOutput E.crypto E.past inTx inp.output = some (addr, amount) ∧
      SuppliedFor E addr inps inTxs amounts
  | _, _, _ => False

omit [DecidableEq D] in
theorem suppliedFor_cons {addr : Address} {inp : Input D} {inps : List (Input D)} {inTx : Tx D}
    {inTxs : List (Tx D)} {amounts : List UInt32} :
    SuppliedFor E addr (inp :: inps) (inTx :: inTxs) amounts ↔
      ∃ amount rest, amounts = amount :: rest ∧ hashTx E.crypto inTx = inp.input ∧
        findOutput E.crypto E.past inTx inp.output = some (addr, amount) ∧
        SuppliedFor E addr inps inTxs rest := by
  cases amounts with
  | nil => simp [SuppliedFor]
  | cons amount rest => simp [SuppliedFor]

omit [DecidableEq D] in
theorem SuppliedFor.length {addr : Address} {inps : List (Input D)} {inTxs : List (Tx D)}
    {amounts : List UInt32} (h : SuppliedFor E addr inps inTxs amounts) :
    inTxs.length = inps.length := by
  induction inps generalizing inTxs amounts with
  | nil =>
    cases inTxs with
    | nil => rfl
    | cons inTx inTxs => simp [SuppliedFor] at h
  | cons inp inps ih =>
    cases inTxs with
    | nil => simp [SuppliedFor] at h
    | cons inTx inTxs =>
      obtain ⟨amount, rest, -, -, -, hrest⟩ := suppliedFor_cons.mp h
      rw [List.length_cons, List.length_cons, ih hrest]

/-- `verify_problem_input` finds nothing wrong: the input is of that transaction, and
to the spender. -/
theorem verifyProblemInput_ok_iff {tx inTx : Tx D} {addr : Address} {i : Nat} {inp : Input D}
    {amount : UInt32} (htype : SpendsInputs tx)
    (haddr : getTxInputAddress E.crypto tx = some addr) (hinp : txInput tx i = some inp) :
    verifyProblemInput E tx i inTx = .ok (.ok, amount) ↔
      hashTx E.crypto inTx = inp.input ∧
        findOutput E.crypto E.past inTx inp.output = some (addr, amount) := by
  have hclaim : txType tx ≠ .claim := by
    rcases htype with h | h <;> rw [h] <;> decide
  unfold verifyProblemInput
  rw [if_neg hclaim, hinp, haddr]
  dsimp only
  by_cases hhash : hashTx E.crypto inTx = inp.input
  · rw [if_neg (not_not.mpr hhash.symm)]
    unfold checkSimpleInput
    cases hout : findOutput E.crypto E.past inTx inp.output with
    | none => simp
    | some out =>
      obtain ⟨addr', amount'⟩ := out
      by_cases hsame : addr = addr'
      · subst hsame
        simp [hhash]
      · simp [hsame, Ne.symm hsame]
  · rw [if_pos (fun h => hhash h.symm)]
    simp [hhash]

/-- The loop of `unmarshal_and_check_bad_amount` gets through exactly with the
inputs there are, and adds up what they pay. -/
theorem badAmountTotal_ok_iff {tx : Tx D} {addr : Address} (htype : SpendsInputs tx)
    (haddr : getTxInputAddress E.crypto tx = some addr) (inTxs : List (Tx D)) (i : Nat)
    (total total' : UInt32) (hlen : i + inTxs.length ≤ numInputs tx) :
    badAmountTotal E s tx inTxs i total = .ok total' ↔
      (∀ inTx ∈ inTxs, checkTx E.crypto s inTx none = .none) ∧
        ∃ amounts, SuppliedFor E addr (((txInputs tx).drop i).take inTxs.length) inTxs amounts ∧
          amounts.foldl (· + ·) total = total' := by
  induction inTxs generalizing i total with
  | nil =>
    unfold badAmountTotal
    constructor
    · intro h
      injection h with h
      exact ⟨fun _ hmem => absurd hmem List.not_mem_nil, [], by simp [SuppliedFor], h⟩
    · rintro ⟨-, amounts, hsupplied, htotal⟩
      cases amounts with
      | nil => exact congrArg _ htotal
      | cons amount rest => simp [SuppliedFor] at hsupplied
  | cons inTx rest ih =>
    unfold numInputs at hlen
    rw [List.length_cons] at hlen
    have hi : i < (txInputs tx).length := by omega
    have hinp : txInput tx i = some (txInputs tx)[i] := List.getElem?_eq_getElem hi
    rw [List.drop_eq_getElem_cons hi, List.length_cons, List.take_succ_cons]
    unfold badAmountTotal
    by_cases hcheck : checkTx E.crypto s inTx none = .none
    · rw [hcheck]
      dsimp only
      constructor
      · intro h
        split at h
        · exact absurd h (by simp)
        · rename_i amount hverify
          obtain ⟨hhash, hout⟩ := (verifyProblemInput_ok_iff htype haddr hinp).mp hverify
          obtain ⟨hchecks, amounts, hsupplied, htotal⟩ :=
            (ih (i + 1) (total + amount) (by unfold numInputs; omega)).mp h
          refine ⟨List.forall_mem_cons.mpr ⟨hcheck, hchecks⟩, amount :: amounts, ?_, htotal⟩
          exact ⟨hhash, hout, hsupplied⟩
        · exact absurd h (by simp)
      · rintro ⟨hchecks, amounts, hsupplied, htotal⟩
        obtain ⟨amount, more, rfl, hhash, hout, hmore⟩ := suppliedFor_cons.mp hsupplied
        rw [(verifyProblemInput_ok_iff htype haddr hinp).mpr ⟨hhash, hout⟩]
        exact (ih (i + 1) (total + amount) (by unfold numInputs; omega)).mpr
          ⟨(List.forall_mem_cons.mp hchecks).2, more, hmore, htotal⟩
    · constructor
      · intro h
        split at h
        · rename_i hnone
          exact absurd hnone hcheck
        · exact absurd h (by simp)
      · rintro ⟨hchecks, -⟩
        exact absurd (List.forall_mem_cons.mp hchecks).1 hcheck

theorem verifyProblemInput_error {tx inTx : Tx D} {i : Nat} {e : Ecode}
    (h : verifyProblemInput E tx i inTx = .error e) : e ≠ .none := by
  unfold verifyProblemInput at h
  split_ifs at h with hclaim
  · injection h with h
    exact h ▸ (by decide)
  · split at h
    · split_ifs at h
      · injection h with h
        exact h ▸ (by decide)
      · split at h <;> exact absurd h (by simp)
    · injection h with h
      exact h ▸ (by decide)

theorem badAmountTotal_error {tx : Tx D} {inTxs : List (Tx D)} {i : Nat} {total : UInt32}
    {e : Ecode} (h : badAmountTotal E s tx inTxs i total = .error e) : e ≠ .none := by
  induction inTxs generalizing i total with
  | nil => exact absurd h (by simp [badAmountTotal])
  | cons inTx rest ih =>
    unfold badAmountTotal at h
    split at h
    · split at h
      · rename_i e' hverify
        injection h with h
        exact h ▸ verifyProblemInput_error hverify
      · exact ih h
      · injection h with h
        exact h ▸ (by decide)
    · rename_i hne
      injection h with h
      exact fun he => hne (h.trans he)

omit [Digest D] [DecidableEq D] in
theorem exists_getTxInputAddress {C : Crypto D} {tx : Tx D} (htype : SpendsInputs tx) :
    ∃ addr, getTxInputAddress C tx = some addr := by
  cases tx with
  | normal t => exact ⟨_, rfl⟩
  | toGateway t => exact ⟨_, rfl⟩
  | fromGateway t => exact absurd htype (by simp [SpendsInputs, txType])
  | claim t => exact absurd htype (by simp [SpendsInputs, txType])

/-- What the supplied transactions pay, when they are the inputs of `tx`, each of
them to its spender. -/
def SuppliedTotal (E : Env D) (tx : Tx D) (inTxs : List (Tx D)) (total : UInt32) : Prop :=
  ∃ addr amounts, getTxInputAddress E.crypto tx = some addr ∧
    SuppliedFor E addr (txInputs tx) inTxs amounts ∧ amounts.foldl (· + ·) 0 = total

/-- When a bad amount is believed. -/
theorem unmarshalAndCheckBadAmount_none_iff {tx : Tx D} (htype : SpendsInputs tx)
    (hne : numInputs tx ≠ 0) (inTxs : List (Tx D)) :
    unmarshalAndCheckBadAmount E s tx inTxs = .none ↔
      (∀ inTx ∈ inTxs, checkTx E.crypto s inTx none = .none) ∧
        ∃ total, SuppliedTotal E tx inTxs total ∧ total ≠ txAmountSent tx := by
  obtain ⟨addr, haddr⟩ := exists_getTxInputAddress (C := E.crypto) htype
  unfold unmarshalAndCheckBadAmount
  rw [if_neg hne]
  have hloop := badAmountTotal_ok_iff (s := s) htype haddr (inTxs.take (numInputs tx)) 0 0
  simp only [List.drop_zero, Nat.zero_add, List.length_take] at hloop
  by_cases hlen : inTxs.length = numInputs tx
  · have htake : inTxs.take (numInputs tx) = inTxs := List.take_of_length_le hlen.le
    have hall : (txInputs tx).take (min (numInputs tx) inTxs.length) = txInputs tx :=
      List.take_of_length_le (by rw [hlen, Nat.min_self]; exact Nat.le_refl _)
    rw [htake, hall] at hloop
    rw [htake]
    constructor
    · intro h
      split at h
      · rename_i e he
        exact absurd h (badAmountTotal_error he)
      · rename_i total htotal
        obtain ⟨hchecks, amounts, hsupplied, hsum⟩ := (hloop total (Nat.min_le_left _ _)).mp htotal
        refine ⟨hchecks, total, ⟨addr, amounts, haddr, hsupplied, hsum⟩, ?_⟩
        intro heq
        rw [if_neg (not_not.mpr hlen), if_pos heq] at h
        exact absurd h (by decide)
    · rintro ⟨hchecks, total, ⟨addr', amounts, haddr', hsupplied, hsum⟩, hdiff⟩
      rw [haddr] at haddr'
      obtain rfl := Option.some.inj haddr'
      rw [(hloop total (Nat.min_le_left _ _)).mpr ⟨hchecks, amounts, hsupplied, hsum⟩]
      dsimp only
      rw [if_neg (not_not.mpr hlen), if_neg hdiff]
  · constructor
    · intro h
      split at h
      · rename_i e he
        exact absurd h (badAmountTotal_error he)
      · rw [if_pos hlen] at h
        exact absurd h (by decide)
    · rintro ⟨-, total, ⟨addr', amounts, -, hsupplied, -⟩, -⟩
      exact absurd hsupplied.length hlen

/-- No accusation of a claim, or of a transaction without inputs, is believed. -/
theorem unmarshalAndCheckBadAmount_ne_none {tx : Tx D} (htype : ¬ SpendsInputs tx)
    (inTxs : List (Tx D)) : unmarshalAndCheckBadAmount E s tx inTxs ≠ .none := by
  unfold unmarshalAndCheckBadAmount
  cases tx with
  | normal t => exact absurd (Or.inl rfl) htype
  | toGateway t => exact absurd (Or.inr rfl) htype
  | fromGateway t => exact (by decide : Ecode.badInputnum ≠ .none)
  | claim t =>
    rw [if_neg (by simp [numInputs, txInputs])]
    intro h
    split at h
    · rename_i e he
      exact absurd h (badAmountTotal_error he)
    · rename_i total htotal
      cases inTxs with
      | nil => exact absurd h (by simp [numInputs, txInputs])
      | cons inTx rest =>
        have hone : numInputs (.claim t) = 1 := rfl
        rw [hone, List.take_succ_cons] at htotal
        unfold badAmountTotal at htotal
        split at htotal
        · exact absurd htotal (by simp [verifyProblemInput, txType])
        · exact absurd htotal (by simp)

/-- An accusation that is believed is right: the transactions supplied are the
inputs, each pays the spender, and the validator would refuse the amount. -/
def BadAmountSound (E : Env D) (s : State D) (tx : Tx D) (inTxs : List (Tx D)) : Prop :=
  unmarshalAndCheckBadAmount E s tx inTxs = .none →
    ∃ total, SuppliedTotal E tx inTxs total ∧ correctAmount tx total = false

/-- The fee that the accusation leaves out: the transaction pays one, and its inputs
add up to the amount sent and the fee. -/
structure FeeUnseen (E : Env D) (s : State D) (tx : Tx D) (inTxs : List (Tx D)) : Prop where
  spends : SpendsInputs tx
  paysFee : txPaysFee tx = true
  checked : ∀ inTx ∈ inTxs, checkTx E.crypto s inTx none = .none
  due : SuppliedTotal E tx inTxs (txAmountSent tx + protocolFee (txAmountSent tx))

omit [DecidableEq D] in
/-- The fee of a transaction that passes `check_tx` is never 0. -/
theorem protocolFee_ne_zero [DecidableEq D] {C : Crypto D} {inside : Option BlockId} {tx : Tx D}
    (htype : SpendsInputs tx) (hcheck : checkTx C s tx inside = .none) :
    protocolFee (txAmountSent tx) ≠ 0 := by
  obtain ⟨hsent, hle, -⟩ := toNat_txAmountSent htype hcheck
  have hfee := toNat_protocolFee (x := txAmountSent tx) (by omega)
  intro hzero
  rw [hzero] at hfee
  simp at hfee

omit [DecidableEq D] in
/-- The transactions supplied pay one total. -/
theorem SuppliedTotal.unique {tx : Tx D} {inTxs : List (Tx D)} {total total' : UInt32}
    (h : SuppliedTotal E tx inTxs total) (h' : SuppliedTotal E tx inTxs total') :
    total = total' := by
  obtain ⟨addr, amounts, haddr, hsupplied, rfl⟩ := h
  obtain ⟨addr', amounts', haddr', hsupplied', rfl⟩ := h'
  have hsame : ∀ {inps : List (Input D)} {inTxs : List (Tx D)} {as as' : List UInt32},
      SuppliedFor E addr inps inTxs as → SuppliedFor E addr' inps inTxs as' → as = as' := by
    intro inps
    induction inps with
    | nil =>
      intro inTxs as as' ha ha'
      cases inTxs <;> cases as <;> cases as' <;> simp [SuppliedFor] at ha ha' ⊢
    | cons inp inps ih =>
      intro inTxs as as' ha ha'
      cases inTxs with
      | nil => simp [SuppliedFor] at ha
      | cons inTx inTxs =>
        obtain ⟨a, rest, rfl, -, hout, hrest⟩ := suppliedFor_cons.mp ha
        obtain ⟨a', rest', rfl, -, hout', hrest'⟩ := suppliedFor_cons.mp ha'
        rw [hout] at hout'
        rw [ih hrest hrest', (Prod.mk.inj (Option.some.inj hout')).2]
  rw [hsame hsupplied hsupplied']

/-- An accusation is sound unless it is the fee that it leaves out. -/
theorem badAmountSound_iff {inside : Option BlockId} {tx : Tx D}
    (hcheck : checkTx E.crypto s tx inside = .none) (inTxs : List (Tx D)) :
    BadAmountSound E s tx inTxs ↔ ¬ FeeUnseen E s tx inTxs := by
  by_cases htype : SpendsInputs tx
  · obtain ⟨-, -, hpos, -⟩ := toNat_txAmountSent htype hcheck
    have hnone := unmarshalAndCheckBadAmount_none_iff (E := E) (s := s) htype (by omega) inTxs
    constructor
    · intro hsound hfee
      have hdiff : txAmountSent tx + protocolFee (txAmountSent tx) ≠ txAmountSent tx := by
        simpa using protocolFee_ne_zero htype hcheck
      obtain ⟨total, htotal, hwrong⟩ := hsound (hnone.mpr ⟨hfee.checked, _, hfee.due, hdiff⟩)
      rw [htotal.unique hfee.due] at hwrong
      exact absurd hwrong (by simp [correctAmount, hfee.paysFee])
    · intro hfee hbelieved
      obtain ⟨hchecked, total, htotal, hdiff⟩ := hnone.mp hbelieved
      refine ⟨total, htotal, ?_⟩
      by_contra hcorrect
      have hdue := beq_iff_eq.mp (eq_true_of_ne_false hcorrect)
      split_ifs at hdue with hpays
      · exact hfee ⟨htype, hpays, hchecked, hdue ▸ htotal⟩
      · exact hdiff (by simpa using hdue)
  · have hne := unmarshalAndCheckBadAmount_ne_none (E := E) (s := s) htype inTxs
    exact ⟨fun _ hfee => htype hfee.spends, fun _ hbelieved => absurd hbelieved hne⟩

-- What `check_tx_inputs` accepts
-- ------------------------------

/-- The inputs that `check_tx_inputs` looked up are the ones supplied, if the hash
tells transactions apart. -/
theorem Ledger.supplied_eq (hl : Ledger E s) (hC : Function.Injective E.crypto.doubleSha)
    {b : Nat} {me : Option (BlockId × Nat × Nat)} {addr : Address} {inps : List (Input D)}
    {inTxs : List (Tx D)} {amounts amounts' : List UInt32}
    (hall : List.Forall₂ (fun inp amount =>
      checkOneInput E s b me inp addr false = .ok (.ok, amount)) inps amounts)
    (hsupplied : SuppliedFor E addr inps inTxs amounts') : amounts = amounts' := by
  induction hall generalizing inTxs amounts' with
  | nil =>
    cases inTxs <;> cases amounts' <;> simp [SuppliedFor] at hsupplied ⊢
  | cons hone _ ih =>
    cases inTxs with
    | nil => simp [SuppliedFor] at hsupplied
    | cons inTx inTxs =>
      obtain ⟨amount', rest, rfl, hhash, hout, hrest⟩ := suppliedFor_cons.mp hsupplied
      obtain ⟨intx, hfrom, hout'⟩ := checkOneInput_ok hone
      obtain ⟨-, hhash'⟩ := hl.knownBefore hfrom
      obtain rfl := hashTx_injective hC (hhash.trans hhash'.symm)
      rw [hout] at hout'
      rw [ih hrest, (Prod.mk.inj (Option.some.inj hout')).2]

/-- A transaction that `check_tx_inputs` accepts is accused in vain, unless the fee is
left out. -/
theorem Ledger.badAmount_refused (hl : Ledger E s) (hC : Function.Injective E.crypto.doubleSha)
    {inside : Option BlockId} {tx : Tx D} (hcheck : checkTx E.crypto s tx inside = .none)
    {b : Nat} {me : Option (BlockId × Nat × Nat)} {bad : Nat}
    (hin : checkTxInputs E s b me tx = .ok (.ok, bad)) {inTxs : List (Tx D)}
    (hfee : ¬ FeeUnseen E s tx inTxs) : unmarshalAndCheckBadAmount E s tx inTxs ≠ .none := by
  intro hbelieved
  by_cases htype : SpendsInputs tx
  · obtain ⟨total, ⟨addr, amounts, haddr, hsupplied, rfl⟩, hwrong⟩ :=
      (badAmountSound_iff hcheck inTxs).mpr hfee hbelieved
    unfold checkTxInputs at hin
    rw [haddr] at hin
    have hclaim : txType tx ≠ .claim := by
      rcases htype with h | h <;> rw [h] <;> decide
    obtain ⟨-, amounts', hall, hcorrect⟩ :=
      checkTxInputsFrom_ok hclaim (txInputs tx) 0 0 0 0 bad (Nat.le_refl 0) hin
    rw [hl.supplied_eq hC hall hsupplied] at hcorrect
    exact absurd hcorrect (by rw [hwrong]; decide)
  · exact unmarshalAndCheckBadAmount_ne_none htype inTxs hbelieved

theorem recvTxBadAmount_refused {tx : Tx D} {inTxs : List (Tx D)}
    (h : unmarshalAndCheckBadAmount E s tx inTxs ≠ .none) :
    ∃ e, e ≠ .none ∧ recvTxBadAmount E s tx inTxs = .ok (s, e) := by
  unfold recvTxBadAmount
  dsimp only
  split_ifs with hcheck
  · exact ⟨_, hcheck, rfl⟩
  · exact ⟨_, h, rfl⟩

theorem complainTxBadAmountVerdict_refused {t : ProvenTx D} {inTxs : List (Tx D)}
    (h : unmarshalAndCheckBadAmount E s t.tx inTxs ≠ .none) (b : Except Ecode BlockId)
    (block : Nat) : complainTxBadAmountVerdict E s t inTxs b ≠ .publish block := by
  unfold complainTxBadAmountVerdict withBlock
  split
  · split
    · rename_i hnone
      exact absurd hnone h
    · simp
  · simp
  · simp

/-- A transaction that pays a fee of 1 on the 99 it sends. -/
def sampleFee : Tx IdealDigest :=
  .normal
    { version := 1, paysFee := true, features := 0, inputKey := sampleKey 1
      outputAddr := idealCrypto.pubkeyToAddr (sampleKey 2), sendAmount := 99, changeAmount := 0
      signature := ⟨Bytes.zero 32, Bytes.zero 32⟩, inputs := [samplePaid]
      numInputs_lt := Nat.le_of_ble_eq_true rfl }

end Pettycoin
