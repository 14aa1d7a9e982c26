import Mathlib.Data.Nat.Digits.Lemmas

/-!
# Numbers in positional notation

Digits with the first digit the most significant. A number does not know how many zeros its
digits begin with; where these count too, digits are changed from one base into another one
with the zeros in front kept (`rebase`): the result is the only row of digits that has the
value and the zeros (`eq_rebase_iff`).

* `padded_ofBig` — filling up with zeros;
* `leadingZeros_rebase` — the zeros in front are kept;
* `eq_rebase_iff` — what the result is;
* `length_rebase_le` — how long it can get.
-/

namespace Positional

variable {b c k n : Nat} {ds es : List Nat}

/-- The value of digits. -/
def ofBig (b : Nat) (ds : List Nat) : Nat := ds.foldl (fun n d => n * b + d) 0

/-- The digits of a number: of zero there are none. -/
def bigDigits (b n : Nat) : List Nat := (Nat.digits b n).reverse

/-- How many zeros come first. -/
def leadingZeros : List Nat → Nat
  | 0 :: ds => leadingZeros ds + 1
  | _ => 0

/-- The digits of a number, with zeros in front to make them `k`. -/
def padded (b k n : Nat) : List Nat :=
  List.replicate (k - (bigDigits b n).length) 0 ++ bigDigits b n

/-- The same number in another base, with as many zeros in front. -/
def rebase (b c : Nat) (ds : List Nat) : List Nat :=
  List.replicate (leadingZeros ds) 0 ++ bigDigits c (ofBig b ds)

-- ---------------------------------------------------------------------------
-- Value and digits
-- ---------------------------------------------------------------------------

theorem ofBig_eq (b : Nat) (ds : List Nat) : ofBig b ds = Nat.ofDigits b ds.reverse := by
  rw [Nat.ofDigits_eq_foldr, List.foldr_reverse, ofBig]
  congr 1
  funext n d
  rw [Nat.cast_id, Nat.add_comm, Nat.mul_comm]

@[simp] theorem ofBig_bigDigits (b n : Nat) : ofBig b (bigDigits b n) = n := by
  rw [ofBig_eq, bigDigits, List.reverse_reverse, Nat.ofDigits_digits]

@[simp] theorem ofBig_zero_cons (b : Nat) (ds : List Nat) : ofBig b (0 :: ds) = ofBig b ds := by
  simp [ofBig]

@[simp] theorem ofBig_replicate_append (b k : Nat) (ds : List Nat) :
    ofBig b (List.replicate k 0 ++ ds) = ofBig b ds := by
  induction k with
  | zero => rfl
  | succ k ih => rw [List.replicate_succ, List.cons_append, ofBig_zero_cons, ih]

theorem lt_of_mem_bigDigits (hb : 1 < b) {d : Nat} (h : d ∈ bigDigits b n) : d < b :=
  Nat.digits_lt_base hb (List.mem_reverse.mp h)

theorem length_bigDigits_le (hb : 1 < b) : (bigDigits b n).length ≤ k ↔ n < b ^ k := by
  rw [bigDigits, List.length_reverse]
  exact Nat.digits_length_le_iff hb n

theorem ofBig_lt (hb : 1 < b) (h : ∀ d ∈ ds, d < b) : ofBig b ds < b ^ ds.length := by
  rw [ofBig_eq, ← List.length_reverse]
  exact Nat.ofDigits_lt_base_pow_length hb fun d hd => h d (List.mem_reverse.mp hd)

/-- The zeros in front and the digits of the value are all there is. -/
theorem replicate_append_bigDigits (hb : 1 < b) (h : ∀ d ∈ ds, d < b) :
    List.replicate (leadingZeros ds) 0 ++ bigDigits b (ofBig b ds) = ds := by
  induction ds with
  | nil => simp [leadingZeros, ofBig, bigDigits]
  | cons d ds ih =>
    cases d with
    | zero =>
      rw [leadingZeros, ofBig_zero_cons, List.replicate_succ, List.cons_append,
        ih fun d hd => h d (List.mem_cons_of_mem _ hd)]
    | succ d =>
      -- the first digit is the last one for `Nat.digits`, and is not zero
      rw [show leadingZeros ((d + 1) :: ds) = 0 from rfl, List.replicate_zero, List.nil_append,
        bigDigits, ofBig_eq, Nat.digits_ofDigits b hb _ (fun d hd => h d (List.mem_reverse.mp hd)),
        List.reverse_reverse]
      intro hne
      simp

-- ---------------------------------------------------------------------------
-- Zeros in front
-- ---------------------------------------------------------------------------

theorem leadingZeros_add_length (hb : 1 < b) (h : ∀ d ∈ ds, d < b) :
    leadingZeros ds + (bigDigits b (ofBig b ds)).length = ds.length := by
  have hlength := congrArg List.length (replicate_append_bigDigits hb h)
  rwa [List.length_append, List.length_replicate] at hlength

theorem ofBig_lt_leadingZeros (hb : 1 < b) (h : ∀ d ∈ ds, d < b) :
    ofBig b ds < b ^ (ds.length - leadingZeros ds) := by
  refine (length_bigDigits_le hb).mp ?_
  have hlength := leadingZeros_add_length hb h
  omega

/-- The digits of a number begin with no zero. -/
theorem leadingZeros_bigDigits (hb : 1 < b) (n : Nat) : leadingZeros (bigDigits b n) = 0 := by
  have hlength : leadingZeros (bigDigits b n) + _ = (bigDigits b n).length :=
    leadingZeros_add_length hb fun d => lt_of_mem_bigDigits hb
  rw [ofBig_bigDigits] at hlength
  omega

theorem leadingZeros_replicate_append (k : Nat) (ds : List Nat) :
    leadingZeros (List.replicate k 0 ++ ds) = k + leadingZeros ds := by
  induction k with
  | zero => simp
  | succ k ih =>
    rw [List.replicate_succ, List.cons_append, leadingZeros, ih]
    omega

-- ---------------------------------------------------------------------------
-- A fixed number of digits
-- ---------------------------------------------------------------------------

@[simp] theorem ofBig_padded (b k n : Nat) : ofBig b (padded b k n) = n := by
  rw [padded, ofBig_replicate_append, ofBig_bigDigits]

theorem lt_of_mem_padded (hb : 1 < b) {d : Nat} (h : d ∈ padded b k n) : d < b := by
  rcases List.mem_append.mp h with h | h
  · rw [(List.mem_replicate.mp h).2]
    omega
  · exact lt_of_mem_bigDigits hb h

/-- Digits are those of their value. -/
theorem padded_ofBig (hb : 1 < b) (h : ∀ d ∈ ds, d < b) : padded b ds.length (ofBig b ds) = ds := by
  have hlength := leadingZeros_add_length hb h
  rw [padded, show ds.length - (bigDigits b (ofBig b ds)).length = leadingZeros ds by omega,
    replicate_append_bigDigits hb h]

-- ---------------------------------------------------------------------------
-- From base to base
-- ---------------------------------------------------------------------------

@[simp] theorem ofBig_rebase (b c : Nat) (ds : List Nat) : ofBig c (rebase b c ds) = ofBig b ds := by
  rw [rebase, ofBig_replicate_append, ofBig_bigDigits]

theorem leadingZeros_rebase (hc : 1 < c) (ds : List Nat) :
    leadingZeros (rebase b c ds) = leadingZeros ds := by
  rw [rebase, leadingZeros_replicate_append, leadingZeros_bigDigits hc, Nat.add_zero]

theorem lt_of_mem_rebase (hc : 1 < c) {d : Nat} (h : d ∈ rebase b c ds) : d < c := by
  rcases List.mem_append.mp h with h | h
  · rw [(List.mem_replicate.mp h).2]
    omega
  · exact lt_of_mem_bigDigits hc h

/-- Value and zeros tell the digits. -/
theorem eq_rebase_iff (hc : 1 < c) (hes : ∀ d ∈ es, d < c) :
    es = rebase b c ds ↔ ofBig c es = ofBig b ds ∧ leadingZeros es = leadingZeros ds := by
  constructor
  · rintro rfl
    exact ⟨ofBig_rebase b c ds, leadingZeros_rebase hc ds⟩
  · rintro ⟨hvalue, hzeros⟩
    rw [rebase, ← hvalue, ← hzeros, replicate_append_bigDigits hc hes]

/-- How many digits there are in the new base: `k` more are enough, if they are for any number
of digits up to that of the old ones. -/
theorem length_rebase_le (hb : 1 < b) (hc : 1 < c) (h : ∀ d ∈ ds, d < b)
    (hk : ∀ j ≤ ds.length, b ^ j ≤ c ^ (j + k)) : (rebase b c ds).length ≤ ds.length + k := by
  have hlength := leadingZeros_add_length hb h
  have hdigits : (bigDigits c (ofBig b ds)).length ≤ ds.length - leadingZeros ds + k :=
    (length_bigDigits_le hc).mpr (Nat.lt_of_lt_of_le (ofBig_lt_leadingZeros hb h)
      (hk _ (Nat.sub_le _ _)))
  rw [rebase, List.length_append, List.length_replicate]
  omega

end Positional
