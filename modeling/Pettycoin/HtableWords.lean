import Pettycoin.Htable

/-!
# Pettycoin — the words of the hash table

What the words mean is kept by `ht_add`, `double_table`, `rehash_table` and `update_common`, as long
as every address shows a bit that is not common and not the lowest (`Shows`). It does if the common
bits are those of an address whose highest bit is not common (`First`), and no address has only
bits of another one without the highest of these (`Apart`).

* `entryIsValid_of_bit` — an address with a bit to show is a valid entry;
* `htAdd_eq` — `ht_add` puts an element as `OpenAddressing` does;
* `rehashTable_eq` — `rehash_table` clears the marks;
* `updateCommon_of_elems` — `update_common` leaves the meaning of the slots as it is.
-/

namespace Pettycoin

open ExceptRules OpenAddressing

variable {A : Set Word} {ht ht' : Htable} {t t' l : List Word} {p q e b hash : Word}
  {i k n d : Nat} {rehash : Word → Word}

/-- Words are equal if their bits are. -/
theorem word_ext {x y : Word} (h : ∀ i < 64, x.getLsbD i = y.getLsbD i) : x = y :=
  BitVec.eq_of_getLsbD_eq h

/-- Every bit of a word that is zero. -/
theorem getLsbD_of_eq_zero {x : Word} (h : x = 0) (i : Nat) : x.getLsbD i = false := by
  rw [h]
  exact BitVec.getLsbD_zero

theorem getLsbD_one_eq (i : Nat) : (1 : Word).getLsbD i = decide (i = 0) :=
  (BitVec.getLsbD_one (w := 64) (i := i)).trans (by simp)

theorem lt_of_getLsbD {x : Word} {i : Nat} (h : x.getLsbD i = true) : i < 64 := by
  by_contra hge
  rw [BitVec.getLsbD_of_ge _ _ (Nat.le_of_not_lt hge)] at h
  cases h

theorem entryIsValid_iff {e : Word} : entryIsValid e = true ↔ e ≠ 0 ∧ e ≠ 1 := by
  unfold entryIsValid
  rw [decide_eq_true_eq]
  constructor
  · intro h
    constructor <;> rintro rfl <;> exact absurd h (by decide)
  · rintro ⟨h0, h1⟩
    rw [BitVec.lt_def]
    have h0' : e.toNat ≠ 0 := fun h => h0 (BitVec.eq_of_toNat_eq h)
    have h1' : e.toNat ≠ 1 := fun h => h1 (BitVec.eq_of_toNat_eq h)
    show 1 < e.toNat
    omega

/-- A word that has a bit besides the lowest. -/
theorem entryIsValid_of_bit {e : Word} {i : Nat} (hi : i ≠ 0) (hbit : e.getLsbD i = true) :
    entryIsValid e = true := by
  refine entryIsValid_iff.mpr ⟨fun h0 => ?_, fun h1 => ?_⟩
  · rw [h0, getLsbD_of_eq_zero rfl] at hbit
    cases hbit
  · rw [h1, getLsbD_one_eq, decide_eq_false hi] at hbit
    cases hbit

namespace Htable

theorem getRawPtr_makeHval (hp : p &&& ht.commonMask = ht.commonBits)
    (hb : b &&& ~~~ht.commonMask = 0) : ht.getRawPtr (ht.makeHval p b) = p := by
  unfold getRawPtr makeHval
  rw [← hp]
  refine word_ext fun i hi => ?_
  have hbi := getLsbD_of_eq_zero hb i
  simp only [BitVec.getLsbD_and, BitVec.getLsbD_or, BitVec.getLsbD_not, hi, decide_true,
    Bool.true_and] at hbi ⊢
  cases hm : ht.commonMask.getLsbD i <;> cases hx : p.getLsbD i <;> simp_all

theorem getExtraPtrBits_makeHval (hb : b &&& ~~~ht.commonMask = 0) :
    ht.getExtraPtrBits (ht.makeHval p b) = b := by
  unfold getExtraPtrBits makeHval
  refine word_ext fun i hi => ?_
  have hbi := getLsbD_of_eq_zero hb i
  simp only [BitVec.getLsbD_and, BitVec.getLsbD_or, BitVec.getLsbD_not, hi, decide_true,
    Bool.true_and] at hbi ⊢
  cases hm : ht.commonMask.getLsbD i <;> cases hx : b.getLsbD i <;> simp_all

/-- An address that shows a bit besides the lowest has a valid entry. -/
theorem entryIsValid_makeHval {i : Nat} (hi : i ≠ 0) (hmask : ht.commonMask.getLsbD i = false)
    (hp : p.getLsbD i = true) : entryIsValid (ht.makeHval p b) = true := by
  refine entryIsValid_of_bit hi ?_
  unfold makeHval
  rw [BitVec.getLsbD_or, BitVec.getLsbD_and, BitVec.getLsbD_not, hmask, hp,
    decide_eq_true (lt_of_getLsbD hp)]
  rfl

/-- The hash leaves the pointer bits and the perfect bit alone. -/
theorem getHashPtrBits_sub (hash : Word) : ht.getHashPtrBits hash &&& ~~~ht.commonMask = 0 := by
  unfold getHashPtrBits
  refine word_ext fun i hi => ?_
  simp only [BitVec.getLsbD_and, BitVec.getLsbD_not, hi, decide_true, Bool.true_and]
  cases ht.commonMask.getLsbD i <;> simp

theorem getHashPtrBits_low (hash : Word) (hperfect : ht.perfectBit = 1) :
    (ht.getHashPtrBits hash).getLsbD 0 = false := by
  unfold getHashPtrBits
  rw [hperfect]
  simp only [BitVec.getLsbD_and, BitVec.getLsbD_not]
  simp

/-- What a slot means. -/
def meaning (ht : Htable) (e : Word) : Cell Word :=
  if e = 0 then .empty else if e = 1 then .deleted else .used (ht.getRawPtr e)

/-- Where an address belongs. -/
def homeOf (rehash : Word → Word) (p : Word) : Nat := (rehash p).toNat

/-- The table of `OpenAddressing` that the words are. -/
def slots (ht : Htable) (t : List Word) : List (Cell Word) := t.map ht.meaning

/-- An address that can be told from the marks: it has the common bits, and one that is not
left out. -/
def Shows (ht : Htable) (p : Word) : Prop :=
  p &&& ht.commonMask = ht.commonBits ∧
    ∃ i, i ≠ 0 ∧ ht.commonMask.getLsbD i = false ∧ p.getLsbD i = true

/-- The words of the table are as they should be: the bits that are not the address's are those
of its hash, and the perfect bit is set at home. -/
structure Sound (rehash : Word → Word) (ht : Htable) (t : List Word) : Prop where
  table : ht.table = some t
  length : t.length = 2 ^ ht.bits
  perfect : ht.perfectBit = 1
  low : ht.commonMask.getLsbD 0 = true
  even : ht.commonBits.getLsbD 0 = false
  common : ht.commonBits &&& ~~~ht.commonMask = 0
  extra : ∀ k e, t[k]? = some e → entryIsValid e = true →
    ht.getExtraPtrBits e = ht.getHashPtrBits (rehash (ht.getRawPtr e)) |||
      if ht.hashBucket (rehash (ht.getRawPtr e)) = k then 1 else 0

theorem hashBucket_eq (h : Word) : ht.hashBucket h = h.toNat % 2 ^ ht.bits :=
  Nat.and_two_pow_sub_one_eq_mod ..

theorem nextOff_eq (off : Nat) : ht.nextOff off = (off + 1) % 2 ^ ht.bits :=
  Nat.and_two_pow_sub_one_eq_mod ..

theorem nextOff_mod (off : Nat) : ht.nextOff (off % 2 ^ ht.bits) = (off + 1) % 2 ^ ht.bits := by
  rw [nextOff_eq, Nat.mod_add_mod]

theorem slot_eq (h : ht.table = some t) (hk : t[k]? = some e) : ht.slot k = .ok e := by
  unfold slot
  rw [h, Option.getD_some, hk]

theorem put_eq (h : ht.table = some t) (hk : k < t.length) (e : Word) :
    ht.put k e = .ok { ht with table := some (t.set k e) } := by
  unfold put
  rw [h]
  exact if_pos hk

theorem meaning_of_valid (h : entryIsValid e = true) : ht.meaning e = .used (ht.getRawPtr e) := by
  obtain ⟨h0, h1⟩ := entryIsValid_iff.mp h
  unfold meaning
  rw [if_neg h0, if_neg h1]

/-- A mark means the same in every table. -/
theorem meaning_of_not_valid (h : entryIsValid e = false) : ht'.meaning e = ht.meaning e := by
  unfold meaning
  by_cases h0 : e = 0
  · rw [if_pos h0, if_pos h0]
  · by_cases h1 : e = 1
    · rw [if_neg h0, if_neg h0, if_pos h1, if_pos h1]
    · rw [entryIsValid_iff.mpr ⟨h0, h1⟩] at h
      cases h

theorem elem_meaning_eq_none (h : entryIsValid e = false) : (ht.meaning e).elem = none := by
  unfold meaning
  split_ifs with h0 h1
  · rfl
  · rfl
  · rw [entryIsValid_iff.mpr ⟨h0, h1⟩] at h
    cases h

theorem meaning_eq_used (h : ht.meaning e = .used p) :
    entryIsValid e = true ∧ ht.getRawPtr e = p := by
  unfold meaning at h
  split_ifs at h with h0 h1
  exact ⟨entryIsValid_iff.mpr ⟨h0, h1⟩, Cell.used.inj h⟩

theorem meaning_eq_empty : ht.meaning e = .empty ↔ e = 0 := by
  unfold meaning
  split_ifs with h0 h1
  · exact ⟨fun _ => h0, fun _ => rfl⟩
  · exact ⟨by rintro ⟨⟩, fun h => absurd h h0⟩
  · exact ⟨by rintro ⟨⟩, fun h => absurd h h0⟩

theorem length_slots : (ht.slots t).length = t.length := List.length_map ..

theorem getElem?_slots (hk : t[k]? = some e) : (ht.slots t)[k]? = some (ht.meaning e) := by
  rw [slots, List.getElem?_map, hk, Option.map_some]

/-- The word behind the slot ahead. -/
theorem exists_word (ht : Htable) (hpos : 0 < t.length) (h d : Nat) :
    ∃ e, t[(h + d) % t.length]? = some e ∧ ahead (ht.slots t) h d = ht.meaning e := by
  have hlt := Nat.mod_lt (h + d) hpos
  refine ⟨_, List.getElem?_eq_getElem hlt, ?_⟩
  rw [ahead, length_slots, List.getD_eq_getElem?_getD,
    getElem?_slots (List.getElem?_eq_getElem hlt)]
  rfl

theorem slots_set (e : Word) : ht.slots (t.set k e) = (ht.slots t).set k (ht.meaning e) :=
  List.map_set ..

-- ---------------------------------------------------------------------------
-- Adding
-- ---------------------------------------------------------------------------

/-- The loop comes to the first slot that is free. -/
theorem htAddLoop_eq (htable : ht.table = some t) (hlen : t.length = 2 ^ ht.bits)
    (hfree : ∃ s ∈ ht.slots t, s.elem = none) (h : Nat) (perfect : Word) :
    ∀ (fuel i : Nat), i ≤ firstFree (ht.slots t) h → firstFree (ht.slots t) h - i < fuel →
      htAddLoop ht fuel ((h + i) % 2 ^ ht.bits) perfect =
        .ok ((h + firstFree (ht.slots t) h) % 2 ^ ht.bits,
          if i = firstFree (ht.slots t) h then perfect else 0)
  | 0, i, _, hlt => absurd hlt (Nat.not_lt_zero _)
  | fuel + 1, i, hle, hlt => by
    have hpos : 0 < t.length := by
      rw [hlen]
      exact Nat.two_pow_pos _
    obtain ⟨e, he, hahead⟩ := exists_word ht hpos h i
    rw [hlen] at he
    rw [htAddLoop, slot_eq htable he, ok_bind]
    by_cases hat : i = firstFree (ht.slots t) h
    · have hnone := ahead_firstFree (h := h) hfree
      rw [← hat, hahead] at hnone
      have hinvalid : entryIsValid e = false := by
        cases hv : entryIsValid e with
        | false => rfl
        | true =>
          rw [meaning_of_valid hv] at hnone
          cases hnone
      rw [hinvalid, if_neg Bool.false_ne_true, if_pos hat, hat]
    · obtain ⟨p, hp⟩ := elem_of_lt_firstFree (Nat.lt_of_le_of_ne hle hat)
      rw [hahead] at hp
      rw [(meaning_eq_used hp).1, if_pos rfl, nextOff_mod, Nat.add_assoc,
        htAddLoop_eq htable hlen hfree h 0 fuel (i + 1) (by omega) (by omega), if_neg hat, ite_self]

/-- What is put in place of the common bits. -/
theorem hashBits_sub (hlow : ht.commonMask.getLsbD 0 = true) (hash : Word) (c : Prop)
    [Decidable c] :
    (ht.getHashPtrBits hash ||| if c then (1 : Word) else 0) &&& ~~~ht.commonMask = 0 := by
  refine word_ext fun i hi => ?_
  have hsub : ht.getHashPtrBits hash &&& ~~~ht.commonMask = 0 := getHashPtrBits_sub hash
  have hhash := getLsbD_of_eq_zero hsub i
  simp only [BitVec.getLsbD_and, BitVec.getLsbD_or, BitVec.getLsbD_not, hi, decide_true,
    Bool.true_and] at hhash ⊢
  rw [Bool.and_or_distrib_right, hhash, Bool.false_or, getLsbD_of_eq_zero rfl]
  split_ifs
  · by_cases hi0 : i = 0
    · rw [hi0, hlow, Bool.not_true, Bool.and_false]
    · have hone := (getLsbD_one_eq i).trans (decide_eq_false hi0)
      rw [hone, Bool.false_and]
  · rw [getLsbD_of_eq_zero rfl, Bool.false_and]

/-- `ht_add` puts the address where the table of `OpenAddressing` does. -/
theorem htAdd_eq (hs : Sound rehash ht t) (hp : Shows ht p)
    (hfree : ∃ s ∈ ht.slots t, s.elem = none) :
    ∃ t', htAdd ht p (rehash p) = .ok { ht with table := some t' } ∧
      Sound rehash { ht with table := some t' } t' ∧
      ht.slots t' = OpenAddressing.insert (homeOf rehash) (ht.slots t) p := by
  obtain ⟨hcommon, j, hj, hmask, hbit⟩ := hp
  have hlt := firstFree_lt (h := homeOf rehash p) hfree
  rw [length_slots] at hlt
  have hpos : 0 < t.length := Nat.lt_of_le_of_lt (Nat.zero_le _) hlt
  have hbucket : ht.hashBucket (rehash p) = (homeOf rehash p + 0) % 2 ^ ht.bits := hashBucket_eq _
  have hloop := htAddLoop_eq hs.table hs.length hfree (homeOf rehash p) ht.perfectBit
    (2 ^ ht.bits) 0 (Nat.zero_le _) (by rw [Nat.sub_zero, ← hs.length]; exact hlt)
  generalize hf : firstFree (ht.slots t) (homeOf rehash p) = f at hlt hloop
  generalize hk : (homeOf rehash p + f) % 2 ^ ht.bits = k at hloop
  have hklt : k < t.length := by
    rw [← hk, hs.length]
    exact Nat.mod_lt _ (Nat.two_pow_pos _)
  -- it is perfect exactly at home
  have hhome : (if 0 = f then ht.perfectBit else 0) =
      if ht.hashBucket (rehash p) = k then (1 : Word) else 0 := by
    rw [hs.perfect, hbucket, ← hk]
    by_cases h0 : 0 = f
    · rw [if_pos h0, if_pos (by rw [h0])]
    · rw [if_neg h0, if_neg fun hmod => h0 (eq_of_mod_eq (by omega) (hs.length ▸ hlt) hmod)]
  obtain ⟨b, hb⟩ : ∃ b, b = ht.getHashPtrBits (rehash p) |||
      if ht.hashBucket (rehash p) = k then (1 : Word) else 0 := ⟨_, rfl⟩
  have hsub : b &&& ~~~ht.commonMask = 0 := by
    rw [hb]
    exact hashBits_sub hs.low (rehash p) _
  have hvalid := entryIsValid_makeHval (b := b) hj hmask hbit
  have hraw := getRawPtr_makeHval hcommon hsub
  refine ⟨t.set k (ht.makeHval p b), ?_, ?_, ?_⟩
  · rw [htAdd, hbucket, hloop, ok_bind]
    dsimp only
    rw [hhome, ← hb, put_eq hs.table hklt]
  · refine ⟨rfl, (List.length_set ..).trans hs.length, hs.perfect, hs.low, hs.even, hs.common,
      fun i e hi he => ?_⟩
    rw [List.getElem?_set] at hi
    by_cases hik : k = i
    · rw [if_pos hik, if_pos hklt] at hi
      obtain rfl := Option.some.inj hi
      show ht.getExtraPtrBits (ht.makeHval p b) =
        ht.getHashPtrBits (rehash (ht.getRawPtr (ht.makeHval p b))) |||
          if ht.hashBucket (rehash (ht.getRawPtr (ht.makeHval p b))) = i then 1 else 0
      rw [hraw, ← hik, ← hb]
      exact getExtraPtrBits_makeHval hsub
    · rw [if_neg hik] at hi
      exact hs.extra i e hi he
  · rw [slots_set, meaning_of_valid hvalid, hraw, OpenAddressing.insert, length_slots, hs.length,
      hf, hk]

-- ---------------------------------------------------------------------------
-- Doubling
-- ---------------------------------------------------------------------------

/-- The entries of the old table are put into the new one. -/
theorem foldlM_htAdd (ht : Htable) (l : List Word) :
    ∀ {t : List Word}, Sound rehash { ht with table := some t } t →
    Findable (homeOf rehash) (ht.slots t) → (∀ s ∈ ht.slots t, s ≠ .deleted) →
    (∀ q ∈ held (ht.slots l), Shows ht q) →
    (held (ht.slots t)).length + (held (ht.slots l)).length < t.length →
    ∃ t', l.foldlM (fun (new : Htable) e =>
          if entryIsValid e then htAdd new (new.getRawPtr e) (rehash (new.getRawPtr e)) else .ok new)
        { ht with table := some t } = .ok { ht with table := some t' } ∧
      Sound rehash { ht with table := some t' } t' ∧ Findable (homeOf rehash) (ht.slots t') ∧
      (∀ s ∈ ht.slots t', s ≠ .deleted) ∧
      (held (ht.slots t')).Perm (held (ht.slots t) ++ held (ht.slots l)) := by
  induction l with
  | nil =>
    intro t hs hp hclean _ _
    refine ⟨t, rfl, hs, hp, hclean, ?_⟩
    rw [show held (ht.slots []) = [] from rfl, List.append_nil]
  | cons e l ih =>
    intro t hs hp hclean hshows hroom
    rw [List.foldlM_cons]
    cases hvalid : entryIsValid e with
    | false =>
      have hnone : (ht.meaning e).elem = none := elem_meaning_eq_none hvalid
      have hheld : held (ht.slots (e :: l)) = held (ht.slots l) := List.filterMap_cons_none hnone
      rw [hheld] at hshows hroom ⊢
      rw [if_neg Bool.false_ne_true, ok_bind]
      exact ih hs hp hclean hshows hroom
    | true =>
      have hsome : (ht.meaning e).elem = some (ht.getRawPtr e) := by
        rw [meaning_of_valid hvalid]
        rfl
      have hheld : held (ht.slots (e :: l)) = ht.getRawPtr e :: held (ht.slots l) :=
        List.filterMap_cons_some hsome
      rw [hheld] at hshows hroom ⊢
      rw [List.length_cons] at hroom
      have hfree : ∃ s ∈ ht.slots t, s.elem = none :=
        free_of_occupied_lt (by rw [occupied_eq_length_held hclean, length_slots]; omega)
      obtain ⟨t₁, hadd, hs₁, hslots⟩ := htAdd_eq hs (hshows _ List.mem_cons_self) hfree
      change ht.slots t₁ =
        OpenAddressing.insert (homeOf rehash) (ht.slots t) (ht.getRawPtr e) at hslots
      have hperm := held_insert hfree (homeOf rehash) (ht.getRawPtr e)
      rw [← hslots] at hperm
      have hlen := hperm.length_eq
      rw [List.length_cons] at hlen
      have hsize : t₁.length = t.length := hs₁.length.trans hs.length.symm
      obtain ⟨t', hfold, hs', hp', hclean', hperm'⟩ := ih hs₁
        (hslots ▸ findable_insert hfree hp) (hslots ▸ clean_insert hclean)
        (fun q hq => hshows q (List.mem_cons_of_mem _ hq)) (by rw [hlen, hsize]; omega)
      refine ⟨t', ?_, hs', hp', hclean', hperm'.trans ?_⟩
      · rw [if_pos rfl]
        change (htAdd { ht with table := some t } (ht.getRawPtr e) (rehash (ht.getRawPtr e)) >>= _) = _
        rw [hadd, ok_bind]
        exact hfold
      · exact (hperm.append_right _).trans List.perm_middle.symm

-- ---------------------------------------------------------------------------
-- Clearing the marks
-- ---------------------------------------------------------------------------

/-- An entry without its perfect bit is not at home. -/
theorem perfect_of_extra (hs : Sound rehash ht t) (hk : t[k]? = some e)
    (hvalid : entryIsValid e = true) :
    e &&& ht.perfectBit = 0 ↔ ht.hashBucket (rehash (ht.getRawPtr e)) ≠ k := by
  have hextra := hs.extra k e hk hvalid
  have hbit : e.getLsbD 0 =
      if ht.hashBucket (rehash (ht.getRawPtr e)) = k then true else false := by
    have h0 := congrArg (·.getLsbD 0) hextra
    simp only [getExtraPtrBits, BitVec.getLsbD_and, BitVec.getLsbD_or, hs.low, Bool.and_true,
      getHashPtrBits_low _ hs.perfect, Bool.false_or] at h0
    rw [h0]
    split_ifs
    · rfl
    · rfl
  rw [hs.perfect]
  constructor
  · intro hzero hat
    rw [if_pos hat] at hbit
    have h0 := getLsbD_of_eq_zero hzero 0
    rw [BitVec.getLsbD_and, hbit] at h0
    cases h0
  · intro hat
    rw [if_neg hat] at hbit
    refine word_ext fun i _ => ?_
    rw [BitVec.getLsbD_and, getLsbD_of_eq_zero rfl]
    by_cases hi0 : i = 0
    · rw [hi0, hbit, Bool.false_and]
    · have hone := (getLsbD_one_eq i).trans (decide_eq_false hi0)
      rw [hone, Bool.and_false]

/-- A slot may be cleared. -/
theorem sound_set_zero (hs : Sound rehash ht t) (k : Nat) :
    Sound rehash { ht with table := some (t.set k 0) } (t.set k 0) := by
  refine ⟨rfl, (List.length_set ..).trans hs.length, hs.perfect, hs.low, hs.even, hs.common,
    fun i e hi he => ?_⟩
  rw [List.getElem?_set] at hi
  split_ifs at hi
  · obtain rfl := Option.some.inj hi
    cases he
  · exact hs.extra i e hi he

/-- What is at home stays there. -/
theorem insert_at_home {home : Word → Nat} {t : List (Cell Word)} (hk : t[k]? = some (.used p))
    (hhome : home p % t.length = k) :
    OpenAddressing.insert home (t.set k .empty) p = t := by
  obtain ⟨hlt, hget⟩ := List.getElem?_eq_some_iff.mp hk
  have hfirst : firstFree (t.set k .empty) (home p) = 0 := by
    refine firstFree_eq (by rw [List.length_set]; omega) ?_ fun j hj =>
      absurd hj (Nat.not_lt_zero _)
    rw [ahead_set hlt, Nat.add_zero, if_pos hhome]
    rfl
  rw [OpenAddressing.insert, hfirst, Nat.add_zero, List.length_set, hhome, List.set_set, ← hget,
    List.set_getElem_self]

/-- A turn of the loop is a turn of `OpenAddressing.rehash`. -/
theorem rehashSlot_eq (hs : Sound rehash ht t) (hk : k < t.length)
    (hshows : ∀ q ∈ held (ht.slots t), Shows ht q) :
    ∃ t', rehashSlot rehash ht k = .ok { ht with table := some t' } ∧
      Sound rehash { ht with table := some t' } t' ∧
      ht.slots t' = rehashAt (homeOf rehash) (ht.slots t) k := by
  have hget := List.getElem?_eq_getElem hk
  generalize t[k] = e at hget
  have hslot : (ht.slots t).getD k .empty = ht.meaning e := by
    rw [List.getD_eq_getElem?_getD, getElem?_slots hget]
    rfl
  have hself : ({ ht with table := some t } : Htable) = ht := by
    rw [← hs.table]
  rw [rehashSlot, slot_eq hs.table hget, ok_bind]
  unfold rehashAt
  rw [hslot]
  by_cases h0 : e = 0
  · rw [if_pos h0, meaning_eq_empty.mpr h0]
    exact ⟨t, by rw [hself], by rw [hself]; exact hs, rfl⟩
  rw [if_neg h0]
  by_cases h1 : e = 1
  · have hdeleted : ht.meaning e = .deleted := by
      unfold meaning
      rw [if_neg h0, if_pos h1]
    rw [if_pos h1, put_eq hs.table hk, hdeleted]
    exact ⟨_, rfl, sound_set_zero hs k, slots_set 0⟩
  have hvalid := entryIsValid_iff.mpr ⟨h0, h1⟩
  have hused : ht.meaning e = .used (ht.getRawPtr e) := meaning_of_valid hvalid
  rw [if_neg h1, hused]
  have hhome := perfect_of_extra hs hget hvalid
  by_cases hperfect : e &&& ht.perfectBit = 0
  · have hs₁ := sound_set_zero hs k
    have hfree : ∃ s ∈ ht.slots (t.set k 0), s.elem = none := by
      rw [slots_set]
      refine ⟨.empty, List.mem_of_getElem? (List.getElem?_set_self ?_), rfl⟩
      rw [length_slots]
      exact hk
    have hmem : ht.getRawPtr e ∈ held (ht.slots t) :=
      mem_held.mpr (hused ▸ List.mem_of_getElem? (getElem?_slots hget))
    obtain ⟨t', hadd, hs', hslots⟩ := htAdd_eq hs₁ (hshows _ hmem) hfree
    refine ⟨t', ?_, hs',
      hslots.trans (congrArg (OpenAddressing.insert (homeOf rehash) · _) (slots_set 0))⟩
    rw [if_pos hperfect, put_eq hs.table hk, ok_bind]
    exact hadd
  · rw [if_neg hperfect]
    refine ⟨t, by rw [hself], by rw [hself]; exact hs, (insert_at_home ?_ ?_).symm⟩
    · rw [getElem?_slots hget, hused]
    · have hat := not_not.mp (fun hne => hperfect (hhome.mpr hne))
      rw [length_slots, hs.length]
      exact (hashBucket_eq _).symm.trans hat

/-- `rehash_table` is `OpenAddressing.rehash`. -/
theorem rehashTable_eq (hs : Sound rehash ht t) (hshows : ∀ q ∈ held (ht.slots t), Shows ht q)
    (hempty : .empty ∈ ht.slots t) :
    ∃ t' start, rehashTable rehash ht = .ok { ht with table := some t', deleted := 0 } ∧
      Sound rehash { ht with table := some t' } t' ∧ ahead (ht.slots t) start 0 = .empty ∧
      ht.slots t' = OpenAddressing.rehash (homeOf rehash) (ht.slots t) start := by
  obtain ⟨e, he, hmeaning⟩ := List.mem_map.mp hempty
  rw [meaning_eq_empty] at hmeaning
  obtain ⟨start, hstart⟩ : ∃ start, t.findIdx? (· = 0) = some start := by
    rw [← Option.isSome_iff_exists, List.findIdx?_isSome, List.any_eq_true]
    exact ⟨e, he, decide_eq_true hmeaning⟩
  obtain ⟨hlt, hzero, -⟩ := List.findIdx?_eq_some_iff_getElem.mp hstart
  have hpos : 0 < t.length := Nat.lt_of_le_of_lt (Nat.zero_le _) hlt
  have hplace : ∀ i, (i + start) &&& (2 ^ ht.bits - 1) = (start + i) % t.length := by
    intro i
    rw [Nat.and_two_pow_sub_one_eq_mod, hs.length, Nat.add_comm]
  have hfold : ∀ (l : List Nat) {t₁ : List Word}, Sound rehash { ht with table := some t₁ } t₁ →
      t₁.length = t.length → (∀ q ∈ held (ht.slots t₁), Shows ht q) →
      ∃ t', l.foldlM (fun ht i => rehashSlot rehash ht ((i + start) &&& (2 ^ ht.bits - 1)))
          { ht with table := some t₁ } = .ok { ht with table := some t' } ∧
        Sound rehash { ht with table := some t' } t' ∧
        ht.slots t' = l.foldl (fun s i => rehashAt (homeOf rehash) s ((start + i) % s.length))
          (ht.slots t₁) := by
    intro l
    induction l with
    | nil => exact fun hs₁ _ _ => ⟨_, rfl, hs₁, rfl⟩
    | cons i l ih =>
      intro t₁ hs₁ hlen hshows₁
      obtain ⟨t₂, hturn, hs₂, hslots⟩ := rehashSlot_eq hs₁ (k := (start + i) % t.length)
        (by rw [hlen]; exact Nat.mod_lt _ hpos) hshows₁
      change ht.slots t₂ = rehashAt (homeOf rehash) (ht.slots t₁) ((start + i) % t.length) at hslots
      obtain ⟨t', hrest, hs', hslots'⟩ := ih hs₂ (hs₂.length.trans hs.length.symm)
        fun q hq => hshows₁ q (mem_rehashAt (hslots ▸ hq))
      refine ⟨t', ?_, hs', ?_⟩
      · rw [List.foldlM_cons]
        dsimp only
        rw [hplace, hturn, ok_bind]
        exact hrest
      · rw [hslots', List.foldl_cons, hslots, length_slots, hlen]
  have hself : ({ ht with table := some t } : Htable) = ht := by
    rw [← hs.table]
  obtain ⟨t', hrun, hs', hslots⟩ := hfold (List.range (2 ^ ht.bits)) (by rw [hself]; exact hs) rfl
    hshows
  refine ⟨t', start, ?_, hs', ?_, ?_⟩
  · rw [rehashTable, hs.table, Option.getD_some, hstart]
    dsimp only
    rw [hself] at hrun
    rw [hrun, ok_bind]
  · obtain ⟨e', he', hahead⟩ := exists_word ht hpos start 0
    rw [Nat.add_zero, Nat.mod_eq_of_lt hlt, List.getElem?_eq_getElem hlt] at he'
    rw [hahead, meaning_eq_empty, ← Option.some.inj he']
    exact of_decide_eq_true hzero
  · rw [hslots, OpenAddressing.rehash, length_slots, hs.length]

end Htable

-- ---------------------------------------------------------------------------
-- The common bits
-- ---------------------------------------------------------------------------

/-- The addresses of elements: aligned, and not `NULL`. -/
def Addresses (A : Set Word) : Prop := ∀ p ∈ A, p ≠ 0 ∧ p.getLsbD 0 = false

/-- No address has only bits of another one without the highest of these. -/
def Apart (A : Set Word) : Prop :=
  ∀ p ∈ A, ∀ q ∈ A, p &&& q = p → p.getLsbD (highBit q 63) = true

theorem getLsbD_one_shiftLeft {n i : Nat} (hn : n < 64) :
    ((1 : Word) <<< n).getLsbD i = decide (i = n) := by
  rw [BitVec.getLsbD_shiftLeft, getLsbD_one_eq]
  by_cases hin : i = n
  · simp [hin, hn]
  · by_cases hlt : i < n
    · simp [hlt, hin]
    · have hne : i - n ≠ 0 := by omega
      simp [hne, hin]

theorem and_shiftLeft_ne_zero {p : Word} {n : Nat} (hn : n < 64) :
    p &&& ((1 : Word) <<< n) ≠ 0 ↔ p.getLsbD n = true := by
  constructor
  · intro hne
    by_contra hbit
    refine hne (word_ext fun i _ => ?_)
    rw [BitVec.getLsbD_and, getLsbD_one_shiftLeft hn, getLsbD_of_eq_zero rfl]
    by_cases hin : i = n
    · rw [hin, Bool.eq_false_iff.mpr hbit, Bool.false_and]
    · rw [decide_eq_false hin, Bool.and_false]
  · intro hbit hzero
    have h := getLsbD_of_eq_zero hzero n
    rw [BitVec.getLsbD_and, getLsbD_one_shiftLeft hn, hbit, decide_eq_true rfl] at h
    cases h

/-- The loop finds a bit besides the lowest, if there is one. -/
theorem highBit_spec {p : Word} : ∀ {n : Nat}, n < 64 →
    (∃ i, i ≠ 0 ∧ i ≤ n ∧ p.getLsbD i = true) → highBit p n ≠ 0 ∧ p.getLsbD (highBit p n) = true
  | 0, _, ⟨i, hi, hle, _⟩ => absurd (Nat.le_zero.mp hle) hi
  | n + 1, hn, ⟨i, hi, hle, hbit⟩ => by
    rw [highBit]
    by_cases hset : p.getLsbD (n + 1) = true
    · rw [if_pos ((and_shiftLeft_ne_zero hn).mpr hset)]
      exact ⟨Nat.succ_ne_zero n, hset⟩
    · rw [if_neg fun hne => hset ((and_shiftLeft_ne_zero hn).mp hne)]
      refine highBit_spec (Nat.lt_of_succ_lt hn) ⟨i, hi, ?_, hbit⟩
      refine Nat.le_of_lt_succ (Nat.lt_of_le_of_ne hle fun heq => hset ?_)
      subst heq
      exact hbit

theorem highBit_address {p : Word} (hp : p ≠ 0 ∧ p.getLsbD 0 = false) :
    highBit p 63 ≠ 0 ∧ p.getLsbD (highBit p 63) = true ∧ highBit p 63 < 64 := by
  obtain ⟨hne, heven⟩ := hp
  have hspec : highBit p 63 ≠ 0 ∧ p.getLsbD (highBit p 63) = true := by
    refine highBit_spec (by decide) ?_
    by_contra hnone
    refine hne (word_ext fun i hi => ?_)
    rw [getLsbD_of_eq_zero rfl]
    by_contra hbit
    refine hnone ⟨i, fun h0 => ?_, Nat.le_of_lt_succ hi, Bool.eq_true_of_not_eq_false hbit⟩
    rw [h0, heven] at hbit
    exact hbit rfl
  exact ⟨hspec.1, hspec.2, lt_of_getLsbD hspec.2⟩

namespace Htable

/-- The common bits are those of an address whose highest bit is not left out. -/
def First (A : Set Word) (ht : Htable) : Prop :=
  ∃ q ∈ A, ht.commonBits = q &&& ht.commonMask ∧ ht.commonMask.getLsbD (highBit q 63) = false

/-- Then every address that has them shows. -/
theorem First.shows (h : First A ht) (hA : Addresses A) (hapart : Apart A) (hp : p ∈ A)
    (hcommon : p &&& ht.commonMask = ht.commonBits) : Shows ht p := by
  refine ⟨hcommon, ?_⟩
  obtain ⟨q, hq, hbits, htop⟩ := h
  by_contra hnone
  have hsub : p &&& q = p := by
    refine word_ext fun i _ => ?_
    have hbit := congrArg (·.getLsbD i) (hcommon.trans hbits)
    simp only [BitVec.getLsbD_and] at hbit ⊢
    cases hpi : p.getLsbD i with
    | false => rfl
    | true =>
      have hmask : ht.commonMask.getLsbD i = true := by
        by_contra hmask
        refine hnone ⟨i, fun h0 => ?_, Bool.eq_false_iff.mpr hmask, hpi⟩
        rw [h0, (hA p hp).2] at hpi
        cases hpi
      rw [hpi, hmask, Bool.and_true, Bool.and_true] at hbit
      rw [← hbit]
      rfl
  obtain ⟨htop0, -, -⟩ := highBit_address (hA q hq)
  exact hnone ⟨_, htop0, htop, hapart p hp q hq hsub⟩

/-- What an entry stands for has the common bits. -/
theorem getRawPtr_and (hcommon : ht.commonBits &&& ~~~ht.commonMask = 0) (e : Word) :
    ht.getRawPtr e &&& ht.commonMask = ht.commonBits := by
  unfold getRawPtr
  refine word_ext fun i hi => ?_
  have hbit := getLsbD_of_eq_zero hcommon i
  simp only [BitVec.getLsbD_and, BitVec.getLsbD_or, BitVec.getLsbD_not, hi, decide_true,
    Bool.true_and] at hbit ⊢
  cases hm : ht.commonMask.getLsbD i <;> simp_all

/-- What is held shows. -/
theorem shows_of_held (hs : Sound rehash ht t) (h : First A ht) (hA : Addresses A)
    (hapart : Apart A) (hmem : ∀ q ∈ held (ht.slots t), q ∈ A) :
    ∀ q ∈ held (ht.slots t), Shows ht q := by
  intro q hq
  refine h.shows hA hapart (hmem q hq) ?_
  obtain ⟨e, -, he⟩ := List.mem_map.mp (mem_held.mp hq)
  rw [← (meaning_eq_used he).2]
  exact getRawPtr_and hs.common e

/-- The `maskdiff` of `update_common`: the common bits that the address has not. -/
def maskdiff (ht : Htable) (p : Word) : Word := ht.commonBits ^^^ (p &&& ht.commonMask)

/-- An entry, as it is rewritten. -/
def revealed (ht : Htable) (p e : Word) : Word :=
  (e &&& ~~~ht.maskdiff p) ||| (ht.commonBits &&& ht.maskdiff p)

/-- The table, when these are taken from the common bits. -/
def taken (ht : Htable) (p : Word) (t : List Word) : Htable :=
  { ht with
    table := some (t.map fun e => if entryIsValid e then ht.revealed p e else e)
    commonMask := ht.commonMask &&& ~~~ht.maskdiff p
    commonBits := ht.commonBits &&& ~~~ht.maskdiff p
    perfectBit := ht.perfectBit &&& ~~~ht.maskdiff p }

theorem updateCommon_of_elems (h : ht.elems ≠ 0) (htable : ht.table = some t) :
    updateCommon ht p = ht.taken p t := by
  rw [updateCommon, if_neg h, htable]
  rfl

theorem getLsbD_maskdiff (i : Nat) : (ht.maskdiff p).getLsbD i =
    (ht.commonBits.getLsbD i ^^ (p.getLsbD i && ht.commonMask.getLsbD i)) := by
  rw [maskdiff, BitVec.getLsbD_xor, BitVec.getLsbD_and]

/-- A bit that is set in all of them is common. -/
theorem getLsbD_common (hcommon : ht.commonBits &&& ~~~ht.commonMask = 0) (hi : i < 64) :
    (ht.commonBits.getLsbD i && !ht.commonMask.getLsbD i) = false := by
  have h := getLsbD_of_eq_zero hcommon i
  simpa only [BitVec.getLsbD_and, BitVec.getLsbD_not, hi, decide_true, Bool.true_and] using h

/-- An entry that is rewritten stands for the same address. -/
theorem getRawPtr_revealed (hcommon : ht.commonBits &&& ~~~ht.commonMask = 0) (e : Word) :
    (ht.taken p t).getRawPtr (ht.revealed p e) = ht.getRawPtr e := by
  unfold getRawPtr revealed taken
  refine word_ext fun i hi => ?_
  have hci := getLsbD_common hcommon hi
  simp only [BitVec.getLsbD_and, BitVec.getLsbD_or, BitVec.getLsbD_not, hi, decide_true,
    Bool.true_and, getLsbD_maskdiff]
  generalize e.getLsbD i = e, ht.commonMask.getLsbD i = m, ht.commonBits.getLsbD i = b,
    p.getLsbD i = x at hci ⊢
  revert e m b x
  decide

/-- If its address shows, it is still told from the marks. -/
theorem entryIsValid_revealed (hcommon : ht.commonBits &&& ~~~ht.commonMask = 0)
    (hshows : Shows ht (ht.getRawPtr e)) : entryIsValid (ht.revealed p e) = true := by
  obtain ⟨-, j, hj, hmask, hbit⟩ := hshows
  have hlt := lt_of_getLsbD hbit
  refine entryIsValid_of_bit hj ?_
  have hcj := getLsbD_common hcommon hlt
  unfold getRawPtr at hbit
  unfold revealed
  simp only [BitVec.getLsbD_and, BitVec.getLsbD_or, BitVec.getLsbD_not, hlt, decide_true,
    Bool.true_and, getLsbD_maskdiff] at hbit ⊢
  generalize e.getLsbD j = e, ht.commonMask.getLsbD j = m, ht.commonBits.getLsbD j = b,
    p.getLsbD j = x at hbit hcj hmask ⊢
  revert e m b x
  decide

/-- The slots mean what they meant. -/
theorem slots_taken (hcommon : ht.commonBits &&& ~~~ht.commonMask = 0)
    (hshows : ∀ q ∈ held (ht.slots t), Shows ht q) :
    (ht.taken p t).slots (t.map fun e => if entryIsValid e then ht.revealed p e else e)
      = ht.slots t := by
  unfold slots
  rw [List.map_map]
  refine List.map_congr_left fun e he => ?_
  show (ht.taken p t).meaning (if entryIsValid e then ht.revealed p e else e) = ht.meaning e
  cases hv : entryIsValid e with
  | true =>
    have hmem : ht.getRawPtr e ∈ held (ht.slots t) :=
      mem_held.mpr (List.mem_map.mpr ⟨e, he, meaning_of_valid hv⟩)
    rw [if_pos rfl, meaning_of_valid (entryIsValid_revealed hcommon (hshows _ hmem)),
      meaning_of_valid hv, getRawPtr_revealed hcommon]
  | false =>
    rw [if_neg Bool.false_ne_true]
    exact meaning_of_not_valid hv

/-- The lowest bit is not taken: that of an address is not set. -/
theorem getLsbD_maskdiff_zero (hs : Sound rehash ht t) (heven : p.getLsbD 0 = false) :
    (ht.maskdiff p).getLsbD 0 = false := by
  rw [getLsbD_maskdiff, hs.even, heven]
  rfl

theorem perfectBit_taken (hs : Sound rehash ht t) (heven : p.getLsbD 0 = false) :
    (ht.taken p t).perfectBit = 1 := by
  show ht.perfectBit &&& ~~~ht.maskdiff p = 1
  rw [hs.perfect]
  refine word_ext fun i hi => ?_
  rw [BitVec.getLsbD_and, BitVec.getLsbD_not, decide_eq_true hi, Bool.true_and]
  by_cases hi0 : i = 0
  · rw [hi0, getLsbD_maskdiff_zero hs heven, Bool.not_false, Bool.and_true]
  · have hone := (getLsbD_one_eq i).trans (decide_eq_false hi0)
    rw [hone, Bool.false_and]

/-- The bits of the hash stay where they were, but for those that the address needs. -/
theorem getExtraPtrBits_revealed (hs : Sound rehash ht t) (heven : p.getLsbD 0 = false)
    (hextra : ht.getExtraPtrBits e = ht.getHashPtrBits hash |||
      if ht.hashBucket hash = k then 1 else 0) :
    (ht.taken p t).getExtraPtrBits (ht.revealed p e) = (ht.taken p t).getHashPtrBits hash |||
      if ht.hashBucket hash = k then 1 else 0 := by
  refine word_ext fun i hi => ?_
  have hci := getLsbD_common hs.common hi
  have hei := congrArg (·.getLsbD i) hextra
  unfold getExtraPtrBits getHashPtrBits at hei ⊢
  rw [perfectBit_taken hs heven]
  rw [hs.perfect] at hei
  unfold taken revealed
  simp only [BitVec.getLsbD_and, BitVec.getLsbD_or, BitVec.getLsbD_not, hi, decide_true,
    Bool.true_and, getLsbD_maskdiff] at hei ⊢
  by_cases hi0 : i = 0
  · subst hi0
    rw [hs.even, heven, Bool.false_and, Bool.xor_false, Bool.not_false, Bool.and_true,
      Bool.and_false, Bool.or_false, Bool.and_true]
    exact hei
  · have hone : (if ht.hashBucket hash = k then (1 : Word) else 0).getLsbD i = false := by
      split_ifs
      · exact (getLsbD_one_eq i).trans (decide_eq_false hi0)
      · exact getLsbD_of_eq_zero rfl i
    rw [hone, Bool.or_false] at hei ⊢
    cases hm : ht.commonMask.getLsbD i <;> cases hb : ht.commonBits.getLsbD i <;>
      cases hpi : p.getLsbD i <;> simp_all

/-- The words are as they should be. -/
theorem sound_taken (hs : Sound rehash ht t) (heven : p.getLsbD 0 = false) :
    Sound rehash (ht.taken p t)
      (t.map fun e => if entryIsValid e then ht.revealed p e else e) where
  table := rfl
  length := (List.length_map ..).trans hs.length
  perfect := perfectBit_taken hs heven
  low := by
    show (ht.commonMask &&& ~~~ht.maskdiff p).getLsbD 0 = true
    simp only [BitVec.getLsbD_and, BitVec.getLsbD_not, hs.low, getLsbD_maskdiff_zero hs heven]
    decide
  even := by
    show (ht.commonBits &&& ~~~ht.maskdiff p).getLsbD 0 = false
    rw [BitVec.getLsbD_and, hs.even, Bool.false_and]
  common := by
    unfold taken
    refine word_ext fun i hi => ?_
    have hci := getLsbD_common hs.common hi
    simp only [BitVec.getLsbD_and, BitVec.getLsbD_not, hi, decide_true, Bool.true_and,
      getLsbD_maskdiff]
    cases ht.commonMask.getLsbD i <;> cases hb : ht.commonBits.getLsbD i <;> simp_all
  extra := by
    intro k e' hk he'
    rw [List.getElem?_map] at hk
    obtain ⟨e, hke, rfl⟩ := Option.map_eq_some_iff.mp hk
    cases hv : entryIsValid e with
    | false =>
      rw [hv, if_neg Bool.false_ne_true] at he'
      exact absurd (hv.symm.trans he') Bool.false_ne_true
    | true =>
      rw [if_pos rfl, getRawPtr_revealed hs.common]
      exact getExtraPtrBits_revealed hs heven (hs.extra k e hke hv)

/-- The address has the bits that are common now. -/
theorem and_taken (hcommon : ht.commonBits &&& ~~~ht.commonMask = 0) :
    p &&& (ht.taken p t).commonMask = (ht.taken p t).commonBits := by
  unfold taken
  refine word_ext fun i hi => ?_
  have hci := getLsbD_common hcommon hi
  simp only [BitVec.getLsbD_and, BitVec.getLsbD_not, hi, decide_true, Bool.true_and,
    getLsbD_maskdiff]
  cases ht.commonMask.getLsbD i <;> cases hb : ht.commonBits.getLsbD i <;>
    cases hpi : p.getLsbD i <;> simp_all

theorem First.taken (h : First A ht) : First A (ht.taken p t) := by
  obtain ⟨q, hq, hfirst, htop⟩ := h
  refine ⟨q, hq, ?_, ?_⟩
  · show ht.commonBits &&& ~~~ht.maskdiff p = q &&& (ht.commonMask &&& ~~~ht.maskdiff p)
    rw [hfirst, BitVec.and_assoc]
  · show (ht.commonMask &&& ~~~ht.maskdiff p).getLsbD _ = false
    rw [BitVec.getLsbD_and, htop, Bool.false_and]

/-- Bits are taken from the common ones, and the slots mean what they meant. -/
theorem updateCommon_some (hs : Sound rehash ht t) (helems : ht.elems ≠ 0)
    (hshows : ∀ q ∈ held (ht.slots t), Shows ht q) (heven : p.getLsbD 0 = false) :
    ∃ t', Sound rehash (updateCommon ht p) t' ∧ (updateCommon ht p).slots t' = ht.slots t ∧
      p &&& (updateCommon ht p).commonMask = (updateCommon ht p).commonBits ∧
      (First A ht → First A (updateCommon ht p)) := by
  rw [updateCommon_of_elems helems hs.table]
  exact ⟨_, sound_taken hs heven, slots_taken hs.common hshows, and_taken hs.common, First.taken⟩

/-- In a table without elements everything is common but one bit. -/
theorem updateCommon_none (hs : Sound rehash ht t) (helems : ht.elems = 0)
    (hnone : held (ht.slots t) = []) (hA : Addresses A) (hp : p ∈ A) :
    Sound rehash (updateCommon ht p) t ∧ (updateCommon ht p).slots t = ht.slots t ∧
      p &&& (updateCommon ht p).commonMask = (updateCommon ht p).commonBits ∧
      First A (updateCommon ht p) := by
  obtain ⟨htop0, htop, hlt⟩ := highBit_address (hA p hp)
  have hinvalid : ∀ e ∈ t, entryIsValid e = false := by
    intro e he
    cases hv : entryIsValid e with
    | false => rfl
    | true =>
      have hmem : ht.getRawPtr e ∈ held (ht.slots t) :=
        mem_held.mpr (List.mem_map.mpr ⟨e, he, meaning_of_valid hv⟩)
      rw [hnone] at hmem
      cases hmem
  have hmask : ∀ i < 64,
      (~~~((1 : Word) <<< highBit p 63)).getLsbD i = !decide (i = highBit p 63) := by
    intro i hi
    rw [BitVec.getLsbD_not, getLsbD_one_shiftLeft hlt, decide_eq_true hi, Bool.true_and]
  rw [updateCommon, if_pos helems]
  refine ⟨⟨hs.table, hs.length, rfl, ?_, ?_, ?_, fun k e hk he => ?_⟩, ?_, rfl, p, hp, rfl, ?_⟩
  · show (~~~((1 : Word) <<< highBit p 63)).getLsbD 0 = true
    rw [hmask 0 (by decide), decide_eq_false (Ne.symm htop0)]
    rfl
  · show (p &&& ~~~((1 : Word) <<< highBit p 63)).getLsbD 0 = false
    rw [BitVec.getLsbD_and, (hA p hp).2, Bool.false_and]
  · show p &&& ~~~((1 : Word) <<< highBit p 63) &&& ~~~(~~~((1 : Word) <<< highBit p 63)) = 0
    refine word_ext fun i hi => ?_
    simp only [BitVec.getLsbD_and, BitVec.getLsbD_not, hi, decide_true, Bool.true_and,
      getLsbD_of_eq_zero rfl]
    cases ((1 : Word) <<< highBit p 63).getLsbD i <;> simp
  · rw [hinvalid e (List.mem_of_getElem? hk)] at he
    cases he
  · unfold slots
    exact List.map_congr_left fun e he => meaning_of_not_valid (hinvalid e he)
  · show (~~~((1 : Word) <<< highBit p 63)).getLsbD (highBit p 63) = false
    rw [hmask _ hlt, decide_eq_true rfl]
    rfl

end Htable

end Pettycoin
