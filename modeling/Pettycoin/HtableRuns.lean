import Pettycoin.HtableWords

/-!
# Pettycoin — runs of the hash table

A table that elements were added to and deleted from holds what was added and not deleted again
(`Holds`). Where an address does not show a bit, its entry is the mark of a deleted one, and it is
lost (`lost_of_hidden`): that the addresses are apart is what the table needs.

* `htableAdd_holds`, `htableDel_holds` — one call;
* `htableVals_holds` — a search finds the elements of its hash;
* `holds_of_reach` — all calls of a run;
* `htable_works_iff` — for which addresses this is so.
-/

namespace Pettycoin

open ExceptRules OpenAddressing

variable {A : Set Word} {ht ht' : Htable} {t t' l : List Word} {p q e b hash : Word}
  {i k n d : Nat} {rehash : Word → Word}

namespace Htable

-- ---------------------------------------------------------------------------
-- What a table holds
-- ---------------------------------------------------------------------------

/-- The words of a table, and what it holds. -/
structure Filled (rehash : Word → Word) (ht : Htable) (t l : List Word) : Prop where
  sound : Sound rehash ht t
  findable : Findable (homeOf rehash) (ht.slots t)
  held : (held (ht.slots t)).Perm l
  elems : ht.elems = l.length
  marks : occupied (ht.slots t) ≤ ht.elems + ht.deleted
  bits : 1 ≤ ht.bits ∧ ht.bits ≤ 30
  max : ht.max = 3 * 2 ^ ht.bits / 4
  maxWithDeleted : ht.maxWithDeleted = 9 * 2 ^ ht.bits / 10
  room : ht.elems ≤ ht.max
  roomWithDeleted : ht.elems + ht.deleted ≤ ht.maxWithDeleted

theorem two_le_pow (h : 1 ≤ n) : 2 ≤ 2 ^ n := by
  calc 2 = 2 ^ 1 := rfl
    _ ≤ 2 ^ n := Nat.pow_le_pow_right (by decide) h

/-- There is always an empty slot. -/
theorem Filled.occupied_lt (h : Filled rehash ht t l) :
    occupied (ht.slots t) < (ht.slots t).length := by
  have hpow := two_le_pow h.bits.1
  have hmarks := h.marks
  have hroom := h.roomWithDeleted
  rw [h.maxWithDeleted] at hroom
  rw [length_slots, h.sound.length]
  omega

-- ---------------------------------------------------------------------------
-- Doubling
-- ---------------------------------------------------------------------------

/-- The table as `calloc` returns it. -/
def doubled (ht : Htable) : Htable :=
  { ht with
    table := some (List.replicate (2 ^ (ht.bits + 1)) 0)
    bits := ht.bits + 1
    max := 3 * 2 ^ (ht.bits + 1) / 4
    maxWithDeleted := 9 * 2 ^ (ht.bits + 1) / 10 }

/-- What is common, but for the perfect bit. -/
structure Common (ht : Htable) : Prop where
  perfect : ht.perfectBit = 1
  low : ht.commonMask.getLsbD 0 = true
  even : ht.commonBits.getLsbD 0 = false
  common : ht.commonBits &&& ~~~ht.commonMask = 0

theorem Sound.toCommon (h : Sound rehash ht t) : Common ht := ⟨h.perfect, h.low, h.even, h.common⟩

theorem regainPerfect_of_common (h : Common ht) : ht.regainPerfect = ht := by
  unfold regainPerfect
  rw [if_neg]
  rintro ⟨h0, -⟩
  rw [h.perfect] at h0
  cases h0

theorem slots_replicate (n : Nat) : ht.slots (List.replicate n 0) = List.replicate n .empty := by
  rw [slots, List.map_replicate]
  rfl

/-- The entries are put into a table that is empty. -/
theorem doubled_filled (rehash : Word → Word) (hc : Common ht) (hbits : ht.bits + 1 ≤ 30)
    (old : List Word) (hold : (held (ht.slots old)).Perm l) (helems : ht.elems = l.length)
    (hshows : ∀ q ∈ l, Shows ht q) (hroom : ht.elems ≤ 3 * 2 ^ ht.bits / 4) :
    ∃ t', old.foldlM (fun (new : Htable) e =>
          if entryIsValid e then htAdd new (new.getRawPtr e) (rehash (new.getRawPtr e)) else .ok new)
        ht.doubled = .ok { ht.doubled with table := some t' } ∧
      Filled rehash { ht.doubled with table := some t', deleted := 0 } t' l ∧
      ht.elems + 1 ≤ ht.doubled.max := by
  have hpow : 2 ^ (ht.bits + 1) = 2 ^ ht.bits + 2 ^ ht.bits := by
    rw [Nat.pow_succ]
    omega
  have hpos := Nat.two_pow_pos ht.bits
  have hslots : ∀ l, ht.doubled.slots l = ht.slots l := fun _ => rfl
  have hsound : Sound rehash { ht.doubled with table := some (List.replicate (2 ^ (ht.bits + 1)) 0) }
      (List.replicate (2 ^ (ht.bits + 1)) 0) := by
    refine ⟨rfl, List.length_replicate, hc.perfect, hc.low, hc.even, hc.common, fun k e hk he => ?_⟩
    rw [List.eq_of_mem_replicate (List.mem_of_getElem? hk)] at he
    cases he
  have hlen := hold.length_eq
  obtain ⟨t', hrun, hs, hfindable, hclean, hheld⟩ := foldlM_htAdd ht.doubled old hsound
    (by rw [slots_replicate]; exact findable_replicate _)
    (by
      rw [slots_replicate]
      intro s hs
      rw [List.eq_of_mem_replicate hs]
      rintro ⟨⟩)
    (fun q hq => hshows q (hold.mem_iff.mp hq))
    (by
      rw [slots_replicate, held_replicate, List.length_replicate, hslots, hlen, List.length_nil]
      omega)
  rw [slots_replicate, held_replicate, List.nil_append, hslots] at hheld
  have hcount := occupied_eq_length_held hclean
  have hheld' := hheld.trans hold
  refine ⟨t', hrun, ⟨⟨rfl, hs.length, hs.perfect, hs.low, hs.even, hs.common, hs.extra⟩, hfindable,
    hheld', helems, ?_, ⟨by show 1 ≤ ht.bits + 1; omega, hbits⟩, rfl, rfl, ?_, ?_⟩, ?_⟩
  · show occupied (ht.doubled.slots t') ≤ ht.elems + 0
    rw [hcount, hslots, hheld'.length_eq, helems]
    exact Nat.le_refl _
  · show ht.elems ≤ 3 * 2 ^ (ht.bits + 1) / 4
    omega
  · show ht.elems + 0 ≤ 9 * 2 ^ (ht.bits + 1) / 10
    omega
  · show ht.elems + 1 ≤ 3 * 2 ^ (ht.bits + 1) / 4
    omega

/-- `double_table`, where the old words are `old`, and `ht₁` has the perfect bit again. -/
theorem doubleTable_eq {ht₁ : Htable} (rehash : Word → Word)
    (hregain : ht.doubled.regainPerfect = ht₁.doubled) (hbits₁ : ht₁.bits = ht.bits)
    (hc : Common ht₁) (old : List Word) (htable : ht.table.getD [] = old)
    (hold : (held (ht₁.slots old)).Perm l) (helems : ht₁.elems = l.length)
    (hshows : ∀ q ∈ l, Shows ht₁ q) (hroom : ht₁.elems ≤ 3 * 2 ^ ht₁.bits / 4) (calloc : Bool) :
    doubleTable rehash calloc ht = .ok none ∧ (calloc = false ∨ 30 ≤ ht.bits) ∨
      ∃ ht' t', doubleTable rehash calloc ht = .ok (some ht') ∧ Filled rehash ht' t' l ∧
        ht'.elems + 1 ≤ ht'.max ∧ ht'.elems = ht₁.elems ∧ ht'.commonMask = ht₁.commonMask ∧
        ht'.commonBits = ht₁.commonBits := by
  unfold doubleTable
  by_cases hfail : calloc = false ∨ 31 ≤ ht.bits + 1
  · left
    rw [if_pos hfail]
    exact ⟨rfl, hfail.imp_right fun h => Nat.le_of_succ_le_succ h⟩
  · right
    have hbits : ht₁.bits + 1 ≤ 30 := by
      have := not_or.mp hfail
      omega
    obtain ⟨t', hrun, hfilled, hmax⟩ := doubled_filled rehash hc hbits old hold helems
      hshows hroom
    refine ⟨_, t', ?_, hfilled, hmax, rfl, rfl, rfl⟩
    rw [if_neg hfail, htable]
    show (do
      let new ← old.foldlM (fun (new : Htable) e =>
        if entryIsValid e then htAdd new (new.getRawPtr e) (rehash (new.getRawPtr e)) else .ok new)
        ht.doubled.regainPerfect
      Except.ok (some { new with deleted := 0 })) = _
    rw [hregain, hrun, ok_bind]

-- ---------------------------------------------------------------------------
-- Adding
-- ---------------------------------------------------------------------------

/-- Clearing the marks where the table is full of them. -/
theorem rehashTable_filled (h : Filled rehash ht t l) (hshows : ∀ q ∈ l, Shows ht q) :
    ∃ t', rehashTable rehash ht = .ok { ht with table := some t', deleted := 0 } ∧
      Filled rehash { ht with table := some t', deleted := 0 } t' l := by
  obtain ⟨t', start, hrun, hs, hstart, hslots⟩ := rehashTable_eq h.sound
    (fun q hq => hshows q (h.held.mem_iff.mp hq)) (exists_empty h.occupied_lt)
  obtain ⟨hfindable, hclean, hheld, -⟩ := rehash_findable h.findable hstart
  rw [← hslots] at hfindable hclean hheld
  have hcount := occupied_eq_length_held hclean
  refine ⟨t', hrun, ⟨⟨rfl, hs.length, hs.perfect, hs.low, hs.even, hs.common, hs.extra⟩, hfindable,
    hheld.trans h.held, h.elems, ?_, h.bits, h.max, h.maxWithDeleted, h.room, ?_⟩⟩
  · show occupied (ht.slots t') ≤ ht.elems + 0
    rw [hcount, (hheld.trans h.held).length_eq, h.elems]
    exact Nat.le_refl _
  · exact Nat.le_trans (Nat.add_le_add_left (Nat.zero_le _) _) h.roomWithDeleted

/-- Where the bits were cleared, or none are set yet. -/
def Begun (A : Set Word) (ht : Htable) : Prop :=
  First A ht ∨ ht.elems = 0 ∧ ht.commonMask = .allOnes 64 ∧ ht.commonBits = 0

theorem Begun.shows (h : Begun A ht) (hfilled : Filled rehash ht t l) (hA : Addresses A)
    (hapart : Apart A) (hl : ∀ q ∈ l, q ∈ A) : ∀ q ∈ l, Shows ht q := by
  intro q hq
  rcases h with hfirst | ⟨h0, -⟩
  · exact shows_of_held hfilled.sound hfirst hA hapart
      (fun q hq => hl q (hfilled.held.mem_iff.mp hq)) q (hfilled.held.mem_iff.mpr hq)
  · rw [hfilled.elems, List.length_eq_zero_iff] at h0
    rw [h0] at hq
    cases hq

/-- The common bits are made those of the address too. -/
theorem updateCommon_filled (h : Filled rehash ht t l) (hA : Addresses A) (hapart : Apart A)
    (hl : ∀ q ∈ l, q ∈ A) (hp : p ∈ A) (hbegun : Begun A ht) :
    ∃ t', Filled rehash (updateCommon ht p) t' l ∧ First A (updateCommon ht p) ∧
      p &&& (updateCommon ht p).commonMask = (updateCommon ht p).commonBits ∧
      (updateCommon ht p).elems = ht.elems ∧ (updateCommon ht p).deleted = ht.deleted ∧
      (updateCommon ht p).max = ht.max ∧ (updateCommon ht p).maxWithDeleted = ht.maxWithDeleted := by
  have hfields : (updateCommon ht p).elems = ht.elems ∧ (updateCommon ht p).deleted = ht.deleted ∧
      (updateCommon ht p).max = ht.max ∧ (updateCommon ht p).maxWithDeleted = ht.maxWithDeleted ∧
      (updateCommon ht p).bits = ht.bits := by
    unfold updateCommon
    split_ifs
    · exact ⟨rfl, rfl, rfl, rfl, rfl⟩
    · exact ⟨rfl, rfl, rfl, rfl, rfl⟩
  obtain ⟨t', hs, hslots, hcommon, hfirst⟩ : ∃ t', Sound rehash (updateCommon ht p) t' ∧
      (updateCommon ht p).slots t' = ht.slots t ∧
      p &&& (updateCommon ht p).commonMask = (updateCommon ht p).commonBits ∧
      First A (updateCommon ht p) := by
    by_cases h0 : ht.elems = 0
    · have hnil : held (ht.slots t) = [] :=
        List.eq_nil_of_length_eq_zero (h.held.length_eq.trans (h.elems.symm.trans h0))
      exact ⟨t, updateCommon_none h.sound h0 hnil hA hp⟩
    · have hfirst : First A ht := hbegun.resolve_right fun hfresh => h0 hfresh.1
      obtain ⟨t', hs, hslots, hcommon, hkeeps⟩ := updateCommon_some h.sound h0
        (shows_of_held h.sound hfirst hA hapart fun q hq => hl q (h.held.mem_iff.mp hq)) (hA p hp).2
      exact ⟨t', hs, hslots, hcommon, hkeeps hfirst⟩
  obtain ⟨helems, hdeleted, hmax, hmaxWithDeleted, hbits⟩ := hfields
  refine ⟨t', ⟨hs, ?_, ?_, ?_, ?_, ?_, ?_, ?_, ?_, ?_⟩, hfirst, hcommon, helems, hdeleted, hmax,
    hmaxWithDeleted⟩
  · rw [hslots]
    exact h.findable
  · rw [hslots]
    exact h.held
  · rw [helems]
    exact h.elems
  · rw [hslots, helems, hdeleted]
    exact h.marks
  · rw [hbits]
    exact h.bits
  · rw [hmax, hbits]
    exact h.max
  · rw [hmaxWithDeleted, hbits]
    exact h.maxWithDeleted
  · rw [helems, hmax]
    exact h.room
  · rw [helems, hdeleted, hmaxWithDeleted]
    exact h.roomWithDeleted

/-- An address is put into a table that has room. -/
theorem htAdd_filled (h : Filled rehash ht t l) (hp : Shows ht p) (hmax : ht.elems + 1 ≤ ht.max)
    (hmaxWithDeleted : ht.elems + 1 + ht.deleted ≤ ht.maxWithDeleted) :
    ∃ t', htAdd ht p (rehash p) = .ok { ht with table := some t' } ∧
      Filled rehash { ht with table := some t', elems := ht.elems + 1 } t' (p :: l) := by
  have hfree := free_of_occupied_lt h.occupied_lt
  obtain ⟨t', hrun, hs, hslots⟩ := htAdd_eq h.sound hp hfree
  have hheld := held_insert hfree (homeOf rehash) p
  have hmarks := occupied_insert_le hfree (homeOf rehash) p
  have hfindable := findable_insert (a := p) hfree h.findable
  rw [← hslots] at hheld hmarks hfindable
  refine ⟨t', hrun, ⟨⟨rfl, hs.length, hs.perfect, hs.low, hs.even, hs.common, hs.extra⟩, hfindable,
    hheld.trans (h.held.cons p), ?_, ?_, h.bits, h.max, h.maxWithDeleted, hmax, ?_⟩⟩
  · show ht.elems + 1 = (p :: l).length
    rw [h.elems, List.length_cons]
  · show occupied (ht.slots t') ≤ ht.elems + 1 + ht.deleted
    have := h.marks
    omega
  · exact hmaxWithDeleted

/-- Marks are cleared if there are too many. -/
theorem rehash_if_filled (h : Filled rehash ht t l) (hshows : ∀ q ∈ l, Shows ht q)
    (hbegun : Begun A ht) (hmax : ht.elems + 1 ≤ ht.max) :
    ∃ ht₁ t₁, (if ht.maxWithDeleted < ht.elems + 1 + ht.deleted then rehashTable rehash ht
        else .ok ht) = .ok ht₁ ∧ Filled rehash ht₁ t₁ l ∧ Begun A ht₁ ∧ ht₁.elems + 1 ≤ ht₁.max ∧
      ht₁.elems + 1 + ht₁.deleted ≤ ht₁.maxWithDeleted ∧ ht₁.commonMask = ht.commonMask ∧
      ht₁.commonBits = ht.commonBits := by
  by_cases hfull : ht.maxWithDeleted < ht.elems + 1 + ht.deleted
  · obtain ⟨t₁, hrun, hfilled⟩ := rehashTable_filled h hshows
    refine ⟨_, t₁, (if_pos hfull).trans hrun, hfilled, hbegun, hmax, ?_, rfl, rfl⟩
    have hmaxWithDeleted := h.maxWithDeleted
    have hmaxValue := h.max
    show ht.elems + 1 + 0 ≤ ht.maxWithDeleted
    omega
  · exact ⟨ht, t, if_neg hfull, h, hbegun, hmax, Nat.le_of_not_lt hfull, rfl, rfl⟩

/-- An address that has the common bits, or they are made those of the address too. -/
theorem update_if_filled (h : Filled rehash ht t l) (hA : Addresses A) (hapart : Apart A)
    (hl : ∀ q ∈ l, q ∈ A) (hp : p ∈ A) (hbegun : Begun A ht) :
    ∃ ht₁ t₁, (if p &&& ht.commonMask ≠ ht.commonBits then updateCommon ht p else ht) = ht₁ ∧
      Filled rehash ht₁ t₁ l ∧ First A ht₁ ∧ p &&& ht₁.commonMask = ht₁.commonBits ∧
      ht₁.elems = ht.elems ∧ ht₁.deleted = ht.deleted ∧ ht₁.max = ht.max ∧
      ht₁.maxWithDeleted = ht.maxWithDeleted := by
  by_cases hdiff : p &&& ht.commonMask ≠ ht.commonBits
  · obtain ⟨t₁, hrest⟩ := updateCommon_filled h hA hapart hl hp hbegun
    exact ⟨_, t₁, if_pos hdiff, hrest⟩
  · have hcommon := of_not_not hdiff
    refine ⟨ht, t, if_neg hdiff, h, hbegun.resolve_right ?_, hcommon, rfl, rfl, rfl, rfl⟩
    rintro ⟨-, hmask, hbits⟩
    rw [hmask, hbits, BitVec.and_allOnes] at hcommon
    exact (hA p hp).1 hcommon

theorem htableAddRoom_eq {ht₁ ht₂ ht₃ : Htable} (hp : p ≠ 0)
    (hrehash : (if ht.maxWithDeleted < ht.elems + 1 + ht.deleted then rehashTable rehash ht
      else .ok ht) = .ok ht₁)
    (hupdate : (if p &&& ht₁.commonMask ≠ ht₁.commonBits then updateCommon ht₁ p else ht₁) = ht₂)
    (hadd : htAdd ht₂ p hash = .ok ht₃) :
    htableAddRoom rehash ht hash p = .ok { ht₃ with elems := ht₃.elems + 1 } := by
  rw [htableAddRoom, hrehash, ok_bind, if_neg hp]
  dsimp only
  rw [hupdate, hadd, ok_bind]

theorem htableAdd_eq {calloc : Bool} {ht₁ : Htable}
    (hdouble : (if ht.max < ht.elems + 1 then doubleTable rehash calloc ht else .ok (some ht)) =
      .ok (some ht₁)) (hroom : htableAddRoom rehash ht₁ hash p = .ok ht') :
    htableAdd rehash calloc ht hash p = .ok (true, ht') := by
  rw [htableAdd, hdouble, ok_bind]
  dsimp only
  rw [hroom, ok_bind]

theorem htableAddRoom_filled (h : Filled rehash ht t l) (hA : Addresses A) (hapart : Apart A)
    (hl : ∀ q ∈ l, q ∈ A) (hp : p ∈ A) (hbegun : Begun A ht) (hmax : ht.elems + 1 ≤ ht.max) :
    ∃ ht' t', htableAddRoom rehash ht (rehash p) p = .ok ht' ∧ Filled rehash ht' t' (p :: l) ∧
      First A ht' := by
  obtain ⟨ht₁, t₁, hrehash, h₁, hbegun₁, hmax₁, hroom₁, -, -⟩ :=
    rehash_if_filled h (hbegun.shows h hA hapart hl) hbegun hmax
  obtain ⟨ht₂, t₂, hupdate, h₂, hfirst, hcommon, helems, hdeleted, hmax₂, hmaxWithDeleted⟩ :=
    update_if_filled h₁ hA hapart hl hp hbegun₁
  obtain ⟨t', hadd, h'⟩ := htAdd_filled h₂ (hfirst.shows hA hapart hp hcommon)
    (by rw [helems, hmax₂]; exact hmax₁) (by rw [helems, hdeleted, hmaxWithDeleted]; exact hroom₁)
  exact ⟨_, t', htableAddRoom_eq (hA p hp).1 hrehash hupdate hadd, h', hfirst⟩

/-- What a table holds: nothing after `htable_init`, or what is in its words. -/
def Holds (A : Set Word) (rehash : Word → Word) (ht : Htable) (l : List Word) : Prop :=
  ht = htableInit ∧ l = [] ∨ ∃ t, Filled rehash ht t l ∧ First A ht ∧ ∀ q ∈ l, q ∈ A

/-- `double_table`, if it is needed. -/
theorem double_if_filled (h : Holds A rehash ht l) (hA : Addresses A) (hapart : Apart A)
    (calloc : Bool) :
    (if ht.max < ht.elems + 1 then doubleTable rehash calloc ht else .ok (some ht)) = .ok none ∧
        (calloc = false ∨ 3 * 2 ^ 30 / 4 ≤ l.length) ∨
      ∃ ht' t', (if ht.max < ht.elems + 1 then doubleTable rehash calloc ht else .ok (some ht)) =
          .ok (some ht') ∧ Filled rehash ht' t' l ∧ Begun A ht' ∧ ht'.elems + 1 ≤ ht'.max ∧
        ht'.commonMask = ht.commonMask ∧ ht'.commonBits = ht.commonBits ∧ ∀ q ∈ l, q ∈ A := by
  rcases h with ⟨rfl, rfl⟩ | ⟨t, h, hfirst, hl⟩
  · have hregain : htableInit.doubled.regainPerfect =
        { htableInit with perfectBit := 1 }.doubled := by
      decide +kernel
    rcases doubleTable_eq (l := []) rehash hregain rfl
        ⟨rfl, by decide, by decide, by decide⟩ [] rfl .rfl rfl (by rintro _ ⟨⟩) (by decide)
        calloc with
      ⟨hnone, hwhy⟩ | ⟨ht', t', hsome, hfilled, hmax, helems, hmask, hbits⟩
    · exact .inl ⟨hnone, .inl (hwhy.resolve_right (by decide))⟩
    · exact .inr ⟨ht', t', hsome, hfilled, .inr ⟨helems, hmask, hbits⟩, hmax, hmask, hbits,
        by rintro _ ⟨⟩⟩
  · by_cases hfull : ht.max < ht.elems + 1
    · rw [if_pos hfull]
      have hroom := h.room
      rw [h.max] at hroom
      have hcommon : Common ht.doubled :=
        ⟨h.sound.perfect, h.sound.low, h.sound.even, h.sound.common⟩
      have hshows := Begun.shows (.inl hfirst) h hA hapart hl
      rcases doubleTable_eq rehash (regainPerfect_of_common hcommon) rfl h.sound.toCommon
          t (by rw [h.sound.table]; rfl) h.held h.elems hshows hroom calloc with
        ⟨hnone, hwhy⟩ | ⟨ht', t', hsome, hfilled, hmax, helems, hmask, hbits⟩
      · refine .inl ⟨hnone, hwhy.imp_right fun hbits => ?_⟩
        have hmaxValue := h.max
        rw [show ht.bits = 30 from Nat.le_antisymm h.bits.2 hbits] at hmaxValue
        have := h.elems
        omega
      · refine .inr ⟨ht', t', hsome, hfilled, .inl ?_, hmax, hmask, hbits, hl⟩
        unfold First
        rw [hmask, hbits]
        exact hfirst
    · rw [if_neg hfull]
      exact .inr ⟨ht, t, rfl, h, .inl hfirst, Nat.le_of_not_lt hfull, rfl, rfl, hl⟩

/-- `htable_add` adds the address, or there is no room for a table twice as large. -/
theorem htableAdd_holds (h : Holds A rehash ht l) (hA : Addresses A) (hapart : Apart A) (hp : p ∈ A)
    (calloc : Bool) :
    ∃ added ht', htableAdd rehash calloc ht (rehash p) p = .ok (added, ht') ∧
      (added = true ∧ Holds A rehash ht' (p :: l) ∨ added = false ∧ ht' = ht ∧
        (calloc = false ∨ 3 * 2 ^ 30 / 4 ≤ l.length)) := by
  rcases double_if_filled h hA hapart calloc with
    ⟨hnone, hwhy⟩ | ⟨ht₁, t₁, hsome, h₁, hbegun, hmax, -, -, hl⟩
  · refine ⟨false, ht, ?_, .inr ⟨rfl, rfl, hwhy⟩⟩
    rw [htableAdd, hnone, ok_bind]
  · obtain ⟨ht', t', hroom, h', hfirst⟩ := htableAddRoom_filled h₁ hA hapart hl hp hbegun hmax
    refine ⟨true, ht', htableAdd_eq hsome hroom, .inl ⟨rfl, .inr ⟨t', h', hfirst, fun q hq => ?_⟩⟩⟩
    rcases List.mem_cons.mp hq with rfl | hq
    · exact hp
    · exact hl q hq

-- ---------------------------------------------------------------------------
-- Looking up
-- ---------------------------------------------------------------------------

/-- What a loop goes through from an answer of `htable_firstval` or `htable_nextval` on. -/
inductive Walk (ht : Htable) (hash : Word) :
    Option Word × HtableIter → List (Word × HtableIter) → Prop
  | done (i : HtableIter) : Walk ht hash (none, i) []
  | found (c : Word) (i : HtableIter) {r : Option Word × HtableIter}
      {rest : List (Word × HtableIter)} :
      htableNextval ht i hash = .ok r → Walk ht hash r rest →
        Walk ht hash (some c, i) ((c, i) :: rest)

theorem htableValsLoop_walk {r : Option Word × HtableIter} {found : List (Word × HtableIter)}
    (h : Walk ht hash r found) : ∀ fuel, found.length < fuel →
      htableValsLoop ht hash fuel r = .ok found := by
  induction h with
  | done i =>
    rintro (_ | fuel) hlt
    · exact absurd hlt (Nat.not_lt_zero _)
    · rfl
  | found c i hnext _ ih =>
    rintro (_ | fuel) hlt
    · exact absurd hlt (Nat.not_lt_zero _)
    · rw [htableValsLoop, hnext, ok_bind, ih fuel (Nat.lt_of_succ_lt_succ hlt), ok_bind]

theorem htableDelLoop_walk {r : Option Word × HtableIter} {found : List (Word × HtableIter)}
    (h : Walk ht hash r found) : ∀ fuel, found.length < fuel →
      p ∉ found.map Prod.fst ∧ htableDelLoop ht hash p fuel r = .ok (false, ht) ∨
        ∃ i, (p, i) ∈ found ∧
          htableDelLoop ht hash p fuel r = (do let ht ← htableDelval ht i; .ok (true, ht)) := by
  induction h with
  | done i =>
    rintro (_ | fuel) hlt
    · exact absurd hlt (Nat.not_lt_zero _)
    · exact .inl ⟨List.not_mem_nil, rfl⟩
  | @found c i r rest hnext _ ih =>
    rintro (_ | fuel) hlt
    · exact absurd hlt (Nat.not_lt_zero _)
    · rw [htableDelLoop]
      by_cases hcp : c = p
      · refine .inr ⟨i, ?_, if_pos hcp⟩
        rw [hcp]
        exact List.mem_cons_self
      · rw [if_neg hcp, hnext, ok_bind]
        rcases ih fuel (Nat.lt_of_succ_lt_succ hlt) with ⟨hnone, hloop⟩ | ⟨j, hmem, hloop⟩
        · refine .inl ⟨?_, hloop⟩
          rw [List.map_cons, List.mem_cons, not_or]
          exact ⟨Ne.symm hcp, hnone⟩
        · exact .inr ⟨j, List.mem_cons_of_mem _ hmem, hloop⟩

/-- The bits that the entry of an element with this hash has, that is `d` places from home. -/
def extraAt (ht : Htable) (hash : Word) (d : Nat) : Word :=
  ht.getHashPtrBits hash ||| if d = 0 then 1 else 0

/-- What is found `d` places from home. -/
def foundAt (ht : Htable) (t : List Word) (hash : Word) (d : Nat) : Option (Word × HtableIter) :=
  let i := (hash.toNat + d) % t.length
  let e := t.getD i 0
  if e ≠ 1 ∧ ht.getExtraPtrBits e = ht.extraAt hash d then some (ht.getRawPtr e, i) else none

theorem foundAt_eq (he : t[(hash.toNat + d) % t.length]? = some e) :
    ht.foundAt t hash d = if e ≠ 1 ∧ ht.getExtraPtrBits e = ht.extraAt hash d then
      some (ht.getRawPtr e, (hash.toNat + d) % t.length) else none := by
  have hget : t.getD ((hash.toNat + d) % t.length) 0 = e := by
    rw [List.getD_eq_getElem?_getD, he, Option.getD_some]
  unfold foundAt
  dsimp only
  rw [hget]

/-- How far from home the first empty slot is. -/
def stop (ht : Htable) (t : List Word) (hash : Word) : Nat :=
  (circle (ht.slots t) hash.toNat).findIdx Cell.isEmpty

theorem stop_lt (hash : Word) (hempty : .empty ∈ ht.slots t) : ht.stop t hash < t.length := by
  have hslots : (ht.slots t).length = t.length := length_slots
  rw [← hslots, ← length_circle (t := ht.slots t) (h := hash.toNat)]
  exact List.findIdx_lt_length_of_exists ⟨.empty, mem_circle.mpr hempty, rfl⟩

theorem run_eq : run (ht.slots t) hash.toNat =
    (List.range (min (ht.stop t hash) t.length)).map (ahead (ht.slots t) hash.toNat) := by
  unfold run
  rw [List.takeWhile_eq_take_findIdx_not]
  simp only [Bool.not_not]
  show (circle (ht.slots t) hash.toNat).take (ht.stop t hash) = _
  rw [circle, ← List.map_take, List.take_range, length_slots]

/-- No word before it is zero. -/
theorem word_of_lt_stop (hlt : d < ht.stop t hash) (hd : d < t.length) :
    ∃ e, t[(hash.toNat + d) % t.length]? = some e ∧ e ≠ 0 ∧
      ahead (ht.slots t) hash.toNat d = ht.meaning e := by
  obtain ⟨e, he, hahead⟩ := exists_word ht (Nat.lt_of_le_of_lt (Nat.zero_le _) hd)
    hash.toNat d
  refine ⟨e, he, fun h0 => ?_, hahead⟩
  have hnot := List.not_of_lt_findIdx hlt
  rw [getElem_circle, hahead, h0] at hnot
  cases hnot

theorem word_stop (hempty : .empty ∈ ht.slots t) :
    t[(hash.toNat + ht.stop t hash) % t.length]? = some 0 := by
  have hlt := stop_lt hash hempty
  obtain ⟨e, he, hahead⟩ := exists_word ht (Nat.lt_of_le_of_lt (Nat.zero_le _) hlt)
    hash.toNat (ht.stop t hash)
  have hget := List.findIdx_getElem (w := (by
    rw [length_circle, length_slots]
    exact hlt : (circle (ht.slots t) hash.toNat).findIdx Cell.isEmpty < _))
  rw [getElem_circle] at hget
  rw [he, meaning_eq_empty.mp (hahead.symm.trans (isEmpty_eq_true.mp hget))]

/-- What the loop of `htable_val` comes to: nothing, or the next one that is found. -/
theorem htableValLoop_eq (hash perfect : Word) (hs : Sound rehash ht t)
    (hempty : .empty ∈ ht.slots t) :
    ∀ (fuel d : Nat), d ≤ ht.stop t hash → ht.stop t hash - d < fuel →
      (∀ j, d ≤ j → ht.extraAt hash j &&& ~~~perfect = ht.extraAt hash (j + 1)) →
      ∃ r, htableValLoop ht perfect fuel ((hash.toNat + d) % t.length) (ht.extraAt hash d) = .ok r ∧
        ((r.1 = none ∧ (List.range' d (ht.stop t hash - d)).filterMap (ht.foundAt t hash) = []) ∨
          ∃ c j, r = (some c, (hash.toNat + j) % t.length) ∧ d ≤ j ∧ j < ht.stop t hash ∧
            (List.range' d (ht.stop t hash - d)).filterMap (ht.foundAt t hash) =
              (c, (hash.toNat + j) % t.length) ::
                (List.range' (j + 1) (ht.stop t hash - (j + 1))).filterMap (ht.foundAt t hash))
  | 0, d, _, hlt, _ => absurd hlt (Nat.not_lt_zero _)
  | fuel + 1, d, hle, hlt, hextra => by
    rw [htableValLoop]
    rcases Nat.lt_or_eq_of_le hle with hlt' | rfl
    · have hrange : List.range' d (ht.stop t hash - d) =
          d :: List.range' (d + 1) (ht.stop t hash - (d + 1)) := by
        rw [show ht.stop t hash - d = ht.stop t hash - (d + 1) + 1 by omega, List.range'_succ]
      obtain ⟨e, he, hne, -⟩ := word_of_lt_stop hlt'
        (Nat.lt_trans hlt' (stop_lt hash hempty))
      rw [slot_eq hs.table he, ok_bind, if_neg hne]
      have hfound : ht.foundAt t hash d = _ := foundAt_eq he
      by_cases hmatch : e ≠ 1 ∧ ht.getExtraPtrBits e = ht.extraAt hash d
      · rw [if_pos hmatch] at hfound ⊢
        refine ⟨_, rfl, .inr ⟨_, d, rfl, Nat.le_refl d, hlt', ?_⟩⟩
        rw [hrange, List.filterMap_cons_some hfound]
      · rw [if_neg hmatch] at hfound ⊢
        have hnext : ht.nextOff ((hash.toNat + d) % 2 ^ ht.bits) = _ := nextOff_mod _
        rw [← hs.length] at hnext
        rw [hnext, hextra d (Nat.le_refl d), hrange, List.filterMap_cons_none hfound, Nat.add_assoc]
        obtain ⟨r, hr, hcases⟩ := htableValLoop_eq hash perfect hs hempty fuel (d + 1) hlt' (by omega)
          fun j hj => hextra j (Nat.le_of_succ_le hj)
        refine ⟨r, hr, hcases.imp_right ?_⟩
        rintro ⟨c, j, hrj, hj, hrest⟩
        exact ⟨c, j, hrj, Nat.le_of_succ_le hj, hrest⟩
    · rw [slot_eq hs.table (word_stop hempty), ok_bind, if_pos rfl]
      refine ⟨_, rfl, .inl ⟨rfl, ?_⟩⟩
      rw [Nat.sub_self]
      rfl

/-- Only the first place is perfect. -/
theorem extraAt_and (hperfect : ht.perfectBit = 1) (j : Nat) :
    ht.extraAt hash j &&& ~~~(1 : Word) = ht.extraAt hash (j + 1) := by
  have hlow := getHashPtrBits_low hash hperfect
  unfold extraAt
  rw [if_neg (Nat.succ_ne_zero j)]
  refine word_ext fun i hi => ?_
  have hone := getLsbD_one_eq i
  have hzero : (0 : Word).getLsbD i = false := getLsbD_of_eq_zero rfl i
  by_cases hi0 : i = 0
  · subst hi0
    split_ifs <;> simp only [BitVec.getLsbD_and, BitVec.getLsbD_or, BitVec.getLsbD_not, hlow, hone,
      hzero] <;> decide
  · rw [decide_eq_false hi0] at hone
    split_ifs <;> simp only [BitVec.getLsbD_and, BitVec.getLsbD_or, BitVec.getLsbD_not, hi, hone,
      hzero] <;> simp

/-- From an answer on, the loop goes through what is found. -/
theorem walk_of_answer (hs : Sound rehash ht t) (hempty : .empty ∈ ht.slots t) :
    ∀ (left d : Nat) (r : Option Word × HtableIter), ht.stop t hash - d ≤ left →
      ((r.1 = none ∧ (List.range' d (ht.stop t hash - d)).filterMap (ht.foundAt t hash) = []) ∨
        ∃ c j, r = (some c, (hash.toNat + j) % t.length) ∧ d ≤ j ∧ j < ht.stop t hash ∧
          (List.range' d (ht.stop t hash - d)).filterMap (ht.foundAt t hash) =
            (c, (hash.toNat + j) % t.length) ::
              (List.range' (j + 1) (ht.stop t hash - (j + 1))).filterMap (ht.foundAt t hash)) →
      Walk ht hash r ((List.range' d (ht.stop t hash - d)).filterMap (ht.foundAt t hash))
  | left, d, (none, i), _, .inl ⟨_, hnil⟩ => by
    rw [hnil]
    exact .done i
  | left, d, (some c, i), _, .inl ⟨hnone, _⟩ => by cases hnone
  | 0, d, r, hleft, .inr ⟨c, j, _, hd, hj, _⟩ => by omega
  | left + 1, d, r, hleft, .inr ⟨c, j, hr, hd, hj, hrange⟩ => by
    rw [hr, hrange]
    have hlen := stop_lt hash hempty
    obtain ⟨r', hr', hcases⟩ := htableValLoop_eq hash 0 hs hempty
      (2 ^ ht.bits + 1) (j + 1) hj (by rw [← hs.length]; omega) fun x hx => by
        unfold extraAt
        rw [if_neg (by omega), if_neg (Nat.succ_ne_zero x)]
        exact BitVec.and_allOnes
    refine .found c _ ?_ (walk_of_answer hs hempty left (j + 1) r' (by omega) hcases)
    have hextra : ht.extraAt hash (j + 1) = ht.getHashPtrBits hash ||| 0 := by
      unfold extraAt
      rw [if_neg (Nat.succ_ne_zero j)]
    have hnext : ht.nextOff ((hash.toNat + j) % 2 ^ ht.bits) = _ := nextOff_mod _
    rw [← hs.length] at hnext
    rw [htableNextval, htableVal, hnext, ← hextra]
    exact hr'

/-- The loop over `htable_firstval` and `htable_nextval`. -/
theorem walk_first (hs : Sound rehash ht t) (hempty : .empty ∈ ht.slots t) (hash : Word) :
    ∃ r, htableFirstval ht hash = .ok r ∧
      Walk ht hash r ((List.range (ht.stop t hash)).filterMap (ht.foundAt t hash)) := by
  have hlen := stop_lt hash hempty
  obtain ⟨r, hr, hcases⟩ := htableValLoop_eq hash 1 hs hempty
    (2 ^ ht.bits + 1) 0 (Nat.zero_le _) (by rw [← hs.length]; omega)
    fun j _ => extraAt_and hs.perfect j
  refine ⟨r, ?_, ?_⟩
  · have hhome : ht.hashBucket hash = (hash.toNat + 0) % t.length := by
      rw [hashBucket_eq, hs.length, Nat.add_zero]
    rw [htableFirstval, htableVal, hhome, hs.perfect]
    exact hr
  · have hwalk := walk_of_answer hs hempty (ht.stop t hash) 0 r (Nat.sub_le _ _) hcases
    rwa [Nat.sub_zero, ← List.range_eq_range'] at hwalk

/-- What is found is where it says. -/
theorem foundAt_slot (hd : d < ht.stop t hash) (hlt : d < t.length) {c : Word} {i : HtableIter}
    (h : ht.foundAt t hash d = some (c, i)) :
    ∃ e, t[i]? = some e ∧ entryIsValid e = true ∧ ht.getRawPtr e = c := by
  obtain ⟨e, he, hne, -⟩ := word_of_lt_stop hd hlt
  rw [foundAt_eq he] at h
  split_ifs at h with hmatch
  obtain ⟨rfl, rfl⟩ := Prod.mk.inj (Option.some.inj h)
  exact ⟨e, he, entryIsValid_iff.mpr ⟨hne, hmatch.1⟩, rfl⟩

/-- What has the hash is found. -/
theorem foundAt_filter (hs : Sound rehash ht t) (hd : d < ht.stop t hash) (hlt : d < t.length) :
    ((ht.foundAt t hash d).map Prod.fst).filter (fun c => decide (rehash c = hash)) =
      (ahead (ht.slots t) hash.toNat d).elem.filter fun c => decide (rehash c = hash) := by
  obtain ⟨e, he, hne, hahead⟩ := word_of_lt_stop hd hlt
  rw [foundAt_eq he, hahead]
  by_cases h1 : e = 1
  · rw [if_neg fun hmatch => hmatch.1 h1, h1]
    rfl
  · have hvalid := entryIsValid_iff.mpr ⟨hne, h1⟩
    rw [meaning_of_valid hvalid]
    by_cases hhash : rehash (ht.getRawPtr e) = hash
    · have hextra := hs.extra _ e he hvalid
      rw [hhash] at hextra
      have hhome : ht.hashBucket hash = (hash.toNat + d) % t.length ↔ d = 0 := by
        rw [hashBucket_eq, ← hs.length, ← Nat.add_zero hash.toNat]
        rw [Nat.add_zero (hash.toNat)]
        constructor
        · intro hmod
          refine (eq_of_mod_eq (k := hash.toNat) (d := 0) (by omega) hlt ?_).symm
          rwa [Nat.add_zero]
        · rintro rfl
          rw [Nat.add_zero]
      have hmatch : e ≠ 1 ∧ ht.getExtraPtrBits e = ht.extraAt hash d := by
        refine ⟨h1, hextra.trans ?_⟩
        unfold extraAt
        by_cases hd0 : d = 0
        · rw [if_pos (hhome.mpr hd0), if_pos hd0]
        · rw [if_neg fun h => hd0 (hhome.mp h), if_neg hd0]
      rw [if_pos hmatch]
      rfl
    · have hnone :
          Option.filter (fun c => decide (rehash c = hash)) (some (ht.getRawPtr e)) = none := by
        rw [Option.filter_some, if_neg (by rw [decide_eq_true_eq]; exact hhash)]
      rw [show (Cell.used (ht.getRawPtr e)).elem = some (ht.getRawPtr e) from rfl, hnone]
      split_ifs
      · exact hnone
      · rfl

/-- What is found has all elements with the hash, each once. -/
theorem found_perm (h : Filled rehash ht t l) (hash : Word) :
    ((((List.range (ht.stop t hash)).filterMap (ht.foundAt t hash)).map Prod.fst).filter
      fun c => decide (rehash c = hash)).Perm (l.filter fun c => decide (rehash c = hash)) := by
  have hlt := stop_lt hash (exists_empty h.occupied_lt)
  have hrun := filter_held_run h.findable (h := hash.toNat) (p := fun c => decide (rehash c = hash))
    fun c hc => by
      rw [homeOf, of_decide_eq_true hc]
  refine .trans (.of_eq ?_) (hrun.trans (h.held.filter _))
  rw [run_eq, Nat.min_eq_left (Nat.le_of_lt hlt), OpenAddressing.held, List.filterMap_map,
    List.map_filterMap, List.filter_filterMap, List.filter_filterMap]
  refine List.filterMap_congr fun d hd => ?_
  rw [List.mem_range] at hd
  exact foundAt_filter h.sound hd (Nat.lt_trans hd hlt)

/-- A loop over the elements with a hash comes to all of them. -/
theorem htableVals_filled (h : Filled rehash ht t l) (hash : Word) :
    ∃ found, htableVals ht hash = .ok found ∧
      (∀ c i, (c, i) ∈ found → ∃ e, t[i]? = some e ∧ entryIsValid e = true ∧ ht.getRawPtr e = c) ∧
      ((found.map Prod.fst).filter fun c => decide (rehash c = hash)).Perm
        (l.filter fun c => decide (rehash c = hash)) := by
  have hlt := stop_lt hash (exists_empty h.occupied_lt)
  obtain ⟨r, hr, hwalk⟩ := walk_first h.sound (exists_empty h.occupied_lt) hash
  refine ⟨_, ?_, fun c i hci => ?_, found_perm h hash⟩
  · rw [htableVals, hr, ok_bind]
    refine htableValsLoop_walk hwalk _ ?_
    have hle := List.length_filterMap_le (ht.foundAt t hash) (List.range (ht.stop t hash))
    rw [List.length_range] at hle
    rw [← h.sound.length]
    omega
  · obtain ⟨d, hd, hfound⟩ := List.mem_filterMap.mp hci
    rw [List.mem_range] at hd
    exact foundAt_slot hd (Nat.lt_trans hd hlt) hfound

-- ---------------------------------------------------------------------------
-- Deleting
-- ---------------------------------------------------------------------------

/-- The word of an element is marked. -/
theorem htableDelval_filled (h : Filled rehash ht t l) (he : t[i]? = some e)
    (hvalid : entryIsValid e = true) (hraw : ht.getRawPtr e = p) :
    htableDelval ht i =
        .ok { ht with table := some (t.set i 1), elems := ht.elems - 1, deleted := ht.deleted + 1 } ∧
      Filled rehash { ht with
        table := some (t.set i 1), elems := ht.elems - 1, deleted := ht.deleted + 1 }
        (t.set i 1) (l.erase p) := by
  obtain ⟨hlt, -⟩ := List.getElem?_eq_some_iff.mp he
  have hmeaning : ht.meaning e = .used p := by rw [meaning_of_valid hvalid, hraw]
  have hget : (ht.slots t)[i]? = some (ht.meaning e) := getElem?_slots he
  rw [hmeaning] at hget
  have hheld := held_set .deleted hget
  have hmarks : occupied ((ht.slots t).set i .deleted) + 1 = occupied (ht.slots t) + 1 :=
    occupied_set .deleted hget
  have hfindable := findable_set_deleted h.findable
    (by rw [length_slots]; exact hlt : i < (ht.slots t).length)
  have hslots : ht.slots (t.set i 1) = (ht.slots t).set i .deleted := slots_set 1
  have hcons : (p :: held (ht.slots (t.set i 1))).Perm l := by
    rw [hslots]
    exact hheld.symm.trans h.held
  obtain ⟨hmem, herase⟩ := List.cons_perm_iff_perm_erase.mp hcons
  have hpos := List.length_pos_of_mem hmem
  have helems := h.elems
  constructor
  · have hin : ¬2 ^ ht.bits ≤ i := by
      rw [← h.sound.length]
      exact Nat.not_le_of_lt hlt
    rw [htableDelval, if_neg hin, slot_eq h.sound.table he, ok_bind,
      if_pos hvalid, put_eq h.sound.table hlt, ok_bind]
  · have hs := h.sound
    refine ⟨⟨rfl, (List.length_set ..).trans hs.length, hs.perfect, hs.low, hs.even, hs.common,
      fun k e' hk he' => ?_⟩, ?_, herase, ?_, ?_, h.bits, h.max, h.maxWithDeleted, ?_, ?_⟩
    · rw [List.getElem?_set] at hk
      split_ifs at hk
      · obtain rfl := Option.some.inj hk
        cases he'
      · exact hs.extra k e' hk he'
    · show Findable (homeOf rehash) (ht.slots (t.set i 1))
      rw [hslots]
      exact hfindable
    · show ht.elems - 1 = (l.erase p).length
      rw [List.length_erase_of_mem hmem, helems]
    · show occupied (ht.slots (t.set i 1)) ≤ ht.elems - 1 + (ht.deleted + 1)
      have := h.marks
      rw [hslots]
      omega
    · show ht.elems - 1 ≤ ht.max
      have := h.room
      omega
    · show ht.elems - 1 + (ht.deleted + 1) ≤ ht.maxWithDeleted
      have := h.roomWithDeleted
      omega

theorem htableDelval_holds (h : Filled rehash ht t l) (hfirst : First A ht) (hl : ∀ q ∈ l, q ∈ A)
    (he : t[i]? = some e) (hvalid : entryIsValid e = true) (hraw : ht.getRawPtr e = p) :
    ∃ ht', htableDelval ht i = .ok ht' ∧ Holds A rehash ht' (l.erase p) := by
  obtain ⟨hrun, hfilled⟩ := htableDelval_filled h he hvalid hraw
  exact ⟨_, hrun, .inr ⟨_, hfilled, hfirst, fun q hq => hl q (List.mem_of_mem_erase hq)⟩⟩

theorem htableFirstval_init (hash : Word) : htableFirstval htableInit hash = .ok (none, 0) := by
  have hbucket : htableInit.hashBucket hash = 0 := by
    rw [hashBucket_eq]
    exact Nat.mod_one _
  rw [htableFirstval, hbucket]
  rfl

theorem htableVals_init (hash : Word) : htableVals htableInit hash = .ok [] := by
  rw [htableVals, htableFirstval_init]
  rfl

/-- What a loop over the elements with a hash comes to is held, and all that have the hash are. -/
theorem htableVals_holds (h : Holds A rehash ht l) (hash : Word) :
    ∃ found, htableVals ht hash = .ok found ∧
      (∀ c i, (c, i) ∈ found →
        c ∈ l ∧ ∃ ht', htableDelval ht i = .ok ht' ∧ Holds A rehash ht' (l.erase c)) ∧
      ((found.map Prod.fst).filter fun c => decide (rehash c = hash)).Perm
        (l.filter fun c => decide (rehash c = hash)) := by
  rcases h with ⟨rfl, rfl⟩ | ⟨t, h, hfirst, hl⟩
  · exact ⟨[], htableVals_init hash, by rintro _ _ ⟨⟩, .refl _⟩
  · obtain ⟨found, hrun, hslot, hperm⟩ := htableVals_filled h hash
    refine ⟨found, hrun, fun c i hci => ?_, hperm⟩
    obtain ⟨e, he, hvalid, hraw⟩ := hslot c i hci
    refine ⟨?_, htableDelval_holds h hfirst hl he hvalid hraw⟩
    rw [← h.held.mem_iff, mem_held, ← hraw, ← meaning_of_valid hvalid]
    exact List.mem_of_getElem? (getElem?_slots he)

/-- `htable_del` deletes the address, if it is there. -/
theorem htableDel_holds (h : Holds A rehash ht l) (p : Word) :
    ∃ ht', htableDel ht (rehash p) p = .ok (decide (p ∈ l), ht') ∧
      Holds A rehash ht' (l.erase p) := by
  rcases h with ⟨rfl, rfl⟩ | ⟨t, h, hfirst, hl⟩
  · refine ⟨htableInit, ?_, .inl ⟨rfl, rfl⟩⟩
    rw [htableDel, htableFirstval_init]
    rfl
  · have hlt := stop_lt (rehash p) (exists_empty h.occupied_lt)
    obtain ⟨r, hr, hwalk⟩ := walk_first h.sound (exists_empty h.occupied_lt) (rehash p)
    have hle := List.length_filterMap_le (ht.foundAt t (rehash p)) (List.range (ht.stop t (rehash p)))
    rw [List.length_range] at hle
    rw [htableDel, hr, ok_bind]
    rcases htableDelLoop_walk (p := p) hwalk (2 ^ ht.bits + 1)
      (by rw [← h.sound.length]; omega) with ⟨hnone, hloop⟩ | ⟨i, hmem, hloop⟩
    · have hp : p ∉ l := by
        intro hp
        have hall : p ∈ l.filter fun c => decide (rehash c = rehash p) :=
          List.mem_filter.mpr ⟨hp, decide_eq_true rfl⟩
        exact hnone (List.mem_of_mem_filter ((found_perm h (rehash p)).mem_iff.mpr hall))
      refine ⟨ht, ?_, ?_⟩
      · rw [hloop, decide_eq_false hp]
      · rw [List.erase_of_not_mem hp]
        exact .inr ⟨t, h, hfirst, hl⟩
    · obtain ⟨d, hd, hfound⟩ := List.mem_filterMap.mp hmem
      rw [List.mem_range] at hd
      obtain ⟨e, he, hvalid, hraw⟩ := foundAt_slot hd (Nat.lt_trans hd hlt) hfound
      have hp : p ∈ l := by
        rw [← h.held.mem_iff, mem_held, ← hraw, ← meaning_of_valid hvalid]
        exact List.mem_of_getElem? (getElem?_slots he)
      obtain ⟨ht', hrun, hholds⟩ := htableDelval_holds h hfirst hl he hvalid hraw
      refine ⟨ht', ?_, hholds⟩
      rw [hloop, hrun, ok_bind, decide_eq_true hp]

-- ---------------------------------------------------------------------------
-- Going through all
-- ---------------------------------------------------------------------------

/-- The loop of `htable_first` and `htable_next` comes to the next element, if there is one. -/
theorem htableNextLoop_eq (htable : ht.table = some t) : ∀ (left off : Nat), off + left = t.length →
    ∃ r, htableNextLoop ht left off = .ok r ∧
      (r.1 = none ∧ held (ht.slots (t.drop off)) = [] ∨
        ∃ (c : Word) (i : Nat), r = (some c, i) ∧ off ≤ i ∧ i < t.length ∧
          held (ht.slots (t.drop off)) = c :: held (ht.slots (t.drop (i + 1))))
  | 0, off, hoff => by
    refine ⟨_, rfl, .inl ⟨rfl, ?_⟩⟩
    rw [List.drop_eq_nil_of_le (by omega)]
    rfl
  | left + 1, off, hoff => by
    have hlt : off < t.length := by omega
    have hget := List.getElem?_eq_getElem hlt
    have hdrop : ht.slots (t.drop off) = ht.meaning t[off] :: ht.slots (t.drop (off + 1)) := by
      rw [List.drop_eq_getElem_cons hlt]
      rfl
    rw [htableNextLoop, slot_eq htable hget, ok_bind, hdrop]
    cases hvalid : entryIsValid t[off] with
    | true =>
      rw [if_pos rfl, meaning_of_valid hvalid]
      exact ⟨_, rfl, .inr ⟨_, off, rfl, Nat.le_refl _, hlt, rfl⟩⟩
    | false =>
      rw [if_neg Bool.false_ne_true]
      obtain ⟨r, hr, hcases⟩ := htableNextLoop_eq htable left (off + 1) (by omega)
      have hheld : held (ht.meaning t[off] :: ht.slots (t.drop (off + 1))) =
          held (ht.slots (t.drop (off + 1))) := List.filterMap_cons_none (elem_meaning_eq_none hvalid)
      rw [hheld]
      refine ⟨r, hr, hcases.imp_right ?_⟩
      rintro ⟨c, i, hri, hoff', hi, hrest⟩
      exact ⟨c, i, hri, Nat.le_of_succ_le hoff', hi, hrest⟩

/-- From an answer on, the loop goes through what is held behind. -/
theorem htableAllLoop_eq (htable : ht.table = some t) (hlen : t.length = 2 ^ ht.bits) :
    ∀ (fuel off : Nat) (r : Option Word × HtableIter), off ≤ t.length → t.length - off < fuel →
      (r.1 = none ∧ held (ht.slots (t.drop off)) = [] ∨
        ∃ (c : Word) (i : Nat), r = (some c, i) ∧ off ≤ i ∧ i < t.length ∧
          held (ht.slots (t.drop off)) = c :: held (ht.slots (t.drop (i + 1)))) →
      htableAllLoop ht fuel r = .ok (held (ht.slots (t.drop off))) := by
  intro fuel
  induction fuel with
  | zero => exact fun off r _ hlt => absurd hlt (Nat.not_lt_zero _)
  | succ fuel ih =>
    rintro off ⟨c, i⟩ hle hlt (⟨hnone, hnil⟩ | ⟨c', j, hr, hoff, hj, hrest⟩)
    · cases hnone
      rw [hnil]
      rfl
    · obtain ⟨rfl, rfl⟩ := Prod.mk.inj hr
      obtain ⟨r, hr, hcases⟩ := htableNextLoop_eq htable (t.length - (i + 1)) (i + 1) (by omega)
      rw [htableAllLoop, htableNext, ← hlen, hr, ok_bind, ih (i + 1) r hj (by omega) hcases,
        ok_bind, hrest]

theorem htableAll_eq (htable : ht.table = some t) (hlen : t.length = 2 ^ ht.bits) :
    htableAll ht = .ok (held (ht.slots t)) := by
  obtain ⟨r, hr, hcases⟩ := htableNextLoop_eq htable t.length 0 (Nat.zero_add _)
  rw [htableAll, htableFirst, ← hlen, hr, ok_bind,
    htableAllLoop_eq htable hlen (t.length + 1) 0 r (Nat.zero_le _) (by omega) hcases]
  rfl

/-- A loop over all elements comes to each once. -/
theorem htableAll_holds (h : Holds A rehash ht l) :
    ∃ found, htableAll ht = .ok found ∧ found.Perm l := by
  rcases h with ⟨rfl, rfl⟩ | ⟨t, h, -, -⟩
  · exact ⟨[], rfl, .refl _⟩
  · exact ⟨_, htableAll_eq h.sound.table h.sound.length, h.held⟩

end Htable

-- ---------------------------------------------------------------------------
-- Every run
-- ---------------------------------------------------------------------------

/-- What a program makes of a table, and what was added to it and not deleted again. -/
inductive HtableReach (A : Set Word) (rehash : Word → Word) : Htable → List Word → Prop
  | init : HtableReach A rehash htableInit []
  | add {ht ht' : Htable} {l : List Word} {p : Word} {calloc : Bool} :
      HtableReach A rehash ht l → p ∈ A →
      htableAdd rehash calloc ht (rehash p) p = .ok (true, ht') → HtableReach A rehash ht' (p :: l)
  | del {ht ht' : Htable} {l : List Word} {p : Word} :
      HtableReach A rehash ht l → htableDel ht (rehash p) p = .ok (true, ht') →
      HtableReach A rehash ht' (l.erase p)
  | delval {ht ht' : Htable} {l : List Word} {hash c : Word} {i : HtableIter}
      {found : List (Word × HtableIter)} :
      HtableReach A rehash ht l → htableVals ht hash = .ok found → (c, i) ∈ found →
      htableDelval ht i = .ok ht' → HtableReach A rehash ht' (l.erase c)

/-- What a table with these elements does: it is searched by hash and gone through, and elements
are added and deleted, and nothing faults. -/
structure HtableWorks (A : Set Word) (rehash : Word → Word) (ht : Htable) (l : List Word) :
    Prop where
  vals : ∀ hash, ∃ found, htableVals ht hash = .ok found ∧ (∀ c i, (c, i) ∈ found → c ∈ l) ∧
    ((found.map Prod.fst).filter fun c => decide (rehash c = hash)).Perm
      (l.filter fun c => decide (rehash c = hash))
  all : ∃ found, htableAll ht = .ok found ∧ found.Perm l
  add : ∀ p ∈ A, ∀ calloc, ∃ added ht', htableAdd rehash calloc ht (rehash p) p = .ok (added, ht') ∧
    (calloc = true → l.length < 3 * 2 ^ 30 / 4 → added = true)
  del : ∀ p, ∃ ht', htableDel ht (rehash p) p = .ok (decide (p ∈ l), ht')
  delval : ∀ hash found, htableVals ht hash = .ok found → ∀ c i, (c, i) ∈ found →
    ∃ ht', htableDelval ht i = .ok ht'

namespace Htable

theorem holds_of_reach (h : HtableReach A rehash ht l) (hA : Addresses A) (hapart : Apart A) :
    Holds A rehash ht l := by
  induction h with
  | init => exact .inl ⟨rfl, rfl⟩
  | @add ht ht' l p calloc _ hp hadd ih =>
    obtain ⟨added, ht₁, hrun, hcases⟩ := htableAdd_holds ih hA hapart hp calloc
    rw [hadd] at hrun
    obtain ⟨rfl, rfl⟩ := Prod.mk.inj (Except.ok.inj hrun)
    rcases hcases with ⟨-, hholds⟩ | ⟨hfalse, -⟩
    · exact hholds
    · cases hfalse
  | @del ht ht' l p _ hdel ih =>
    obtain ⟨ht₁, hrun, hholds⟩ := htableDel_holds ih p
    rw [hdel] at hrun
    obtain ⟨-, rfl⟩ := Prod.mk.inj (Except.ok.inj hrun)
    exact hholds
  | @delval ht ht' l hash c i found _ hvals hmem hdelval ih =>
    obtain ⟨found', hvals', hdel, -⟩ := htableVals_holds ih hash
    rw [hvals] at hvals'
    obtain rfl := Except.ok.inj hvals'
    obtain ⟨-, ht₁, hrun, hholds⟩ := hdel c i hmem
    rw [hdelval] at hrun
    obtain rfl := Except.ok.inj hrun
    exact hholds

theorem works_of_holds (h : Holds A rehash ht l) (hA : Addresses A) (hapart : Apart A) :
    HtableWorks A rehash ht l where
  vals hash := by
    obtain ⟨found, hrun, hmem, hperm⟩ := htableVals_holds h hash
    exact ⟨found, hrun, fun c i hci => (hmem c i hci).1, hperm⟩
  all := htableAll_holds h
  add p hp calloc := by
    obtain ⟨added, ht', hrun, hcases⟩ := htableAdd_holds h hA hapart hp calloc
    refine ⟨added, ht', hrun, fun hcalloc hlen => ?_⟩
    rcases hcases with ⟨hadded, -⟩ | ⟨-, -, hwhy⟩
    · exact hadded
    · rcases hwhy with hfail | hfull
      · rw [hfail] at hcalloc
        cases hcalloc
      · omega
  del p := by
    obtain ⟨ht', hrun, -⟩ := htableDel_holds h p
    exact ⟨ht', hrun⟩
  delval hash found hvals c i hci := by
    obtain ⟨found', hvals', hdel, -⟩ := htableVals_holds h hash
    rw [hvals] at hvals'
    obtain rfl := Except.ok.inj hvals'
    obtain ⟨-, ht', hrun, -⟩ := hdel c i hci
    exact ⟨ht', hrun⟩

-- ---------------------------------------------------------------------------
-- An address that does not show
-- ---------------------------------------------------------------------------

/-- The bits of a table after its first element. -/
def Sole (q : Word) (ht : Htable) : Prop :=
  ht.commonMask = ~~~((1 : Word) <<< highBit q 63) ∧ ht.commonBits = q &&& ht.commonMask

theorem apart_singleton (hq : q ≠ 0 ∧ q.getLsbD 0 = false) : Apart {q} := by
  rintro _ rfl _ rfl -
  exact (highBit_address hq).2.1

/-- The first element of a table. -/
theorem htableAdd_first (rehash : Word → Word) (hq : q ≠ 0 ∧ q.getLsbD 0 = false) :
    ∃ ht t, htableAdd rehash true htableInit (rehash q) q = .ok (true, ht) ∧
      Filled rehash ht t [q] ∧ First {q} ht ∧ Sole q ht := by
  have hA : Addresses {q} := by
    rintro _ rfl
    exact hq
  have hapart := apart_singleton hq
  have hinit : Holds {q} rehash htableInit [] := .inl ⟨rfl, rfl⟩
  rcases double_if_filled hinit hA hapart true with
    ⟨-, hwhy⟩ | ⟨ht₁, t₁, hdouble, h₁, hbegun₁, hmax₁, hmask₁, hbits₁, hl⟩
  · exact absurd hwhy (by decide)
  obtain ⟨ht₂, t₂, hrehash, h₂, hbegun₂, hmax₂, hroom₂, hmask₂, hbits₂⟩ :=
    rehash_if_filled h₁ (hbegun₁.shows h₁ hA hapart hl) hbegun₁ hmax₁
  obtain ⟨ht₃, t₃, hupdate, h₃, hfirst, hcommon, helems, hdeleted, hmax₃, hmaxWithDeleted⟩ :=
    update_if_filled h₂ hA hapart hl rfl hbegun₂
  obtain ⟨t', hadd, h'⟩ := htAdd_filled h₃ (hfirst.shows hA hapart rfl hcommon)
    (by rw [helems, hmax₃]; exact hmax₂) (by rw [helems, hdeleted, hmaxWithDeleted]; exact hroom₂)
  refine ⟨_, t', htableAdd_eq hdouble (htableAddRoom_eq hq.1 hrehash hupdate hadd), h', hfirst, ?_⟩
  have hdiff : q &&& ht₂.commonMask ≠ ht₂.commonBits := by
    rw [hmask₂, hmask₁, hbits₂, hbits₁]
    show q &&& .allOnes 64 ≠ 0
    rw [BitVec.and_allOnes]
    exact hq.1
  have h0 : ht₂.elems = 0 := h₂.elems
  rw [if_pos hdiff, updateCommon, if_pos h0] at hupdate
  subst hupdate
  exact ⟨rfl, rfl⟩

/-- The common bits, where an address has only bits of the first one without the highest. -/
theorem update_hidden (h : Filled rehash ht t [q]) (hq : q ≠ 0 ∧ q.getLsbD 0 = false)
    (hfirst : First {q} ht) (hsole : Sole q ht) (heven : p.getLsbD 0 = false) (hsub : p &&& q = p)
    (htop : p.getLsbD (highBit q 63) = false) :
    ∃ ht₁ t₁, (if p &&& ht.commonMask ≠ ht.commonBits then updateCommon ht p else ht) = ht₁ ∧
      Sound rehash ht₁ t₁ ∧ ht₁.slots t₁ = ht.slots t ∧ p &&& ~~~ht₁.commonMask = 0 := by
  obtain ⟨hmask, hbits⟩ := hsole
  have hlt := (highBit_address hq).2.2
  have hmaskBit : ∀ i < 64, ht.commonMask.getLsbD i = !decide (i = highBit q 63) := by
    intro i hi
    rw [hmask, BitVec.getLsbD_not, getLsbD_one_shiftLeft hlt, decide_eq_true hi, Bool.true_and]
  by_cases hdiff : p &&& ht.commonMask ≠ ht.commonBits
  · have h0 : ht.elems ≠ 0 := by
      rw [h.elems]
      exact Nat.one_ne_zero
    have hA : Addresses {q} := by
      rintro _ rfl
      exact hq
    obtain ⟨t₁, hs, hslots, -, -⟩ := updateCommon_some (A := {q}) h.sound h0
      (shows_of_held h.sound hfirst hA (apart_singleton hq) fun q' hq' =>
        List.mem_singleton.mp (h.held.mem_iff.mp hq')) heven
    refine ⟨_, t₁, if_pos hdiff, hs, hslots, ?_⟩
    rw [updateCommon_of_elems h0 h.sound.table]
    show p &&& ~~~(ht.commonMask &&& ~~~(ht.commonBits ^^^ (p &&& ht.commonMask))) = 0
    refine word_ext fun i hi => ?_
    have hsubBit := congrArg (·.getLsbD i) hsub
    have hmaskBit' := hmaskBit i hi
    rw [hbits]
    simp only [BitVec.getLsbD_and, BitVec.getLsbD_xor, BitVec.getLsbD_not, hi, decide_true,
      Bool.true_and, getLsbD_of_eq_zero rfl] at hsubBit ⊢
    by_cases hitop : i = highBit q 63
    · rw [hitop, htop, Bool.false_and]
    · rw [hmaskBit', decide_eq_false hitop]
      revert hsubBit
      cases p.getLsbD i <;> cases q.getLsbD i <;> simp
  · refine ⟨ht, t, if_neg hdiff, h.sound, rfl, ?_⟩
    refine word_ext fun i hi => ?_
    rw [BitVec.getLsbD_and, BitVec.getLsbD_not, hmaskBit i hi, getLsbD_of_eq_zero rfl]
    by_cases hitop : i = highBit q 63
    · rw [hitop, htop, Bool.false_and]
    · rw [decide_eq_false hitop, decide_eq_true hi, Bool.not_false, Bool.not_true, Bool.and_false,
        Bool.and_false]

/-- The entry of an address that shows no bits is not an entry. -/
theorem htAdd_hidden (hs : Sound rehash ht t) (hfree : ∃ s ∈ ht.slots t, s.elem = none)
    (hhidden : p &&& ~~~ht.commonMask = 0) :
    ∃ t', htAdd ht p 0 = .ok { ht with table := some t' } ∧ t'.length = t.length ∧
      (held (ht.slots t')).Perm (held (ht.slots t)) := by
  have hlt := firstFree_lt (h := 0) hfree
  rw [length_slots] at hlt
  have hloop := htAddLoop_eq hs.table hs.length hfree 0 ht.perfectBit (2 ^ ht.bits) 0
    (Nat.zero_le _) (by rw [Nat.sub_zero, ← hs.length]; exact hlt)
  obtain ⟨s, hslot, hnone⟩ := insert_slot hfree (fun _ => 0) p
  rw [length_slots, hs.length] at hslot
  have hbucket : ht.hashBucket 0 = (0 + 0) % 2 ^ ht.bits := hashBucket_eq _
  have hk : (0 + firstFree (ht.slots t) 0) % 2 ^ ht.bits < t.length := by
    rw [hs.length]
    exact Nat.mod_lt _ (Nat.two_pow_pos _)
  obtain ⟨w, hw⟩ : ∃ w, w = ht.makeHval p (ht.getHashPtrBits 0 |||
      if 0 = firstFree (ht.slots t) 0 then ht.perfectBit else 0) := ⟨_, rfl⟩
  have hinvalid : entryIsValid w = false := by
    have hhash : ht.getHashPtrBits 0 = 0 := by
      unfold getHashPtrBits
      simp
    rw [hw, makeHval, hhidden, hhash, hs.perfect]
    split_ifs <;> rfl
  refine ⟨t.set ((0 + firstFree (ht.slots t) 0) % 2 ^ ht.bits) w, ?_, List.length_set .., ?_⟩
  · rw [htAdd, hbucket, hloop, ok_bind]
    dsimp only
    rw [← hw, put_eq hs.table hk]
  · have hset := held_set (ht.meaning w) hslot
    rw [hnone, elem_meaning_eq_none hinvalid] at hset
    rw [slots_set]
    exact hset.symm

/-- Such an address is lost. -/
theorem lost_of_hidden (hq : q ≠ 0 ∧ q.getLsbD 0 = false) (hp : p ≠ 0 ∧ p.getLsbD 0 = false)
    (hsub : p &&& q = p) (htop : p.getLsbD (highBit q 63) = false) :
    ∃ ht ht' found, htableAdd (fun _ => 0) true htableInit 0 q = .ok (true, ht) ∧
      htableAdd (fun _ => 0) true ht 0 p = .ok (true, ht') ∧ htableAll ht' = .ok found ∧
      found.length = 1 := by
  obtain ⟨ht, t, hrun, h, hfirst, hsole⟩ := htableAdd_first (fun _ => 0) hq
  have hA : Addresses {q} := by
    rintro _ rfl
    exact hq
  have hapart := apart_singleton hq
  have hmem : ∀ q' ∈ [q], q' ∈ ({q} : Set Word) := fun q' hq' => List.mem_singleton.mp hq'
  rcases double_if_filled (A := {q}) (.inr ⟨t, h, hfirst, hmem⟩) hA hapart true with
    ⟨-, hwhy⟩ | ⟨ht₁, t₁, hdouble, h₁, hbegun₁, hmax₁, hmask₁, hbits₁, -⟩
  · have hnot : ¬(true = false ∨ 3 * 2 ^ 30 / 4 ≤ 1) := by decide
    exact absurd hwhy hnot
  obtain ⟨ht₂, t₂, hrehash, h₂, hbegun₂, -, -, hmask₂, hbits₂⟩ :=
    rehash_if_filled h₁ (hbegun₁.shows h₁ hA hapart hmem) hbegun₁ hmax₁
  have hsole₂ : Sole q ht₂ := by
    unfold Sole
    rw [hmask₂, hmask₁, hbits₂, hbits₁]
    exact hsole
  have hfirst₂ : First {q} ht₂ := hbegun₂.resolve_right fun hfresh =>
    absurd (hfresh.1.symm.trans h₂.elems) Nat.zero_ne_one
  obtain ⟨ht₃, t₃, hupdate, hs₃, hslots₃, hhidden⟩ :=
    update_hidden h₂ hq hfirst₂ hsole₂ hp.2 hsub htop
  obtain ⟨t', hadd, hlen, hheld⟩ := htAdd_hidden hs₃
    (by rw [hslots₃]; exact free_of_occupied_lt h₂.occupied_lt) hhidden
  refine ⟨ht, _, _, hrun, htableAdd_eq hdouble (htableAddRoom_eq hp.1 hrehash hupdate hadd),
    htableAll_eq (t := t') rfl (hlen.trans hs₃.length), ?_⟩
  show (held (ht₃.slots t')).length = 1
  rw [hheld.length_eq, hslots₃, h₂.held.length_eq]
  rfl

end Htable

/-- Addresses with one highest bit, as those of one heap are. -/
theorem apart_of_highBit {A : Set Word} {n : Nat} (hA : Addresses A)
    (h : ∀ p ∈ A, highBit p 63 = n) : Apart A := by
  intro p hp q hq _
  rw [h q hq, ← h p hp]
  exact (highBit_address (hA p hp)).2.1

/-- **When the hash table works.** It does in every run, whatever the hash is, exactly if no
address of an element has only bits of another one without the highest of these. Where one has,
two calls of `htable_add` are enough to lose it. -/
theorem htable_works_iff {A : Set Word} (hA : Addresses A) :
    Apart A ↔ ∀ rehash ht l, HtableReach A rehash ht l → HtableWorks A rehash ht l := by
  constructor
  · intro hapart rehash ht l hreach
    exact Htable.works_of_holds (Htable.holds_of_reach hreach hA hapart) hA hapart
  · intro hworks p hp q hq hsub
    by_contra htop
    obtain ⟨ht, ht', found, hfirst, hsecond, hall, hlength⟩ :=
      Htable.lost_of_hidden (hA q hq) (hA p hp) hsub (Bool.eq_false_iff.mpr htop)
    have hreach : HtableReach A (fun _ => 0) ht' [p, q] := .add (.add .init hq hfirst) hp hsecond
    obtain ⟨found', hall', hperm⟩ := (hworks _ _ _ hreach).all
    rw [hall] at hall'
    obtain rfl := Except.ok.inj hall'
    have hlen := hperm.length_eq
    rw [hlength] at hlen
    cases hlen

/-- Addresses that are near each other, and one that has a bit of another one only. -/
theorem htable_works_near :
    (∀ rehash ht l, HtableReach {0x1000, 0x1010} rehash ht l →
      HtableWorks {0x1000, 0x1010} rehash ht l) ∧
    ¬∀ rehash ht l, HtableReach {0x10, 0x1010} rehash ht l →
      HtableWorks {0x10, 0x1010} rehash ht l := by
  have hnear : Addresses {0x1000, 0x1010} := by
    rintro _ (rfl | rfl) <;> exact ⟨by decide, by decide⟩
  have hfar : Addresses {0x10, 0x1010} := by
    rintro _ (rfl | rfl) <;> exact ⟨by decide, by decide⟩
  constructor
  · refine (htable_works_iff hnear).mp (apart_of_highBit (n := 12) hnear ?_)
    rintro _ (rfl | rfl) <;> decide
  · intro hworks
    have hapart := (htable_works_iff hfar).mpr hworks
    exact absurd (hapart 0x10 (.inl rfl) 0x1010 (.inr rfl) (by decide)) (by decide)

end Pettycoin
