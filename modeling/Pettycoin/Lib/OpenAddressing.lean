import Mathlib.Data.List.GetD
import Mathlib.Data.List.Rotate
import Mathlib.Data.Nat.ModEq

/-!
# Open addressing

A table is a circle of slots, and an element is put into the first slot from its home on that
is not in use. The slot of a deleted element is marked, so that what lies behind it is still
found: `Findable` says that no slot between an element and its home is empty.

A search from a home up to the first empty slot comes past all elements of this home
(`filter_held_run`). `Findable` is kept when an element is put (`insert`), when one is deleted, and
when the marks are cleared in place (`rehash`), if that begins at an empty slot.

* `findable_insert`, `held_insert` — an element is put;
* `findable_set_deleted` — an element is deleted;
* `filter_held_run` — a search;
* `rehash_findable` — the marks are cleared.
-/

namespace OpenAddressing

variable {α : Type*}

/-- A slot of the table. -/
inductive Cell (α : Type*)
  | empty
  | deleted
  | used (a : α)

/-- What is in a slot. -/
def Cell.elem : Cell α → Option α
  | .used a => some a
  | .empty => none
  | .deleted => none

/-- Whether a search stops there. -/
def Cell.isEmpty : Cell α → Bool
  | .empty => true
  | .deleted => false
  | .used _ => false

/-- What is in the table. -/
def held (t : List (Cell α)) : List α := t.filterMap Cell.elem

/-- How many slots are not empty. -/
def occupied (t : List (Cell α)) : Nat := t.countP fun s => !s.isEmpty

/-- The slot `d` places behind another one. -/
def ahead (t : List (Cell α)) (h d : Nat) : Cell α := t.getD ((h + d) % t.length) .empty

/-- The slots from one on, around the circle. -/
def circle (t : List (Cell α)) (h : Nat) : List (Cell α) := (List.range t.length).map (ahead t h)

/-- The slots that a search passes. -/
def run (t : List (Cell α)) (h : Nat) : List (Cell α) := (circle t h).takeWhile fun s => !s.isEmpty

/-- A search does not stop before it is `d` places on. -/
def Reached (t : List (Cell α)) (h d : Nat) : Prop := ∀ j < d, ahead t h j ≠ .empty

/-- Every element is reached from its home. -/
def Findable (home : α → Nat) (t : List (Cell α)) : Prop :=
  ∀ a, ∀ d < t.length, ahead t (home a) d = .used a → Reached t (home a) d

/-- How far from `h` the first slot is that is not in use. -/
def firstFree (t : List (Cell α)) (h : Nat) : Nat := (circle t h).findIdx fun s => s.elem.isNone

/-- Put an element. -/
def insert (home : α → Nat) (t : List (Cell α)) (a : α) : List (Cell α) :=
  t.set ((home a + firstFree t (home a)) % t.length) (.used a)

/-- Clear a mark, or put an element again. -/
def rehashAt (home : α → Nat) (t : List (Cell α)) (k : Nat) : List (Cell α) :=
  match t.getD k .empty with
  | .empty => t
  | .deleted => t.set k .empty
  | .used a => insert home (t.set k .empty) a

/-- Clear the marks in place, once around the circle. -/
def rehash (home : α → Nat) (t : List (Cell α)) (start : Nat) : List (Cell α) :=
  (List.range t.length).foldl (fun t i => rehashAt home t ((start + i) % t.length)) t

variable {home : α → Nat} {t t' : List (Cell α)} {s : Cell α} {a : α} {h h' d e i j k n : Nat}

-- ---------------------------------------------------------------------------
-- The circle
-- ---------------------------------------------------------------------------

theorem elem_eq_some : s.elem = some a ↔ s = .used a := by
  cases s with
  | empty => exact ⟨by rintro ⟨⟩, by rintro ⟨⟩⟩
  | deleted => exact ⟨by rintro ⟨⟩, by rintro ⟨⟩⟩
  | used b => exact ⟨fun h => congrArg Cell.used (Option.some.inj h), fun h => by cases h; rfl⟩

theorem isEmpty_eq_true : s.isEmpty = true ↔ s = .empty := by
  cases s with
  | empty => exact ⟨fun _ => rfl, fun _ => rfl⟩
  | deleted => exact ⟨by rintro ⟨⟩, by rintro ⟨⟩⟩
  | used b => exact ⟨by rintro ⟨⟩, by rintro ⟨⟩⟩

theorem mem_held : a ∈ held t ↔ .used a ∈ t := by
  unfold held
  rw [List.mem_filterMap]
  constructor
  · rintro ⟨s, hs, ha⟩
    rwa [elem_eq_some.mp ha] at hs
  · exact fun h => ⟨.used a, h, rfl⟩

theorem held_append : held (t ++ t') = held t ++ held t' := List.filterMap_append ..

/-- Two places of the circle are one if they are as far from a third. -/
theorem eq_of_mod_eq (hd : d < n) (he : e < n) (h : (k + d) % n = (k + e) % n) : d = e := by
  have hmod : d % n = e % n := Nat.ModEq.add_left_cancel' k h
  rwa [Nat.mod_eq_of_lt hd, Nat.mod_eq_of_lt he] at hmod

/-- Every place is so far from another one. -/
theorem exists_dist (hk : k < n) (h : Nat) : ∃ d < n, (h + d) % n = k := by
  have hpos : 0 < n := Nat.lt_of_le_of_lt (Nat.zero_le k) hk
  refine ⟨(k + (n - h % n)) % n, Nat.mod_lt _ hpos, ?_⟩
  have hh := Nat.mod_lt h hpos
  rw [Nat.add_mod_mod, ← Nat.mod_add_mod, show h % n + (k + (n - h % n)) = k + n by omega,
    Nat.add_mod_right, Nat.mod_eq_of_lt hk]

/-- What lies ahead does not depend on how a place is counted. -/
theorem ahead_of_mod_eq (hh : (h + i) % t.length = h' % t.length) (d : Nat) :
    ahead t h' d = ahead t h (i + d) := by
  unfold ahead
  rw [← Nat.add_assoc, ← Nat.mod_add_mod, ← hh, Nat.mod_add_mod]

theorem ahead_set (hk : k < t.length) :
    ahead (t.set k s) h d = if (h + d) % t.length = k then s else ahead t h d := by
  unfold ahead
  rw [List.length_set, List.getD_eq_getElem?_getD, List.getD_eq_getElem?_getD, List.getElem?_set]
  by_cases hkey : k = (h + d) % t.length
  · rw [if_pos hkey, if_pos hkey.symm, if_pos hk]
    rfl
  · rw [if_neg hkey, if_neg (Ne.symm hkey)]

/-- The same, for places counted from where the one that is set is `i` places on. -/
theorem ahead_set_dist (hi : i < t.length) (hd : d < t.length) :
    ahead (t.set ((h + i) % t.length) s) h d = if d = i then s else ahead t h d := by
  rw [ahead_set (Nat.mod_lt _ (Nat.lt_of_le_of_lt (Nat.zero_le _) hi))]
  by_cases hkey : d = i
  · rw [if_pos hkey, hkey, if_pos rfl]
  · rw [if_neg hkey, if_neg fun hmod => hkey (eq_of_mod_eq hd hi hmod)]

theorem length_circle : (circle t h).length = t.length := by
  rw [circle, List.length_map, List.length_range]

theorem getElem_circle (hd : d < (circle t h).length) : (circle t h)[d] = ahead t h d := by
  simp only [circle, List.getElem_map, List.getElem_range]

theorem circle_eq_rotate : circle t h = t.rotate h := by
  refine List.ext_getElem (by rw [length_circle, List.length_rotate]) fun d hd hd' => ?_
  rw [length_circle] at hd
  have hpos : 0 < t.length := Nat.lt_of_le_of_lt (Nat.zero_le d) hd
  rw [getElem_circle, List.getElem_rotate, ahead, List.getD_eq_getElem _ _ (Nat.mod_lt _ hpos)]
  simp only [Nat.add_comm h d]

theorem circle_perm : (circle t h).Perm t := by
  rw [circle_eq_rotate]
  exact List.rotate_perm t h

theorem mem_circle : s ∈ circle t h ↔ s ∈ t := circle_perm.mem_iff

/-- What is ahead is in the table. -/
theorem ahead_mem (hd : d < t.length) : ahead t h d ∈ t := by
  rw [← mem_circle (h := h), ← getElem_circle (by rwa [length_circle])]
  exact List.getElem_mem _

/-- What is in the table is ahead. -/
theorem exists_ahead (hs : s ∈ t) (h : Nat) : ∃ d < t.length, ahead t h d = s := by
  obtain ⟨d, hd, hget⟩ := List.getElem_of_mem (mem_circle.mpr hs : s ∈ circle t h)
  rw [getElem_circle] at hget
  rw [length_circle] at hd
  exact ⟨d, hd, hget⟩

-- ---------------------------------------------------------------------------
-- Searching
-- ---------------------------------------------------------------------------

/-- What `dropWhile` leaves begins with something that it does not drop. -/
theorem of_mem_dropWhile {β : Type*} {p : β → Bool} {x : β} : ∀ {l : List β},
    x ∈ l.dropWhile p → ∃ (i j : Nat) (y : β), i ≤ j ∧ l[i]? = some y ∧ p y = false ∧ l[j]? = some x
  | [], hx => absurd hx List.not_mem_nil
  | y :: l, hx => by
    rw [List.dropWhile_cons] at hx
    by_cases hy : p y = true
    · rw [if_pos hy] at hx
      obtain ⟨i, j, z, hij, hi, hz, hj⟩ := of_mem_dropWhile hx
      exact ⟨i + 1, j + 1, z, Nat.succ_le_succ hij, hi, hz, hj⟩
    · rw [if_neg hy] at hx
      obtain ⟨j, hj⟩ := List.mem_iff_getElem?.mp hx
      exact ⟨0, j, y, Nat.zero_le j, rfl, Bool.eq_false_iff.mpr hy, hj⟩

/-- A search from a home comes past everything that has this home. -/
theorem filter_held_run (hp : Findable home t) {p : α → Bool}
    (hhome : ∀ a, p a = true → home a % t.length = h % t.length) :
    ((held (run t h)).filter p).Perm ((held t).filter p) := by
  have hsplit : held (circle t h) = held (run t h) ++
      held ((circle t h).dropWhile fun s => !s.isEmpty) := by
    rw [run, ← held_append, List.takeWhile_append_dropWhile]
  have hrest : (held ((circle t h).dropWhile fun s => !s.isEmpty)).filter p = [] := by
    refine List.filter_eq_nil_iff.mpr fun a ha hpa => ?_
    obtain ⟨i, j, s, hij, hi, hs, hj⟩ := of_mem_dropWhile (mem_held.mp ha)
    obtain ⟨hj', hused⟩ := List.getElem?_eq_some_iff.mp hj
    obtain ⟨hi', hempty⟩ := List.getElem?_eq_some_iff.mp hi
    rw [getElem_circle] at hused hempty
    rw [length_circle] at hj'
    have hsame : ∀ d, ahead t (home a) d = ahead t h d := fun d => by
      rw [ahead_of_mod_eq (i := 0) (h := h) (hhome a hpa).symm, Nat.zero_add]
    have hnone : ahead t h i = .empty :=
      isEmpty_eq_true.mp (by rw [hempty]; simpa using hs)
    rcases Nat.lt_or_eq_of_le hij with hlt | rfl
    · exact hp a j hj' ((hsame j).trans hused) i hlt ((hsame i).trans hnone)
    · exact absurd (hnone.symm.trans hused) (by rintro ⟨⟩)
  have hall : (held (circle t h)).Perm (held t) := circle_perm.filterMap _
  refine .trans ?_ (hall.filter p)
  rw [hsplit, List.filter_append, hrest, List.append_nil]

-- ---------------------------------------------------------------------------
-- Slots in use
-- ---------------------------------------------------------------------------

/-- What setting a slot does to what is held. -/
theorem held_set {s : Cell α} (s' : Cell α) (hk : t[k]? = some s) :
    (s'.elem.toList ++ held t).Perm (s.elem.toList ++ held (t.set k s')) := by
  obtain ⟨hlt, rfl⟩ := List.getElem?_eq_some_iff.mp hk
  have hsplit : t = t.take k ++ t[k] :: t.drop (k + 1) := by
    rw [List.getElem_cons_drop, List.take_append_drop]
  have hcons : ∀ (s : Cell α) l, held (s :: l) = s.elem.toList ++ held l := fun s l => by
    cases hs : s.elem with
    | none => exact List.filterMap_cons_none hs
    | some a => exact List.filterMap_cons_some hs
  rw [List.set_eq_take_append_cons_drop, if_pos hlt]
  conv_lhs => rw [hsplit]
  rw [held_append, held_append, hcons, hcons]
  generalize held (t.take k) = before, held (t.drop (k + 1)) = behind
  have hswap : ∀ x y : List α,
      (x ++ (before ++ (y ++ behind))).Perm (y ++ (x ++ (before ++ behind))) := by
    intro x y
    refine .trans ?_ (List.perm_append_comm_assoc x y _)
    exact (List.perm_append_comm_assoc before y behind).append_left x
  exact (hswap _ _).trans ((List.perm_append_comm_assoc before _ behind).symm.append_left _)

theorem occupied_set {s : Cell α} (s' : Cell α) (hk : t[k]? = some s) :
    occupied (t.set k s') + (if s.isEmpty then 0 else 1) =
      occupied t + if s'.isEmpty then 0 else 1 := by
  obtain ⟨hlt, rfl⟩ := List.getElem?_eq_some_iff.mp hk
  have hle : (if (!t[k].isEmpty) = true then 1 else 0) ≤ occupied t := by
    split_ifs with hs
    · exact List.countP_pos_iff.mpr ⟨_, List.getElem_mem _, hs⟩
    · exact Nat.zero_le _
  unfold occupied at hle ⊢
  rw [List.countP_set hlt]
  cases hold : t[k].isEmpty <;> cases hnew : s'.isEmpty <;>
    simp only [hold, Bool.not_true, Bool.not_false, if_true, if_false, Bool.false_eq_true]
      at hle ⊢ <;>
    omega

/-- Slots without marks are empty or in use. -/
theorem occupied_eq_length_held (hclean : ∀ s ∈ t, s ≠ .deleted) :
    occupied t = (held t).length := by
  induction t with
  | nil => rfl
  | cons s t ih =>
    have hrest := ih fun s' hs' => hclean s' (List.mem_cons_of_mem _ hs')
    cases s with
    | empty => exact hrest
    | deleted => exact absurd rfl (hclean _ List.mem_cons_self)
    | used a => exact (List.countP_cons_of_pos rfl).trans (congrArg (· + 1) hrest)

theorem exists_empty (hlt : occupied t < t.length) : .empty ∈ t := by
  by_contra hnone
  refine absurd (List.countP_eq_length.mpr fun s hs => ?_) (Nat.ne_of_lt hlt)
  rw [Bool.not_eq_true', Bool.eq_false_iff]
  exact fun hempty => hnone (isEmpty_eq_true.mp hempty ▸ hs)

theorem findable_set_deleted (hp : Findable home t) (hk : k < t.length) :
    Findable home (t.set k .deleted) := by
  intro a d hd hused j hj
  rw [List.length_set] at hd
  rw [ahead_set hk] at hused ⊢
  split_ifs at hused
  split_ifs
  · rintro ⟨⟩
  · exact hp a d hd hused j hj

/-- An element that is reached at the place it is put to. -/
theorem findable_set_used (hp : Findable home t) (hd : d < t.length)
    (hreach : Reached t (home a) d) :
    Findable home (t.set ((home a + d) % t.length) (.used a)) := by
  intro b e he hused j hj
  rw [List.length_set] at he
  have hpos : 0 < t.length := Nat.lt_of_le_of_lt (Nat.zero_le _) hd
  rw [ahead_set (Nat.mod_lt _ hpos)] at hused ⊢
  split_ifs
  · rintro ⟨⟩
  · split_ifs at hused with hat
    · obtain rfl : a = b := Cell.used.inj hused
      obtain rfl : e = d := eq_of_mod_eq he hd hat
      exact hreach j hj
    · exact hp b e he hused j hj

-- ---------------------------------------------------------------------------
-- Putting an element
-- ---------------------------------------------------------------------------

theorem length_insert : (insert home t a).length = t.length := List.length_set ..

section Free

variable (hfree : ∃ s ∈ t, s.elem = none)

include hfree in
theorem firstFree_lt : firstFree t h < t.length := by
  obtain ⟨s, hs, hnone⟩ := hfree
  rw [← length_circle (t := t) (h := h)]
  exact List.findIdx_lt_length_of_exists ⟨s, mem_circle.mpr hs, by rw [hnone]; rfl⟩

include hfree in
theorem ahead_firstFree : (ahead t h (firstFree t h)).elem = none := by
  have hlt : (circle t h).findIdx (fun s => s.elem.isNone) < (circle t h).length := by
    rw [length_circle]
    exact firstFree_lt hfree
  have hget := List.findIdx_getElem (w := hlt)
  rw [getElem_circle] at hget
  exact Option.isNone_iff_eq_none.mp hget

theorem elem_of_lt_firstFree (hj : j < firstFree t h) : ∃ a, ahead t h j = .used a := by
  have hnot := List.not_of_lt_findIdx hj
  rw [getElem_circle] at hnot
  obtain ⟨a, ha⟩ := Option.isSome_iff_exists.mp
    (by rw [← Option.not_isNone, hnot]; rfl : (ahead t h j).elem.isSome = true)
  exact ⟨a, elem_eq_some.mp ha⟩

/-- Where the first slot is. -/
theorem firstFree_eq (hd : d < t.length) (hnone : (ahead t h d).elem = none)
    (hused : ∀ j < d, ∃ a, ahead t h j = .used a) : firstFree t h = d := by
  unfold firstFree
  rw [List.findIdx_eq (by rwa [length_circle]), getElem_circle, hnone]
  refine ⟨rfl, fun j hj => ?_⟩
  obtain ⟨a, ha⟩ := hused j hj
  rw [getElem_circle, ha]
  rfl

include hfree in
theorem insert_slot (home : α → Nat) (a : α) :
    ∃ s, t[(home a + firstFree t (home a)) % t.length]? = some s ∧ s.elem = none := by
  have hlt := firstFree_lt (h := home a) hfree
  have hpos : 0 < t.length := Nat.lt_of_le_of_lt (Nat.zero_le _) hlt
  refine ⟨_, List.getElem?_eq_getElem (Nat.mod_lt _ hpos), ?_⟩
  have hnone := ahead_firstFree (h := home a) hfree
  rwa [ahead, List.getD_eq_getElem _ _ (Nat.mod_lt _ hpos)] at hnone

include hfree in
theorem findable_insert (hp : Findable home t) : Findable home (insert home t a) :=
  findable_set_used hp (firstFree_lt hfree) fun j hj hempty => by
    obtain ⟨b, hb⟩ := elem_of_lt_firstFree hj
    exact absurd (hb.symm.trans hempty) (by rintro ⟨⟩)

include hfree in
theorem held_insert (home : α → Nat) (a : α) : (held (insert home t a)).Perm (a :: held t) := by
  obtain ⟨s, hs, hnone⟩ := insert_slot hfree home a
  have hset := held_set (.used a) hs
  rw [hnone] at hset
  exact hset.symm

include hfree in
theorem occupied_insert_le (home : α → Nat) (a : α) :
    occupied (insert home t a) ≤ occupied t + 1 := by
  obtain ⟨s, hs, -⟩ := insert_slot hfree home a
  have hset := occupied_set (.used a) hs
  rw [show (Cell.used a).isEmpty = false from rfl, if_neg Bool.false_ne_true] at hset
  unfold insert
  omega

end Free

theorem free_of_occupied_lt (hlt : occupied t < t.length) : ∃ s ∈ t, s.elem = none :=
  ⟨.empty, exists_empty hlt, rfl⟩

theorem clean_insert (hclean : ∀ s ∈ t, s ≠ .deleted) : ∀ s ∈ insert home t a, s ≠ .deleted := by
  intro s hs
  rcases List.mem_or_eq_of_mem_set hs with hold | rfl
  · exact hclean s hold
  · rintro ⟨⟩

theorem findable_replicate (n : Nat) : Findable home (List.replicate n (.empty : Cell α)) := by
  intro a d hd hused
  have hmem := ahead_mem (h := home a) hd
  rw [hused] at hmem
  exact absurd (List.eq_of_mem_replicate hmem) (by rintro ⟨⟩)

theorem held_replicate (n : Nat) : held (List.replicate n (.empty : Cell α)) = [] :=
  List.filterMap_eq_nil_iff.mpr fun s hs => by rw [List.eq_of_mem_replicate hs]; rfl

-- ---------------------------------------------------------------------------
-- Clearing the marks
-- ---------------------------------------------------------------------------

/-- What is `j` places behind `start` is reached from its home, and that lies between. -/
def Settled (home : α → Nat) (t : List (Cell α)) (start j : Nat) : Prop :=
  ∀ a, ahead t start j = .used a → ∃ g ≤ j, (start + g) % t.length = home a % t.length ∧
    ∀ x, g ≤ x → x < j → ahead t start x ≠ .empty

/-- No search crosses an empty slot. -/
theorem settled_of_findable {start : Nat} (hp : Findable home t) (hstart : ahead t start 0 = .empty)
    (hj : j < t.length) : Settled home t start j := by
  intro a hused
  have hpos : 0 < t.length := Nat.lt_of_le_of_lt (Nat.zero_le _) hj
  obtain ⟨g, hg, hhome⟩ := exists_dist (Nat.mod_lt (home a) hpos) start
  have hsame : ∀ d, ahead t (home a) d = ahead t start (g + d) :=
    ahead_of_mod_eq hhome
  have hwrap : ∀ d, ahead t start (t.length + d) = ahead t start d := fun d => by
    unfold ahead
    rw [Nat.add_left_comm, Nat.add_mod_left]
  by_cases hle : g ≤ j
  · refine ⟨g, hle, hhome, fun x hgx hxj hempty => ?_⟩
    have hreach := hp a (j - g) (by omega) (by rw [hsame, Nat.add_sub_cancel' hle, hused])
    refine hreach (x - g) (by omega) ?_
    rw [hsame, Nat.add_sub_cancel' hgx, hempty]
  · have hreach := hp a (t.length + j - g) (by omega) (by
      rw [hsame, Nat.add_sub_cancel' (show g ≤ t.length + j by omega), hwrap, hused])
    have hbehind : 0 < j := by
      refine Nat.pos_of_ne_zero fun h0 => ?_
      rw [h0, hstart] at hused
      cases hused
    refine absurd ?_ (hreach (t.length - g) (by omega))
    rw [hsame, Nat.add_sub_cancel' (Nat.le_of_lt hg), ← Nat.add_zero t.length, hwrap, hstart]

theorem findable_of_settled {start : Nat} (h : ∀ j < t.length, Settled home t start j) :
    Findable home t := by
  intro a d hd hused x hx hempty
  have hpos : 0 < t.length := Nat.lt_of_le_of_lt (Nat.zero_le _) hd
  obtain ⟨j, hj, hat⟩ := exists_dist (Nat.mod_lt (home a + d) hpos) start
  have hj' : ahead t start j = .used a := by rw [← hused, ahead, ahead, hat]
  obtain ⟨g, hg, hhome, hbetween⟩ := h j hj a hj'
  have hsame := ahead_of_mod_eq hhome
  -- the element is as far from its home as the search says
  obtain rfl : j = g + d := by
    have hjd : d = j - g := by
      refine eq_of_mod_eq (k := start + g) (n := t.length) hd (by omega) ?_
      rw [← Nat.mod_add_mod, hhome, Nat.mod_add_mod, Nat.add_assoc, Nat.add_sub_cancel' hg, hat]
    omega
  exact hbetween (g + x) (by omega) (by omega) ((hsame x).symm.trans hempty)

/-- Nothing new comes in. -/
theorem mem_rehashAt {b : α} (h : b ∈ held (rehashAt home t k)) : b ∈ held t := by
  rw [mem_held] at h ⊢
  unfold rehashAt at h
  cases hslot : t.getD k .empty with
  | empty =>
    rw [hslot] at h
    exact h
  | deleted =>
    rw [hslot] at h
    rcases List.mem_or_eq_of_mem_set h with hold | hnew
    · exact hold
    · cases hnew
  | used a =>
    rw [hslot] at h
    have ha : Cell.used a ∈ t := by
      rw [List.getD_eq_getElem?_getD] at hslot
      cases hget : t[k]? with
      | none =>
        rw [hget] at hslot
        cases hslot
      | some s =>
        rw [hget] at hslot
        exact hslot ▸ List.mem_of_getElem? hget
    rcases List.mem_or_eq_of_mem_set h with hold | hnew
    · rcases List.mem_or_eq_of_mem_set hold with hold | hnew
      · exact hold
      · cases hnew
    · exact hnew ▸ ha

/-- The first `i` slots behind `start` are done. -/
structure Rehashed (home : α → Nat) (t₀ t : List (Cell α)) (start i : Nat) : Prop where
  length : t.length = t₀.length
  clean : ∀ j < i, ahead t start j ≠ .deleted
  rest : ∀ j, i ≤ j → j < t.length → ahead t start j = ahead t₀ start j
  settled : ∀ j < i, Settled home t start j
  held : (held t).Perm (held t₀)

section

variable {t₀ : List (Cell α)} {start : Nat} {a : α}

/-- An empty slot is left as it is. -/
theorem Rehashed.pass (h : Rehashed home t₀ t start i) (hempty : ahead t start i = .empty) :
    Rehashed home t₀ t start (i + 1) := by
  refine ⟨h.length, fun j hj => ?_, fun j hj => h.rest j (by omega), fun j hj => ?_, h.held⟩
  · rcases Nat.lt_succ_iff_lt_or_eq.mp hj with hlt | rfl
    · exact h.clean j hlt
    · rw [hempty]
      rintro ⟨⟩
  · rcases Nat.lt_succ_iff_lt_or_eq.mp hj with hlt | rfl
    · exact h.settled j hlt
    · exact fun a hused => absurd (hempty.symm.trans hused) (by rintro ⟨⟩)

theorem getElem?_ahead (start : Nat) (hi : i < t.length) :
    t[(start + i) % t.length]? = some (ahead t start i) := by
  have hpos : 0 < t.length := Nat.lt_of_le_of_lt (Nat.zero_le _) hi
  rw [ahead, List.getD_eq_getElem _ _ (Nat.mod_lt _ hpos)]
  exact List.getElem?_eq_getElem (Nat.mod_lt _ hpos)

/-- A mark is cleared. -/
theorem Rehashed.clear (h : Rehashed home t₀ t start i) (hi : i < t.length)
    (hmark : ahead t start i = .deleted) :
    Rehashed home t₀ (t.set ((start + i) % t.length) .empty) start (i + 1) := by
  have hset : ∀ j < t.length, ahead (t.set ((start + i) % t.length) .empty) start j =
      if j = i then .empty else ahead t start j := fun j hj => ahead_set_dist hi hj
  have hlen := h.length
  refine ⟨(List.length_set ..).trans h.length, fun j hj => ?_, fun j hj hlt => ?_,
    fun j hj a hused => ?_, ?_⟩
  · rw [hset j (by omega)]
    split_ifs with hji
    · rintro ⟨⟩
    · exact h.clean j (by omega)
  · rw [List.length_set] at hlt
    rw [hset j hlt, if_neg (by omega)]
    exact h.rest j (by omega) hlt
  · rw [hset j (by omega)] at hused
    split_ifs at hused with hji
    obtain ⟨g, hg, hhome, hbetween⟩ := h.settled j (by omega) a hused
    refine ⟨g, hg, by rwa [List.length_set], fun x hgx hxj => ?_⟩
    rw [hset x (by omega), if_neg (by omega)]
    exact hbetween x hgx hxj
  · have hperm := held_set .empty (getElem?_ahead start hi)
    rw [hmark] at hperm
    exact hperm.symm.trans h.held

/-- An element goes to the first free slot from its home on, which lies before. -/
theorem Rehashed.move (h₀ : ∀ j < t₀.length, Settled home t₀ start j)
    (h : Rehashed home t₀ t start i) (hi : i < t.length) (hcase : ahead t start i = .used a) :
    Rehashed home t₀ (insert home (t.set ((start + i) % t.length) .empty) a) start (i + 1) := by
  have hsame := h.rest i (Nat.le_refl i) hi
  obtain ⟨g, hg, hhome, -⟩ := h₀ i (h.length ▸ hi) a (hsame.symm.trans hcase)
  rw [← h.length] at hhome
  have hset : ∀ j < t.length, ahead (t.set ((start + i) % t.length) .empty) start j =
      if j = i then .empty else ahead t start j := fun j hj => ahead_set_dist hi hj
  have hlen : (t.set ((start + i) % t.length) Cell.empty).length = t.length := List.length_set ..
  have hremoved := held_set .empty (getElem?_ahead start hi)
  rw [hcase] at hremoved
  generalize t.set ((start + i) % t.length) Cell.empty = t₁ at hset hlen hremoved ⊢
  have hfrom : ∀ d, ahead t₁ (home a) d = ahead t₁ start (g + d) :=
    ahead_of_mod_eq (by rw [hlen]; exact hhome)
  have hemptied : ahead t₁ (home a) (i - g) = .empty := by
    rw [hfrom, Nat.add_sub_cancel' hg, hset i hi, if_pos rfl]
  have hfree : ∃ s ∈ t₁, s.elem = none :=
    ⟨.empty, hemptied ▸ ahead_mem (by rw [hlen]; omega), rfl⟩
  have hle : firstFree t₁ (home a) ≤ i - g := by
    by_contra hlt
    obtain ⟨b, hb⟩ := elem_of_lt_firstFree (Nat.lt_of_not_le hlt)
    exact absurd (hemptied.symm.trans hb) (by rintro ⟨⟩)
  have hplace : (home a + firstFree t₁ (home a)) % t₁.length =
      (start + (g + firstFree t₁ (home a))) % t₁.length := by
    rw [hlen, ← Nat.mod_add_mod, ← hhome, Nat.mod_add_mod, Nat.add_assoc]
  have hused₁ : ∀ x, g ≤ x → x < g + firstFree t₁ (home a) → ahead t₁ start x ≠ .empty := by
    intro x hgx hx hempty
    obtain ⟨b, hb⟩ := elem_of_lt_firstFree (t := t₁) (h := home a) (j := x - g) (by omega)
    rw [hfrom, Nat.add_sub_cancel' hgx, hempty] at hb
    cases hb
  have hinsert : ∀ j < t.length, ahead (insert home t₁ a) start j =
      if j = g + firstFree t₁ (home a) then .used a else ahead t₁ start j := by
    intro j hj
    unfold insert
    rw [hplace]
    exact ahead_set_dist (by omega) (by omega)
  refine ⟨length_insert.trans (hlen.trans h.length), fun j hj => ?_, fun j hj hlt => ?_,
    fun j hj b hb => ?_, ((held_insert hfree home a).trans hremoved.symm).trans h.held⟩
  · rw [hinsert j (by omega)]
    split_ifs with hjf
    · rintro ⟨⟩
    · rw [hset j (by omega)]
      split_ifs with hji
      · rintro ⟨⟩
      · exact h.clean j (by omega)
  · rw [length_insert, hlen] at hlt
    rw [hinsert j hlt, if_neg (by omega), hset j hlt, if_neg (by omega)]
    exact h.rest j (by omega) hlt
  · rw [length_insert, hlen]
    rw [hinsert j (by omega)] at hb
    split_ifs at hb with hjf
    · obtain rfl : a = b := Cell.used.inj hb
      refine ⟨g, by omega, hhome, fun x hgx hxj => ?_⟩
      rw [hinsert x (by omega), if_neg (by omega)]
      exact hused₁ x hgx (by omega)
    · rw [hset j (by omega)] at hb
      split_ifs at hb with hji
      obtain ⟨g', hg', hhome', hbetween⟩ := h.settled j (by omega) b hb
      refine ⟨g', hg', hhome', fun x hgx hxj => ?_⟩
      rw [hinsert x (by omega)]
      split_ifs
      · rintro ⟨⟩
      · rw [hset x (by omega), if_neg (by omega)]
        exact hbetween x hgx hxj

theorem rehashed_step (h₀ : ∀ j < t₀.length, Settled home t₀ start j) (hi : i < t.length)
    (h : Rehashed home t₀ t start i) :
    Rehashed home t₀ (rehashAt home t ((start + i) % t.length)) start (i + 1) := by
  have hslot : t.getD ((start + i) % t.length) .empty = ahead t start i := rfl
  unfold rehashAt
  rw [hslot]
  cases hcase : ahead t start i with
  | empty => exact h.pass hcase
  | deleted => exact h.clear hi hcase
  | used a => exact h.move h₀ hi hcase

end

/-- The marks are cleared, and everything is reached from its home. -/
theorem rehash_findable {start : Nat} (hp : Findable home t) (hstart : ahead t start 0 = .empty) :
    Findable home (rehash home t start) ∧ (∀ s ∈ rehash home t start, s ≠ .deleted) ∧
      (held (rehash home t start)).Perm (held t) ∧ (rehash home t start).length = t.length := by
  have hdone : ∀ n ≤ t.length, Rehashed home t
      ((List.range n).foldl (fun t i => rehashAt home t ((start + i) % t.length)) t) start n := by
    intro n hn
    induction n with
    | zero => exact ⟨rfl, by rintro _ ⟨⟩, fun _ _ _ => rfl, by rintro _ ⟨⟩, .refl _⟩
    | succ n ih =>
      have hbefore := ih (Nat.le_of_succ_le hn)
      rw [List.range_succ, List.foldl_append]
      exact rehashed_step (fun j hj => settled_of_findable hp hstart hj)
        (by rw [hbefore.length]; exact hn) hbefore
  obtain ⟨hlength, hclean, -, hsettled, hheld⟩ := hdone t.length (Nat.le_refl _)
  refine ⟨findable_of_settled fun j hj => hsettled j (hlength ▸ hj), fun s hs => ?_, hheld, hlength⟩
  obtain ⟨d, hd, rfl⟩ := exists_ahead hs start
  exact hclean d (hlength ▸ hd)

end OpenAddressing
