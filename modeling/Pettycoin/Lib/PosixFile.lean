import Mathlib.Data.List.Basic
import Mathlib.Data.Int.Basic
import Mathlib.Tactic.Common

/-!
# Files

A regular file that one descriptor has open: its bytes and the file offset. Reading,
writing, seeking and truncating as POSIX has them: a read comes short at the end of
the file only, a write beyond the end leaves zero bytes before it, and neither
`ftruncate` nor a seek that is refused moves the offset.

* `read_eq`, `rest_read` — what is read, and what is left;
* `write_end`, `write_beyond` — writing at the end, and beyond it;
* `lseek_refused` — a seek that is refused.
-/

namespace PosixFile

/-- What is in the file, and where the descriptor stands. -/
structure File where
  bytes : List UInt8
  pos : Nat
deriving DecidableEq

namespace File

variable {f : File} {n : Nat} {bs : List UInt8}

/-- `read()` of `n` bytes, as many as there are. -/
def read (f : File) (n : Nat) : List UInt8 × File :=
  let got := (f.bytes.drop f.pos).take n
  (got, { f with pos := f.pos + got.length })

/-- `write()`: it overwrites, or fills up to the offset with zero bytes. -/
def write (f : File) (bs : List UInt8) : File :=
  if bs = [] then f
  else
    { bytes := f.bytes.take f.pos ++ List.replicate (f.pos - f.bytes.length) 0 ++ bs
        ++ f.bytes.drop (f.pos + bs.length)
      pos := f.pos + bs.length }

/-- `ftruncate()`. -/
def truncate (f : File) (n : Nat) : File :=
  { f with bytes := f.bytes.take n ++ List.replicate (n - f.bytes.length) 0 }

/-- `SEEK_SET`, from the start. -/
def seekSet : Int := 0
/-- `SEEK_CUR`, from the offset. -/
def seekCur : Int := 1
/-- `SEEK_END`, from the end. -/
def seekEnd : Int := 2

/-- `lseek()`: any other `whence`, and a place before the start, is refused. -/
def lseek (f : File) (offset whence : Int) : File :=
  let target : Option Int :=
    if whence = seekSet then some offset
    else if whence = seekCur then some (f.pos + offset)
    else if whence = seekEnd then some (f.bytes.length + offset)
    else none
  match target with
  | some p => if 0 ≤ p then { f with pos := p.toNat } else f
  | none => f

-- ---------------------------------------------------------------------------
-- Reading
-- ---------------------------------------------------------------------------

/-- What is left to read. -/
def rest (f : File) : List UInt8 := f.bytes.drop f.pos

theorem read_eq (f : File) (n : Nat) :
    f.read n = (f.rest.take n, { f with pos := f.pos + (f.rest.take n).length }) := rfl

theorem rest_read (f : File) (n : Nat) : (f.read n).2.rest = f.rest.drop n := by
  rw [read_eq]
  show f.bytes.drop (f.pos + (f.rest.take n).length) = (f.bytes.drop f.pos).drop n
  rw [List.length_take, List.drop_drop]
  rcases Nat.le_total n f.rest.length with h | h
  · rw [Nat.min_eq_left h]
  · have hlen : f.rest.length = f.bytes.length - f.pos := List.length_drop ..
    rw [Nat.min_eq_right h, List.drop_eq_nil_of_le (by omega), List.drop_eq_nil_of_le (by omega)]

theorem pos_read (f : File) (n : Nat) : (f.read n).2.pos = f.pos + (f.read n).1.length := rfl

-- ---------------------------------------------------------------------------
-- Writing
-- ---------------------------------------------------------------------------

/-- A write at the end appends. -/
theorem write_end (h : f.pos = f.bytes.length) :
    f.write bs = ⟨f.bytes ++ bs, f.bytes.length + bs.length⟩ := by
  unfold write
  split_ifs with hbs
  · subst hbs
    rw [List.append_nil, List.length_nil, Nat.add_zero, ← h]
  · rw [h, List.take_length, Nat.sub_self, List.replicate_zero, List.append_nil,
      List.drop_eq_nil_of_le (by omega), List.append_nil]

/-- A write beyond the end leaves a gap. -/
theorem write_beyond (h : f.bytes.length ≤ f.pos) (hbs : bs ≠ []) :
    f.write bs = ⟨f.bytes ++ List.replicate (f.pos - f.bytes.length) 0 ++ bs, f.pos + bs.length⟩ := by
  unfold write
  rw [if_neg hbs, List.take_of_length_le h, List.drop_eq_nil_of_le (by omega), List.append_nil]

/-- A write at the start overwrites. -/
theorem write_start (h : f.pos = 0) :
    f.write bs = ⟨bs ++ f.bytes.drop bs.length, bs.length⟩ := by
  unfold write
  split_ifs with hbs
  · subst hbs
    rw [List.nil_append, List.length_nil, List.drop_zero, ← h]
  · rw [h, List.take_zero, Nat.zero_sub, List.replicate_zero, List.nil_append, List.nil_append,
      Nat.zero_add]

/-- Two writes are one. -/
theorem write_write (f : File) (a b : List UInt8) : (f.write a).write b = f.write (a ++ b) := by
  by_cases ha : a = []
  · subst ha
    rfl
  by_cases hb : b = []
  · subst hb
    rw [List.append_nil]
    rfl
  have hab : a ++ b ≠ [] := fun h => ha (List.append_eq_nil_iff.mp h).1
  unfold write
  rw [if_neg ha, if_neg hb, if_neg hab]
  have hlen : (f.bytes.take f.pos ++ List.replicate (f.pos - f.bytes.length) 0 ++ a).length
      = f.pos + a.length := by
    simp only [List.length_append, List.length_take, List.length_replicate]
    omega
  have htake : (f.bytes.take f.pos ++ List.replicate (f.pos - f.bytes.length) 0 ++ a
      ++ f.bytes.drop (f.pos + a.length)).take (f.pos + a.length)
      = f.bytes.take f.pos ++ List.replicate (f.pos - f.bytes.length) 0 ++ a := by
    rw [← hlen, List.take_left']
    rfl
  have hdrop : (f.bytes.take f.pos ++ List.replicate (f.pos - f.bytes.length) 0 ++ a
      ++ f.bytes.drop (f.pos + a.length)).drop (f.pos + a.length + b.length)
      = f.bytes.drop (f.pos + (a ++ b).length) := by
    rw [← List.drop_drop, ← hlen, List.drop_left' rfl, hlen, List.drop_drop, List.length_append,
      Nat.add_assoc]
  have hgap : f.pos + a.length - (f.bytes.take f.pos
      ++ List.replicate (f.pos - f.bytes.length) 0 ++ a
      ++ f.bytes.drop (f.pos + a.length)).length = 0 := by
    rw [List.length_append, hlen]
    exact Nat.sub_eq_zero_of_le (Nat.le_add_right ..)
  dsimp only
  rw [htake, hdrop, hgap, List.replicate_zero, List.append_nil, List.length_append, Nat.add_assoc]
  simp only [List.append_assoc]

/-- A sequence of writes is one of all the bytes. -/
theorem foldl_write (f : File) (l : List (List UInt8)) : l.foldl write f = f.write l.flatten := by
  induction l generalizing f with
  | nil => rfl
  | cons a l ih =>
    rw [List.foldl_cons, ih, write_write]
    rfl

-- ---------------------------------------------------------------------------
-- Truncating and seeking
-- ---------------------------------------------------------------------------

theorem truncate_of_le (h : n ≤ f.bytes.length) : f.truncate n = ⟨f.bytes.take n, f.pos⟩ := by
  unfold truncate
  rw [Nat.sub_eq_zero_of_le h, List.replicate_zero, List.append_nil]

theorem bytes_lseek (f : File) (offset whence : Int) : (f.lseek offset whence).bytes = f.bytes := by
  unfold lseek
  dsimp only
  split
  · split_ifs <;> rfl
  · rfl

theorem lseek_set (n : Nat) : f.lseek n seekSet = { f with pos := n } := by
  unfold lseek
  dsimp only
  rw [if_pos rfl]
  dsimp only
  rw [if_pos (Int.natCast_nonneg n), Int.toNat_natCast]

theorem lseek_cur : f.lseek 0 seekCur = f := by
  unfold lseek
  dsimp only
  rw [if_neg (by decide), if_pos rfl]
  dsimp only
  rw [Int.add_zero, if_pos (Int.natCast_nonneg _), Int.toNat_natCast]

theorem lseek_end : f.lseek 0 seekEnd = { f with pos := f.bytes.length } := by
  unfold lseek
  dsimp only
  rw [if_neg (by decide), if_neg (by decide), if_pos rfl]
  dsimp only
  rw [Int.add_zero, if_pos (Int.natCast_nonneg _), Int.toNat_natCast]

theorem lseek_refused {offset whence : Int} (hset : whence ≠ seekSet) (hcur : whence ≠ seekCur)
    (hend : whence ≠ seekEnd) : f.lseek offset whence = f := by
  unfold lseek
  dsimp only
  rw [if_neg hset, if_neg hcur, if_neg hend]

end File

/-- Bytes that come again behind a gap of zero bytes are all zero. -/
theorem eq_zero_of_prefix_gap {bs : List UInt8} {g : Nat} (hg : 0 < g)
    (h : bs <+: List.replicate g 0 ++ bs) : ∀ b ∈ bs, b = 0 := by
  have hindex : ∀ i (hi : i < bs.length), bs[i] = 0 := by
    intro i
    induction i using Nat.strong_induction_on with
    | _ i ih =>
      intro hi
      have hget := h.getElem hi
      rw [hget]
      rcases Nat.lt_or_ge i g with hlt | hge
      · rw [List.getElem_append_left (by rwa [List.length_replicate]), List.getElem_replicate]
      · rw [List.getElem_append_right (by rwa [List.length_replicate])]
        exact ih _ (by rw [List.length_replicate]; omega) _
  intro b hb
  obtain ⟨i, hi, rfl⟩ := List.getElem_of_mem hb
  exact hindex i hi

end PosixFile
