import Pettycoin.Lib.PosixFile
import Pettycoin.Layout
import Pettycoin.Recv
import Pettycoin.IdealHash

/-!
# Pettycoin — the block file

`blockfile.c`: blocks and transactions are appended to a file as packets, and
`load_blocks` reads them back. What cannot be read is cut off, but the `lseek` that
follows has its last two arguments the wrong way round, so the offset mostly stays
behind the cut (`blockfile_recovers_iff`).

* `loadFrom_prefix` — what `load_blocks` leaves is a beginning of what was there;
* `truncateAt_behind` — where the offset is after what is behind has been cut off;
* `recovers_iff` — when the next start finds what was saved since;
* `blockfile_recovers_iff` — the same over every crash and all that is saved after
  it.
-/

namespace Pettycoin

open PosixFile ExceptRules

-- ---------------------------------------------------------------------------
-- Reading packets
-- ---------------------------------------------------------------------------

/-- `PROTOCOL_MAX_PACKET_LEN`. -/
def protocolMaxPacketLen : Nat := 4 * 1024 * 1024

/-- `io_read_packet_()` run to its end: the packet, or `none` when it fails. -/
def readPacket (f : File) : File × Option (List UInt8) :=
  let (len, f) := f.read 4
  if len.length < 4 then (f, none)
  else
    let max := (le32At len 0).toNat
    if max > protocolMaxPacketLen then (f, none)
    else if max < sizeofNetHdr then (f, none)
    else
      let (body, f) := f.read (max - 4)
      if body.length < max - 4 then (f, none) else (f, some (len ++ body))

/-- A packet with the length it says. -/
structure IsPacket (pkt : List UInt8) : Prop where
  len : (le32At pkt 0).toNat = pkt.length
  min : sizeofNetHdr ≤ pkt.length
  max : pkt.length ≤ protocolMaxPacketLen

theorem le32At_append {a : List UInt8} (h : 4 ≤ a.length) (b : List UInt8) :
    le32At (a ++ b) 0 = le32At a 0 := by
  have hbyte : ∀ i < 4, byteAt (a ++ b) i = byteAt a i := fun i hi => by
    unfold byteAt
    rw [List.getElem?_append_left (by omega)]
  unfold le32At
  rw [hbyte 0 (by omega), hbyte (0 + 1) (by omega), hbyte (0 + 2) (by omega),
    hbyte (0 + 3) (by omega)]

variable {f f' : File} {pkt tail : List UInt8}

theorem readPacket_eof (h : f.rest = []) : readPacket f = (f, none) := by
  unfold readPacket
  rw [File.read_eq, h]
  rfl

/-- A packet that is all there is read. -/
theorem readPacket_packet (hp : IsPacket pkt) (h : f.rest = pkt ++ tail) :
    readPacket f = ({ f with pos := f.pos + pkt.length }, some pkt) := by
  have hmin : 8 ≤ pkt.length := hp.min
  have htake : f.rest.take 4 = pkt.take 4 := by
    rw [h, List.take_append_of_le_length (by omega)]
  have hlen : (pkt.take 4).length = 4 := by
    rw [List.length_take]
    omega
  have hmax : (le32At (pkt.take 4) 0).toNat = pkt.length := by
    rw [← hp.len]
    conv_rhs => rw [← List.take_append_drop 4 pkt]
    rw [le32At_append (by omega)]
  have hbody : (f.read 4).2.rest.take (pkt.length - 4) = pkt.drop 4 := by
    rw [File.rest_read, h, List.drop_append_of_le_length (by omega),
      List.take_append_of_le_length (by rw [List.length_drop]), List.take_of_length_le (by simp)]
  unfold readPacket
  dsimp only
  rw [File.read_eq (f.read 4).2, show (f.read 4).1 = pkt.take 4 from htake, hmax, hbody, hlen,
    if_neg (by omega), if_neg (Nat.not_lt.mpr hp.max), if_neg (Nat.not_lt.mpr hp.min),
    if_neg (by rw [List.length_drop]; omega), List.take_append_drop]
  congr 1
  show File.mk f.bytes (f.pos + (f.read 4).1.length + (pkt.drop 4).length) = _
  rw [show (f.read 4).1 = pkt.take 4 from htake, hlen, List.length_drop]
  congr 1
  omega

/-- What is read is a packet, and the next that there was. -/
theorem of_readPacket_eq_some (h : readPacket f = (f', some pkt)) :
    IsPacket pkt ∧ f.rest = pkt ++ f'.rest ∧ f'.bytes = f.bytes ∧ f'.pos = f.pos + pkt.length := by
  unfold readPacket at h
  dsimp only at h
  split_ifs at h with hlen hmax hmin hbody
  · exact absurd (Prod.mk.inj h).2 (by simp)
  · exact absurd (Prod.mk.inj h).2 (by simp)
  · exact absurd (Prod.mk.inj h).2 (by simp)
  · exact absurd (Prod.mk.inj h).2 (by simp)
  · obtain ⟨rfl, hpkt⟩ := Prod.mk.inj h
    obtain rfl := Option.some.inj hpkt
    have hfour : (f.read 4).1.length = 4 := by
      have hle : (f.read 4).1.length ≤ 4 := List.length_take_le ..
      omega
    have hrest : (f.read 4).2.rest = f.rest.drop 4 := File.rest_read f 4
    have hmin' : 8 ≤ (le32At (f.read 4).1 0).toNat := Nat.le_of_not_lt hmin
    have hbodylen : ((f.read 4).2.read ((le32At (f.read 4).1 0).toNat - 4)).1.length
        = (le32At (f.read 4).1 0).toNat - 4 := by
      have hle : ((f.read 4).2.read ((le32At (f.read 4).1 0).toNat - 4)).1.length
          ≤ (le32At (f.read 4).1 0).toNat - 4 := List.length_take_le ..
      omega
    have hall : ((f.read 4).1 ++ ((f.read 4).2.read ((le32At (f.read 4).1 0).toNat - 4)).1).length
        = (le32At (f.read 4).1 0).toNat := by
      rw [List.length_append, hfour, hbodylen]
      omega
    refine ⟨⟨?_, ?_, ?_⟩, ?_, rfl, ?_⟩
    · rw [hall, le32At_append (Nat.le_of_eq hfour.symm)]
    · rw [hall]
      exact hmin'
    · rw [hall]
      exact Nat.le_of_not_lt hmax
    · rw [File.rest_read, List.append_assoc]
      conv_lhs => rw [← List.take_append_drop 4 f.rest]
      congr 1
      rw [← hrest]
      exact (List.take_append_drop _ _).symm
    · rw [File.pos_read, File.pos_read, List.length_append]
      omega

/-- Where there is no packet nothing is read, but the offset moves. -/
theorem readPacket_none (h : ∀ pkt tail, f.rest = pkt ++ tail → ¬ IsPacket pkt)
    (hne : f.rest ≠ []) :
    ∃ f', readPacket f = (f', none) ∧ f'.bytes = f.bytes ∧ f.pos < f'.pos := by
  have hone : 0 < (f.read 4).1.length := by
    rw [File.read_eq, List.length_take]
    have := List.length_pos_iff.mpr hne
    omega
  cases hread : readPacket f with
  | mk f' r =>
    cases r with
    | some pkt =>
      obtain ⟨hp, hrest, -⟩ := of_readPacket_eq_some hread
      exact absurd hp (h _ _ hrest)
    | none =>
      refine ⟨f', rfl, ?_⟩
      unfold readPacket at hread
      dsimp only at hread
      split_ifs at hread
      · obtain rfl := (Prod.mk.inj hread).1
        exact ⟨rfl, by rw [File.pos_read]; omega⟩
      · obtain rfl := (Prod.mk.inj hread).1
        exact ⟨rfl, by rw [File.pos_read]; omega⟩
      · obtain rfl := (Prod.mk.inj hread).1
        exact ⟨rfl, by rw [File.pos_read]; omega⟩
      · obtain rfl := (Prod.mk.inj hread).1
        exact ⟨rfl, by rw [File.pos_read, File.pos_read]; omega⟩
      · exact absurd (Prod.mk.inj hread).2 (by simp)

-- ---------------------------------------------------------------------------
-- Loading and saving
-- ---------------------------------------------------------------------------

/-- What `load_blocks` does with the state: load one packet, which it may turn down, and
run `check_chains` in the end. -/
structure RecordLoader (σ F : Type) where
  load : σ → List UInt8 → Except F (σ × Bool)
  checkChains : σ → Except F Unit

/-- The `int` that an `off_t` is turned into. -/
def intOfOff (off : Nat) : Int := Int.bmod off (2 ^ 32)

/-- The end of `load_blocks`, from `truncate` on. The offset and `whence` are the wrong
way round in the call of `lseek`. -/
def truncateAt (f : File) (off : Nat) : File :=
  (f.truncate off).lseek File.seekSet (intOfOff off)

variable {σ F : Type}

/-- The loop of `load_blocks`, for so many packets at most. The length of a transaction
packet is read after `load_tx_in_block` has freed it, and taken to be there still. -/
def loadFrom (L : RecordLoader σ F) : Nat → σ → File → Nat → Except F (σ × File)
  | 0, s, f, _ => .ok (s, f)
  | fuel + 1, s, f, off =>
    match readPacket f with
    -- a partial read leaves the offset elsewhere
    | (f, none) => .ok (s, if f.pos ≠ off then truncateAt f off else f)
    | (f, some pkt) =>
      L.load s pkt >>= fun loaded =>
        if loaded.2 then loadFrom L fuel loaded.1 f (off + pkt.length)
        else .ok (loaded.1, truncateAt f off)

/-- `load_blocks()` of a file with these bytes, with the descriptor it saves to. -/
def loadBlocks (L : RecordLoader σ F) (s : σ) (bytes : List UInt8) : Except F (σ × File) :=
  loadFrom L (bytes.length + 1) s ⟨bytes, 0⟩ 0 >>= fun loaded =>
    L.checkChains loaded.1 >>= fun _ => .ok loaded

/-- What `save_block` and `save_tx` write, one packet after the other. -/
def saveAll (f : File) (pkts : List (List UInt8)) : File := pkts.foldl File.write f

/-- The packets load one after the other. -/
inductive Loads (L : RecordLoader σ F) : σ → List (List UInt8) → σ → Prop
  | nil (s : σ) : Loads L s [] s
  | cons {s s' s'' : σ} {pkt : List UInt8} {pkts : List (List UInt8)} :
    IsPacket pkt → L.load s pkt = .ok (s', true) → Loads L s' pkts s'' →
    Loads L s (pkt :: pkts) s''

/-- The bytes begin with no packet, or with one that is turned down. -/
inductive TurnedDown (L : RecordLoader σ F) (s : σ) (tail : List UInt8) : σ → Prop
  | partialRead : (∀ pkt rest, tail = pkt ++ rest → ¬ IsPacket pkt) → TurnedDown L s tail s
  | rejected {s' : σ} {pkt rest : List UInt8} : tail = pkt ++ rest → IsPacket pkt →
    L.load s pkt = .ok (s', false) → TurnedDown L s tail s'

variable {L : RecordLoader σ F} {s s' s'' : σ} {pkts more : List (List UInt8)} {off fuel : Nat}

theorem Loads.append (h : Loads L s pkts s') (h' : Loads L s' more s'') :
    Loads L s (pkts ++ more) s'' := by
  induction h with
  | nil => exact h'
  | cons hp hload _ ih => exact .cons hp hload (ih h')

/-- Packets are no shorter than there are. -/
theorem Loads.length_le (h : Loads L s pkts s') : pkts.length ≤ pkts.flatten.length := by
  induction h with
  | nil => exact Nat.le_refl _
  | cons hp _ _ ih =>
    have hmin : 8 ≤ _ := hp.min
    rw [List.flatten_cons, List.length_append, List.length_cons]
    omega

/-- The loop gets through packets that load. -/
theorem loadFrom_loads (h : Loads L s pkts s') (hrest : f.rest = pkts.flatten ++ tail) :
    loadFrom L (pkts.length + fuel) s f off
      = loadFrom L fuel s' { f with pos := f.pos + pkts.flatten.length }
          (off + pkts.flatten.length) := by
  induction h generalizing f off with
  | nil s =>
    rw [List.length_nil, Nat.zero_add]
    rfl
  | @cons s s₁ s₂ pkt pkts hp hload _ ih =>
    rw [List.flatten_cons, List.append_assoc] at hrest
    rw [List.length_cons, Nat.add_right_comm]
    conv_lhs => unfold loadFrom
    rw [readPacket_packet hp hrest]
    dsimp only
    rw [hload]
    change loadFrom L (pkts.length + fuel) s₁ { f with pos := f.pos + pkt.length }
      (off + pkt.length) = _
    have hnext : ({ f with pos := f.pos + pkt.length } : File).rest = pkts.flatten ++ tail := by
      show f.bytes.drop (f.pos + pkt.length) = _
      rw [← List.drop_drop]
      show f.rest.drop pkt.length = _
      rw [hrest, List.drop_left' rfl]
    rw [ih hnext, List.flatten_cons, List.length_append, ← Nat.add_assoc, ← Nat.add_assoc]

/-- At the end of the file it stops. -/
theorem loadFrom_eof (hrest : f.rest = []) (hpos : f.pos = off) :
    loadFrom L (fuel + 1) s f off = .ok (s, f) := by
  unfold loadFrom
  rw [readPacket_eof hrest]
  dsimp only
  rw [if_neg (not_not_intro hpos)]

/-- What is turned down is cut off, with the offset behind the cut before `lseek`. -/
theorem loadFrom_turnedDown (fuel : Nat) (h : TurnedDown L s tail s') (hne : tail ≠ [])
    (hrest : f.rest = tail) (hpos : f.pos = off) :
    ∃ f', loadFrom L (fuel + 1) s f off = .ok (s', truncateAt f' off) ∧ f'.bytes = f.bytes ∧
      off < f'.pos := by
  unfold loadFrom
  cases h with
  | partialRead hnone =>
    obtain ⟨f', hread, hbytes, hlt⟩ := readPacket_none (fun pkt rest hsplit =>
      hnone pkt rest (hrest ▸ hsplit)) (hrest ▸ hne)
    refine ⟨f', ?_, hbytes, hpos ▸ hlt⟩
    rw [hread]
    dsimp only
    rw [if_pos (by omega)]
  | @rejected _ pkt rest hsplit hp hload =>
    have hmin : 8 ≤ pkt.length := hp.min
    refine ⟨{ f with pos := f.pos + pkt.length }, ?_, rfl, ?_⟩
    · rw [readPacket_packet hp (hrest.trans hsplit)]
      dsimp only
      rw [hload]
      rfl
    · show off < f.pos + pkt.length
      omega

/-- If the loop ends well, then with a packet turned down, or at the end. -/
theorem turnedDown_of_loadFrom {r : σ × File} (hbad : ∀ pkt rest s', tail = pkt ++ rest →
      IsPacket pkt → L.load s pkt ≠ .ok (s', true)) (hrest : f.rest = tail)
    (h : loadFrom L (fuel + 1) s f off = .ok r) : TurnedDown L s tail r.1 := by
  unfold loadFrom at h
  cases hread : readPacket f with
  | mk f' got =>
    rw [hread] at h
    cases got with
    | none =>
      rw [← (Except.ok.inj h)]
      refine .partialRead fun pkt rest hsplit hp => ?_
      rw [readPacket_packet hp (hrest.trans hsplit)] at hread
      exact absurd (Prod.mk.inj hread).2 (by simp)
    | some pkt =>
      obtain ⟨hp, hsplit, -, -⟩ := of_readPacket_eq_some hread
      obtain ⟨⟨s', loaded⟩, hload, h⟩ := of_bind_eq_ok h
      dsimp only at h
      have hreject : loaded = false := by
        by_contra htrue
        rw [Bool.not_eq_false] at htrue
        exact hbad pkt f'.rest s' (hrest ▸ hsplit) hp (htrue ▸ hload)
      subst hreject
      rw [if_neg Bool.false_ne_true] at h
      rw [← (Except.ok.inj h)]
      exact .rejected (hrest ▸ hsplit) hp hload

/-- Whatever is loaded, the file that is left is a beginning of what was there. -/
theorem loadFrom_prefix {r : σ × File} (hoff : off ≤ f.bytes.length)
    (hpos : f.pos = off) (h : loadFrom L fuel s f off = .ok r) : r.2.bytes <+: f.bytes := by
  induction fuel generalizing s f off with
  | zero =>
    obtain rfl := Except.ok.inj h
    exact List.prefix_rfl
  | succ fuel ih =>
    have htrunc : ∀ f' : File, f'.bytes = f.bytes → (truncateAt f' off).bytes <+: f.bytes := by
      intro f' hf'
      unfold truncateAt
      rw [File.bytes_lseek, File.truncate_of_le (by rw [hf']; exact hoff), hf']
      exact List.take_prefix ..
    unfold loadFrom at h
    cases hread : readPacket f with
    | mk f' got =>
      rw [hread] at h
      cases got with
      | none =>
        have hbytes : f'.bytes = f.bytes := by
          by_cases hne : f.rest = []
          · rw [readPacket_eof hne] at hread
            rw [← (Prod.mk.inj hread).1]
          · obtain ⟨f'', hread', hbytes, -⟩ := readPacket_none (fun pkt rest hsplit hp => by
              rw [readPacket_packet hp hsplit] at hread
              exact absurd (Prod.mk.inj hread).2 (by simp)) hne
            rw [hread] at hread'
            rw [(Prod.mk.inj hread').1]
            exact hbytes
        rw [← Except.ok.inj h]
        dsimp only
        split_ifs
        · exact htrunc f' hbytes
        · exact hbytes ▸ List.prefix_rfl
      | some pkt =>
        obtain ⟨-, hsplit, hbytes, hpos'⟩ := of_readPacket_eq_some hread
        obtain ⟨⟨s', loaded⟩, -, h⟩ := of_bind_eq_ok h
        dsimp only at h
        split_ifs at h
        · have hlen : pkt.length ≤ f.rest.length := by
            rw [hsplit, List.length_append]
            exact Nat.le_add_right ..
          have hrestlen : f.rest.length = f.bytes.length - f.pos := List.length_drop ..
          have hle : off + pkt.length ≤ f'.bytes.length := by
            rw [hbytes]
            omega
          rw [← hbytes]
          exact ih hle (by omega) h
        · rw [← Except.ok.inj h]
          exact htrunc f' hbytes

-- ---------------------------------------------------------------------------
-- The offset behind the cut
-- ---------------------------------------------------------------------------

theorem intOfOff_eq_iff (off : Nat) :
    (intOfOff off = File.seekSet ↔ off % 2 ^ 32 = 0) ∧
    (intOfOff off = File.seekCur ↔ off % 2 ^ 32 = 1) ∧
    (intOfOff off = File.seekEnd ↔ off % 2 ^ 32 = 2) := by
  unfold intOfOff Int.bmod File.seekSet File.seekCur File.seekEnd
  dsimp only
  split_ifs <;> omega

/-- Where the descriptor stands after the cut: right in an empty file, and where the
length is `SEEK_END`. -/
theorem truncateAt_behind {bytes : List UInt8} (hbytes : f.bytes = bytes ++ tail)
    (hlt : bytes.length < f.pos) :
    ∃ q, truncateAt f bytes.length = ⟨bytes, q⟩ ∧ (q = 0 ∨ bytes.length ≤ q) ∧
      (q = bytes.length ↔ bytes = [] ∨ bytes.length % 2 ^ 32 = 2) := by
  have htrunc : f.truncate bytes.length = ⟨bytes, f.pos⟩ := by
    rw [File.truncate_of_le (by rw [hbytes, List.length_append]; exact Nat.le_add_right ..), hbytes,
      List.take_left' rfl]
  have hnil : bytes = [] ↔ bytes.length = 0 := List.length_eq_zero_iff.symm
  obtain ⟨hset, hcur, hend⟩ := intOfOff_eq_iff bytes.length
  unfold truncateAt
  rw [htrunc]
  by_cases h₀ : bytes.length % 2 ^ 32 = 0
  · refine ⟨0, ?_, Or.inl rfl, by rw [hnil]; omega⟩
    rw [hset.mpr h₀]
    exact File.lseek_set 0
  have hne : bytes ≠ [] := fun hempty => h₀ (by rw [hempty, List.length_nil, Nat.zero_mod])
  by_cases h₁ : bytes.length % 2 ^ 32 = 1
  · refine ⟨f.pos, ?_, Or.inr (Nat.le_of_lt hlt), iff_of_false (Nat.ne_of_gt hlt) ?_⟩
    · rw [hcur.mpr h₁]
      exact File.lseek_cur
    · rintro (hempty | h₂)
      · exact hne hempty
      · exact absurd (h₁.symm.trans h₂) (by decide)
  by_cases h₂ : bytes.length % 2 ^ 32 = 2
  · refine ⟨bytes.length, ?_, Or.inr (Nat.le_refl _), iff_of_true rfl (Or.inr h₂)⟩
    rw [hend.mpr h₂]
    exact File.lseek_end
  · refine ⟨f.pos, ?_, Or.inr (Nat.le_of_lt hlt), iff_of_false (Nat.ne_of_gt hlt) ?_⟩
    · exact File.lseek_refused (fun h => h₀ (hset.mp h)) (fun h => h₁ (hcur.mp h))
        fun h => h₂ (hend.mp h)
    · rintro (hempty | h)
      · exact hne hempty
      · exact h₂ h

-- ---------------------------------------------------------------------------
-- Recovery
-- ---------------------------------------------------------------------------

/-- After a crash: the file is cut to the packets that load, and once more are saved it
loads again, these packets and then the new ones. -/
def Recovers (L : RecordLoader σ F) (s : σ) (pkts : List (List UInt8)) (tail : List UInt8)
    (more : List (List UInt8)) : Prop :=
  ∃ s₁ f₁, loadBlocks L s (pkts.flatten ++ tail) = .ok (s₁, f₁) ∧ f₁.bytes = pkts.flatten ∧
    ∃ s₂ f₂, loadBlocks L s (saveAll f₁ more).bytes = .ok (s₂, f₂) ∧
      f₂.bytes = (pkts ++ more).flatten ∧ Loads L s (pkts ++ more) s₂

/-- The loop over packets that load and a tail that does not. -/
theorem loadFrom_tail (h : Loads L s pkts s') (hne : tail ≠ [])
    (hdown : TurnedDown L s' tail s'') (hfuel : pkts.length < fuel) :
    ∃ q, loadFrom L fuel s ⟨pkts.flatten ++ tail, 0⟩ 0 = .ok (s'', ⟨pkts.flatten, q⟩) ∧
      (q = 0 ∨ pkts.flatten.length ≤ q) ∧
      (q = pkts.flatten.length ↔ pkts.flatten = [] ∨ pkts.flatten.length % 2 ^ 32 = 2) := by
  obtain ⟨n, rfl⟩ := Nat.exists_eq_add_of_lt hfuel
  rw [Nat.add_assoc, loadFrom_loads h (f := ⟨pkts.flatten ++ tail, 0⟩) rfl]
  dsimp only
  rw [Nat.zero_add]
  have hrest : (⟨pkts.flatten ++ tail, pkts.flatten.length⟩ : File).rest = tail :=
    List.drop_left' rfl
  obtain ⟨f', hload, hbytes, hlt⟩ := loadFrom_turnedDown n hdown hne hrest rfl
  obtain ⟨q, hq, hpos⟩ := truncateAt_behind hbytes hlt
  exact ⟨q, by rw [hload, hq], hpos⟩

/-- A file of packets that load is loaded to its end. -/
theorem loadBlocks_loads (h : Loads L s pkts s') (hcheck : L.checkChains s' = .ok ()) :
    loadBlocks L s pkts.flatten = .ok (s', ⟨pkts.flatten, pkts.flatten.length⟩) := by
  unfold loadBlocks
  obtain ⟨n, hn⟩ := Nat.exists_eq_add_of_le h.length_le
  rw [show pkts.flatten.length + 1 = pkts.length + (n + 1) by omega,
    loadFrom_loads h (List.append_nil _).symm]
  dsimp only
  have hrest : (⟨pkts.flatten, pkts.flatten.length⟩ : File).rest = [] := List.drop_length ..
  rw [Nat.zero_add, loadFrom_eof hrest rfl]
  show L.checkChains s' >>= _ = _
  rw [hcheck]
  rfl

/-- A length is not all zero. -/
theorem IsPacket.ne_zero (h : IsPacket pkt) : ¬ ∀ b ∈ pkt, b = 0 := by
  intro hzero
  have hbyte : ∀ i, byteAt pkt i = 0 := fun i => by
    unfold byteAt
    cases hi : pkt[i]? with
    | none => rfl
    | some b => exact hzero b (List.mem_of_getElem? hi)
  have hlen : le32At pkt 0 = 0 := by
    unfold le32At
    rw [hbyte, hbyte, hbyte, hbyte]
    rfl
  have hmin : 8 ≤ pkt.length := h.min
  rw [← h.len, hlen] at hmin
  exact absurd hmin (by decide)

theorem Loads.ne_zero (h : Loads L s more s') (hne : more ≠ []) :
    more.flatten ≠ [] ∧ ¬ ∀ b ∈ more.flatten, b = 0 := by
  cases h with
  | nil => exact absurd rfl hne
  | cons hp _ _ =>
    have hmin : 8 ≤ _ := hp.min
    refine ⟨fun hnil => ?_, fun hzero => hp.ne_zero fun b hb => hzero b ?_⟩
    · rw [List.flatten_cons, List.append_eq_nil_iff] at hnil
      rw [hnil.1] at hmin
      exact absurd hmin (by decide)
    · rw [List.flatten_cons]
      exact List.mem_append_left _ hb

/-- Of what is saved at another place than the end, nothing comes back whole. -/
theorem saveAll_not_prefix {bytes : List UInt8} {q : Nat} (h : Loads L s more s') (hne : more ≠ [])
    (hq : q = 0 ∨ bytes.length ≤ q) (hpos : q ≠ bytes.length) :
    ¬ bytes ++ more.flatten <+: (saveAll ⟨bytes, q⟩ more).bytes := by
  obtain ⟨hnil, hzero⟩ := h.ne_zero hne
  unfold saveAll
  rw [File.foldl_write]
  intro hprefix
  rcases hq with rfl | hle
  · -- the start is overwritten, and the file too short
    rw [File.write_start rfl] at hprefix
    have hlen := hprefix.length_le
    rw [List.length_append, List.length_append, List.length_drop] at hlen
    dsimp only at hlen
    have hmore := List.length_pos_iff.mpr hnil
    omega
  · -- there is a gap
    rw [File.write_beyond hle hnil, List.append_assoc] at hprefix
    have hgap := (List.prefix_append_right_inj bytes).mp hprefix
    exact hzero (eq_zero_of_prefix_gap (by show 0 < q - bytes.length; omega) hgap)

/-- Whatever it is that loads a packet: recovery hangs on the tail being turned down, on
the checks, and on the offset. -/
theorem recovers_iff (hload : Loads L s pkts s') (hne : tail ≠ [])
    (hbad : ∀ pkt rest x, tail = pkt ++ rest → IsPacket pkt → L.load s' pkt ≠ .ok (x, true))
    (hmore : Loads L s' more s'') :
    Recovers L s pkts tail more ↔
      (∃ x, TurnedDown L s' tail x ∧ L.checkChains x = .ok ()) ∧ L.checkChains s'' = .ok () ∧
        (more = [] ∨ pkts.flatten = [] ∨ pkts.flatten.length % 2 ^ 32 = 2) := by
  have hfuel : pkts.length < (pkts.flatten ++ tail).length + 1 := by
    have hle := hload.length_le
    rw [List.length_append]
    omega
  have hsaved : ∀ q, (more = [] ∨ q = pkts.flatten.length) →
      (saveAll ⟨pkts.flatten, q⟩ more).bytes = (pkts ++ more).flatten := by
    rintro q (rfl | rfl)
    · rw [List.append_nil]
      rfl
    · unfold saveAll
      rw [File.foldl_write, File.write_end rfl, List.flatten_append]
  constructor
  · rintro ⟨s₁, f₁, hfirst, -, s₂, f₂, hsecond, hkept, -⟩
    unfold loadBlocks at hfirst hsecond
    obtain ⟨r, hloop, hcheck⟩ := of_bind_eq_ok hfirst
    obtain ⟨⟨⟩, hcheck₁, heq⟩ := of_bind_eq_ok hcheck
    obtain rfl := Except.ok.inj heq
    have hdown : TurnedDown L s' tail s₁ := by
      obtain ⟨n, hn⟩ := Nat.exists_eq_add_of_lt hfuel
      rw [hn, Nat.add_assoc, loadFrom_loads hload (f := ⟨pkts.flatten ++ tail, 0⟩) rfl] at hloop
      dsimp only at hloop
      rw [Nat.zero_add] at hloop
      have hrest : (⟨pkts.flatten ++ tail, pkts.flatten.length⟩ : File).rest = tail :=
        List.drop_left' rfl
      exact turnedDown_of_loadFrom hbad hrest hloop
    obtain ⟨q, hloop', hq, hqiff⟩ := loadFrom_tail hload hne hdown hfuel
    obtain rfl := (Prod.mk.inj (Except.ok.inj (hloop.symm.trans hloop'))).2
    obtain ⟨r, hloop₂, hcheck⟩ := of_bind_eq_ok hsecond
    obtain ⟨⟨⟩, hcheck₂, heq⟩ := of_bind_eq_ok hcheck
    obtain rfl := Except.ok.inj heq
    -- the new packets are where the old ones end
    have hend : more = [] ∨ q = pkts.flatten.length := by
      by_contra hnot
      rw [not_or] at hnot
      refine saveAll_not_prefix hmore hnot.1 hq hnot.2 ?_
      rw [← List.flatten_append, ← hkept]
      exact loadFrom_prefix (Nat.zero_le _) rfl hloop₂
    refine ⟨⟨s₁, hdown, hcheck₁⟩, ?_, hend.imp_right fun h => hqiff.mp h⟩
    have hwhole := hload.append hmore
    rw [hsaved q hend] at hloop₂
    obtain ⟨n, hn⟩ := Nat.exists_eq_add_of_le hwhole.length_le
    rw [show (pkts ++ more).flatten.length + 1 = (pkts ++ more).length + (n + 1) by omega,
      loadFrom_loads hwhole (List.append_nil _).symm] at hloop₂
    have hrest : (⟨(pkts ++ more).flatten, (pkts ++ more).flatten.length⟩ : File).rest = [] :=
      List.drop_length ..
    dsimp only at hloop₂
    rw [Nat.zero_add, loadFrom_eof hrest rfl] at hloop₂
    rw [(Prod.mk.inj (Except.ok.inj hloop₂)).1]
    exact hcheck₂
  · rintro ⟨⟨x, hdown, hcheck₁⟩, hcheck₂, hend⟩
    obtain ⟨q, hloop, -, hqiff⟩ := loadFrom_tail hload hne hdown hfuel
    have hwhole := hload.append hmore
    refine ⟨x, ⟨pkts.flatten, q⟩, ?_, rfl, s'',
      ⟨(pkts ++ more).flatten, (pkts ++ more).flatten.length⟩, ?_, rfl, hwhole⟩
    · unfold loadBlocks
      rw [hloop]
      show L.checkChains x >>= _ = _
      rw [hcheck₁]
      rfl
    · rw [hsaved q (hend.imp_right hqiff.mpr)]
      exact loadBlocks_loads hwhole hcheck₂

-- ---------------------------------------------------------------------------
-- The node's own file
-- ---------------------------------------------------------------------------

section

variable {D : Type} [Digest D] [DecidableEq D]

/-- `PROTOCOL_PKT_TX_IN_BLOCK`. -/
def protocolPktTxInBlock : UInt32 := 15

/-- `load_block()`, for a packet of `PROTOCOL_PKT_BLOCK`. -/
def loadBlock (E : Env D) (view : List UInt8 → D) (s : State D) (pkt : List UInt8) :
    Res (State D × Bool) :=
  let contents := pkt.drop sizeofPktBlock
  -- the size wraps, and is that of no block
  if pkt.length < sizeofPktBlock then .ok (s, false)
  else
    match unmarshalBlock view (bytesAt contents 0 (UInt32.ofNat contents.length).toNat) with
    | .error _ => .ok (s, false)
    | .ok p => do
      match ← checkBlockHeader E.crypto s p with
      | (.none, some prev) => do
        let (s, _) ← blockAdd s prev (p.toNewBlock E.crypto)
        .ok (s, true)
      | _ => .ok (s, false)

/-- What a packet of `PROTOCOL_PKT_TX_IN_BLOCK` unmarshals to. -/
inductive PktTxInBlock (D : Type)
  /-- Of a wrong length, or with an error that is not known. -/
  | invalid (e : Ecode)
  /-- They do not know the block, or the transaction. -/
  | unknown
  /-- The transaction or the refs behind the proof do not unmarshal. -/
  | malformed (proof : Proof D) (e : Ecode)
  | proven (t : ProvenTx D)

/-- `load_tx_in_block()`, with `recv_tx_from_blockfile()`. -/
def loadTxInBlock (E : Env D) (s : State D) : PktTxInBlock D → Res (State D × Bool)
  | .invalid _ => .ok (s, false)
  | .unknown => .ok (s, true)
  | .malformed proof _ => .ok (s, (blockFindAny s proof.pos.block).isNone)
  | .proven t => do
    let (s, e) ← recvTxInBlock E s none t
    .ok (s, e = .none)

/-- `check_block()`. -/
def checkBlock (E : Env D) (s : State D) (b : BlockId) (all : Bool) : Res Unit := do
  let blk := s.blk b
  if b ≠ 0 then
    let enough ← beatsTarget blk.sha blk.tailer.difficulty
    assert enough .checkChains
  assert (E.crypto.doubleSha (Digest.bytes (E.crypto.doubleSha blk.prevTxhashes)
    ++ Digest.bytes (E.crypto.doubleSha (blk.merkles.flatMap Digest.bytes))
    ++ marshalHeader blk.hdr ++ blk.shardNums ++ marshalTailer blk.tailer) = blk.sha) .checkChains
  match blk.prev with
  | none => .ok ()
  | some p => do
    assert (!blk.allKnown || (s.blk p).allKnown) .checkChains
    assert ((s.blk p).complaint.isNone || blk.complaint.isSome) .checkChains
  if all then (List.range blk.numShards).forM fun i => checkBlockShard E s b i .checkChains

/-- `check_chains(state, true)`. -/
def checkChainsAll (E : Env D) (s : State D) : Res Unit := do
  checkChains s
  (List.range s.numBlocks).forM fun b => do
    let blk := s.blk b
    match blk.prev with
    | none => .ok ()
    | some p => do
      assert (blk.depth = (s.blk p).depth + 1) .checkChains
      assert (blk.hdr.prevBlock = (s.blk p).sha) .checkChains
      assert ((s.blk p).complaint.isNone || blk.complaint.isSome) .checkChains
    assert (blk.complaint.isSome || cmpWork s b (s.longestChains.headD 0) != .gt) .checkChains
    assert (blk.complaint.isSome || !blk.allKnown
      || cmpWork s b (s.longestKnowns.headD 0) != .gt) .checkChains
    checkBlock E s b true

/-- The `switch` of `load_blocks`. A digest is `view` of its bytes, and `txPkt` is what a
transaction packet unmarshals to. -/
def nodeLoader (E : Env D) (view : List UInt8 → D) (txPkt : List UInt8 → PktTxInBlock D) :
    RecordLoader (State D) Fault where
  load s pkt :=
    let type := le32At pkt 4
    if type = protocolPktBlock then loadBlock E view s pkt
    else if type = protocolPktTxInBlock then loadTxInBlock E s (txPkt pkt)
    else .ok (s, false)
  checkChains := checkChainsAll E

/-- **When the block file survives a crash.** For every file of packets that load and a
tail that does not begin with one, and all packets saved afterwards: the file is cut to
the packets that load, and loads again with the new ones behind them, exactly when the
tail is turned down without stopping the program, the chains pass their check each
time, and nothing more is saved, or nothing was loaded, or the length loaded is 2 modulo
`2 ^ 32`. -/
theorem blockfile_recovers_iff (E : Env D) (view : List UInt8 → D)
    (txPkt : List UInt8 → PktTxInBlock D) {s s' s'' : State D}
    (hload : Loads (nodeLoader E view txPkt) s pkts s') (hne : tail ≠ [])
    (hbad : ∀ pkt rest x, tail = pkt ++ rest → IsPacket pkt →
      (nodeLoader E view txPkt).load s' pkt ≠ .ok (x, true))
    (hmore : Loads (nodeLoader E view txPkt) s' more s'') :
    Recovers (nodeLoader E view txPkt) s pkts tail more ↔
      (∃ x, TurnedDown (nodeLoader E view txPkt) s' tail x ∧ checkChainsAll E x = .ok ()) ∧
        checkChainsAll E s'' = .ok () ∧
        (more = [] ∨ pkts.flatten = [] ∨ pkts.flatten.length % 2 ^ 32 = 2) :=
  recovers_iff hload hne hbad hmore

end

-- ---------------------------------------------------------------------------
-- A file cut short
-- ---------------------------------------------------------------------------

/-- A checksum for a hash. -/
def fileCrypto : Crypto IdealDigest :=
  { idealCrypto with doubleSha := fun msg => .hash [msg.foldl (fun sum b => sum * 31 + b) 0] }

/-- The root over no transactions. -/
def fileRoot : IdealDigest := (merkleTxs fileCrypto (newBlockShard 0 0)).toOption.getD .zero

/-- The hash of the genesis block. -/
def fileSha : IdealDigest :=
  hashBlock fileCrypto
    { hdr := (genesisBlock .zero fileRoot (Bytes.zero 13) ⟨0, 0x1effffff, 0⟩).hdr
      shardNums := List.replicate 4 0, merkles := List.replicate 4 fileRoot, prevTxhashes := []
      tailer := ⟨0, 0x1effffff, 0⟩, shardNums_length := Nat.eq_of_beq_eq_true rfl
      merkles_length := Nat.eq_of_beq_eq_true rfl
      prevTxhashes_length := Nat.eq_of_beq_eq_true rfl }

/-- A node that loads its first file. -/
def fileNode : State IdealDigest :=
  newState (genesisBlock fileSha fileRoot (Bytes.zero 13) ⟨0, 0x1effffff, 0⟩) 0

/-- A packet with an empty block on the genesis block: zero bytes stand for its hash, ones
for the root over no transactions. -/
def filePkt (nonce : UInt8) : List UInt8 :=
  le32 236 ++ le32 protocolPktBlock ++ le32 0 ++ [1, 0, 2, nonce] ++ List.replicate 44 0 ++ le32 4
    ++ le32 1 ++ List.replicate 24 0 ++ List.replicate 128 1 ++ List.replicate 4 0 ++ le32 1
    ++ le32 0x1effffff ++ le32 0

/-- It loads such packets. -/
def fileLoader : RecordLoader (State IdealDigest) Fault :=
  nodeLoader { idealEnv with crypto := fileCrypto }
    (fun bytes => if bytes.all (· == 0) then fileSha else fileRoot) fun _ => .unknown

theorem filePkt_length (nonce : UInt8) : (filePkt nonce).length = 236 := by
  simp only [filePkt, List.length_append, le32_length, List.length_replicate, List.length_cons,
    List.length_nil]

theorem isPacket_filePkt (nonce : UInt8) : IsPacket (filePkt nonce) where
  len := by
    rw [filePkt_length, filePkt]
    simp only [List.append_assoc]
    rw [le32At_append (Nat.le_of_eq (le32_length _).symm)]
    rfl
  min := by
    rw [filePkt_length]
    decide
  max := by
    rw [filePkt_length]
    decide

/-- One block is loaded, and another saved. -/
theorem loads_filePkt : ∃ s s', Loads fileLoader fileNode [filePkt 1] s ∧
    Loads fileLoader s [filePkt 2] s' := by
  have hrun : (do
      let (s, first) ← fileLoader.load fileNode (filePkt 1)
      let (_, second) ← fileLoader.load s (filePkt 2)
      .ok (first, second) : Res (Bool × Bool)) = .ok (true, true) := by decide +kernel
  obtain ⟨⟨s, first⟩, hfirst, hrun⟩ := of_bind_eq_ok hrun
  obtain ⟨⟨s', second⟩, hsecond, hrun⟩ := of_bind_eq_ok hrun
  obtain ⟨rfl, rfl⟩ := Prod.mk.inj (Except.ok.inj hrun)
  exact ⟨s, s', .cons (isPacket_filePkt 1) hfirst (.nil s),
    .cons (isPacket_filePkt 2) hsecond (.nil s')⟩

/-- A single byte begins no packet. -/
theorem not_isPacket_of_zero {pkt rest : List UInt8} (h : [(0 : UInt8)] = pkt ++ rest) :
    ¬ IsPacket pkt := by
  intro hp
  have hmin : 8 ≤ pkt.length := hp.min
  have hlen := congrArg List.length h
  rw [List.length_append, List.length_singleton] at hlen
  omega

theorem blockfile_recovers_iff_filePkt :
    ∃ s s', Loads fileLoader fileNode [filePkt 1] s ∧ Loads fileLoader s [filePkt 2] s' ∧
      (Recovers fileLoader fileNode [filePkt 1] [0] [filePkt 2] ↔
        (∃ x, TurnedDown fileLoader s [0] x ∧ fileLoader.checkChains x = .ok ()) ∧
          fileLoader.checkChains s' = .ok () ∧
          ([filePkt 2] = [] ∨ [filePkt 1].flatten = [] ∨
            [filePkt 1].flatten.length % 2 ^ 32 = 2)) := by
  obtain ⟨s, s', hfirst, hsecond⟩ := loads_filePkt
  exact ⟨s, s', hfirst, hsecond, blockfile_recovers_iff _ _ _ hfirst (by decide)
    (fun _ _ _ h hp => absurd hp (not_isPacket_of_zero h)) hsecond⟩

/-- A block loads and a stray byte behind it is cut off. The block saved next loads where
it belongs, but it is saved one byte further on, and lost with the next start. -/
theorem saved_block_lost :
    (∃ s s', Loads fileLoader fileNode [filePkt 1] s ∧ Loads fileLoader s [filePkt 2] s') ∧
      (loadBlocks fileLoader fileNode (filePkt 1 ++ [0])).map Prod.snd
        = .ok ⟨filePkt 1, 237⟩ ∧
      (loadBlocks fileLoader fileNode (saveAll ⟨filePkt 1, 237⟩ [filePkt 2]).bytes).map
        (fun r => r.2.bytes) = .ok (filePkt 1) ∧
      ¬ Recovers fileLoader fileNode [filePkt 1] [0] [filePkt 2] := by
  refine ⟨loads_filePkt, by decide +kernel, by decide +kernel, fun hrec => ?_⟩
  obtain ⟨s, s', hfirst, hsecond⟩ := loads_filePkt
  obtain ⟨-, -, hnil | hnil | hmod⟩ := (recovers_iff hfirst (by decide)
    (fun _ _ _ h hp => absurd hp (not_isPacket_of_zero h)) hsecond).mp hrec
  · exact absurd hnil (by simp)
  · have hlen := congrArg List.length hnil
    rw [List.flatten_cons, List.length_append, filePkt_length] at hlen
    exact absurd hlen (by simp)
  · rw [List.flatten_cons, List.length_append, filePkt_length] at hmod
    exact absurd hmod (by decide)

end Pettycoin
