import Mathlib.Data.UInt
import Mathlib.Data.List.Basic

/-!
# Pettycoin — hexadecimal strings

`hex.c`, and the decoder that `sendrawtransaction.c` has of its own. Its table takes the
digits `A` to `F` from the wrong end: it reads them as 5 to 10. So the two agree on a string
exactly if there is no such digit in it (`dehex_agrees_iff`).

* `hexchar_eq_charToHex_iff` — the digits that the two read alike;
* `charToHex_eq_none`, `dehex_eq_none` — what they reject;
* `decode_hexString` — what they make of the digits of some bytes;
* `dehex_agrees_iff` — the strings that they agree on.
-/

namespace Pettycoin

-- ---------------------------------------------------------------------------
-- hex.c
-- ---------------------------------------------------------------------------

/-- `char_to_hex()`. -/
def charToHex (c : UInt8) : Option UInt8 :=
  if c ≥ '0'.toUInt8 ∧ c ≤ '9'.toUInt8 then some (c - '0'.toUInt8)
  else if c ≥ 'a'.toUInt8 ∧ c ≤ 'f'.toUInt8 then some (c - 'a'.toUInt8 + 10)
  else if c ≥ 'A'.toUInt8 ∧ c ≤ 'F'.toUInt8 then some (c - 'A'.toUInt8 + 10)
  else none

/-- `from_hex()`, with what it has put into the buffer when it returns true. -/
def fromHex : List UInt8 → Nat → Option (List UInt8)
  | c1 :: c2 :: str, bufsize =>
    match charToHex c1, charToHex c2 with
    | some v1, some v2 =>
      if bufsize = 0 then none else (fromHex str (bufsize - 1)).map ((v1 <<< 4 ||| v2) :: ·)
    | _, _ => none
  | str, bufsize => if str.length = 0 ∧ bufsize = 0 then some [] else none

/-- `hexchar()` of `hex.c`; it aborts on other values. -/
def hexchar (val : UInt8) : Option UInt8 :=
  if val < 10 then some ('0'.toUInt8 + val)
  else if val < 16 then some ('a'.toUInt8 + val - 10)
  else none

/-- `to_hex_direct()`: what it has written when it returns. -/
def toHexDirect : Nat → List UInt8 → Option (List UInt8)
  | _, [] => some [0]
  | destlen, c :: buf =>
    if destlen ≥ 3 then
      (hexchar (c >>> 4)).bind fun high => (hexchar (c &&& 0xF)).bind fun low =>
        (toHexDirect (destlen - 2) buf).map fun dest => high :: low :: dest
    else some [0]

/-- `to_hex()`, with the nul at the end. -/
def toHex (buf : List UInt8) : Option (List UInt8) := toHexDirect (buf.length * 2 + 1) buf

-- ---------------------------------------------------------------------------
-- sendrawtransaction.c
-- ---------------------------------------------------------------------------

/-- `hexchar()` of `sendrawtransaction.c`. -/
def Sendrawtransaction.hexchar (c : UInt8) : Option UInt8 :=
  if c ≥ '0'.toUInt8 ∧ c ≤ '9'.toUInt8 then some (c - '0'.toUInt8)
  else if c ≥ 'a'.toUInt8 ∧ c ≤ 'f'.toUInt8 then some (c - 'a'.toUInt8 + 10)
  else if c ≥ 'A'.toUInt8 ∧ c ≤ 'F'.toUInt8 then some (c - 'F'.toUInt8 + 10)
  else none

/-- `dehex()`. -/
def dehex : List UInt8 → Option (List UInt8)
  | [] => some []
  | [_] => none
  | c1 :: c2 :: p =>
    match Sendrawtransaction.hexchar c1, Sendrawtransaction.hexchar c2 with
    | some b1, some b2 => (dehex p).map ((b1 <<< 4 ||| b2) :: ·)
    | _, _ => none

-- ---------------------------------------------------------------------------
-- The digits
-- ---------------------------------------------------------------------------

/-- One of `A` to `F`. -/
def UpperDigit (c : UInt8) : Prop := 'A'.toUInt8 ≤ c ∧ c ≤ 'F'.toUInt8

/-- A hexadecimal digit, in upper or lower case. -/
def HexDigit (c : UInt8) : Prop :=
  ('0'.toUInt8 ≤ c ∧ c ≤ '9'.toUInt8) ∨ ('a'.toUInt8 ≤ c ∧ c ≤ 'f'.toUInt8) ∨ UpperDigit c

instance (c : UInt8) : Decidable (UpperDigit c) := inferInstanceAs (Decidable (_ ∧ _))

instance (c : UInt8) : Decidable (HexDigit c) := inferInstanceAs (Decidable (_ ∨ _))

/-- What holds of the 256 bytes holds of every byte. -/
theorem forall_byte {P : UInt8 → Prop} (h : ∀ i : Fin 256, P (UInt8.ofFin i)) (c : UInt8) : P c :=
  h c.toFin

/-- `char_to_hex` knows the digits and no other characters. -/
theorem isSome_charToHex (c : UInt8) : (charToHex c).isSome = true ↔ HexDigit c :=
  forall_byte (P := fun c => (charToHex c).isSome = true ↔ HexDigit c) (by decide +kernel) c

/-- So does the other table. -/
theorem isSome_hexchar (c : UInt8) : (Sendrawtransaction.hexchar c).isSome = true ↔ HexDigit c :=
  forall_byte (P := fun c => (Sendrawtransaction.hexchar c).isSome = true ↔ HexDigit c)
    (by decide +kernel) c

/-- Both values are of four bits. -/
theorem digits_lt (c : UInt8) : (charToHex c).all (· < 16) = true ∧
    (Sendrawtransaction.hexchar c).all (· < 16) = true :=
  forall_byte (P := fun c => (charToHex c).all (· < 16) = true ∧
    (Sendrawtransaction.hexchar c).all (· < 16) = true) (by decide +kernel) c

/-- The tables differ in the digits `A` to `F`, and in all of them. -/
theorem hexchar_eq_charToHex_iff (c : UInt8) :
    Sendrawtransaction.hexchar c = charToHex c ↔ ¬ UpperDigit c :=
  forall_byte (P := fun c => Sendrawtransaction.hexchar c = charToHex c ↔ ¬ UpperDigit c)
    (by decide +kernel) c

/-- A digit that was written is read back, by both. -/
theorem hexchar_read (val : UInt8) : val < 16 →
    (hexchar val).bind charToHex = some val ∧
      (hexchar val).bind Sendrawtransaction.hexchar = some val :=
  forall_byte (P := fun val => val < 16 → (hexchar val).bind charToHex = some val ∧
    (hexchar val).bind Sendrawtransaction.hexchar = some val) (by decide +kernel) val

/-- The byte that two digits make. -/
theorem toNat_digits {a b : UInt8} (ha : a < 16) (hb : b < 16) :
    (a <<< 4 ||| b).toNat = 16 * a.toNat + b.toNat := by
  have ha' : a.toNat < 16 := ha
  have hb' : b.toNat < 2 ^ 4 := hb
  have hhigh : a.toNat <<< 4 % 2 ^ 8 = a.toNat <<< 4 := by
    rw [Nat.shiftLeft_eq]
    omega
  rw [UInt8.toNat_or, UInt8.toNat_shiftLeft]
  show a.toNat <<< 4 % 2 ^ 8 ||| b.toNat = _
  rw [hhigh, ← Nat.shiftLeft_add_eq_or_of_lt hb', Nat.shiftLeft_eq]
  omega

/-- It tells them both. -/
theorem digits_inj {a b a' b' : UInt8} (ha : a < 16) (hb : b < 16) (ha' : a' < 16) (hb' : b' < 16) :
    a <<< 4 ||| b = a' <<< 4 ||| b' ↔ a = a' ∧ b = b' := by
  have hlow : b.toNat < 16 := hb
  have hlow' : b'.toNat < 16 := hb'
  rw [← UInt8.toNat_inj, toNat_digits ha hb, toNat_digits ha' hb', ← UInt8.toNat_inj,
    ← UInt8.toNat_inj]
  omega

/-- A byte is made of its two halves. -/
theorem byte_halves (c : UInt8) : c >>> 4 < 16 ∧ c &&& 0xF < 16 ∧ (c >>> 4) <<< 4 ||| (c &&& 0xF) = c :=
  forall_byte (P := fun c => c >>> 4 < 16 ∧ c &&& 0xF < 16 ∧ (c >>> 4) <<< 4 ||| (c &&& 0xF) = c)
    (by decide +kernel) c

-- ---------------------------------------------------------------------------
-- Strings
-- ---------------------------------------------------------------------------

/-- Hexadecimal digits, and an even number of them. -/
def HexString (str : List UInt8) : Prop := str.length % 2 = 0 ∧ ∀ c ∈ str, HexDigit c

theorem hexString_cons_cons {c1 c2 : UInt8} {str : List UInt8} :
    HexString (c1 :: c2 :: str) ↔ HexDigit c1 ∧ HexDigit c2 ∧ HexString str := by
  unfold HexString
  rw [List.forall_mem_cons, List.forall_mem_cons, List.length_cons, List.length_cons]
  constructor
  · rintro ⟨hlen, h1, h2, hall⟩
    exact ⟨h1, h2, by omega, hall⟩
  · rintro ⟨h1, h2, hlen, hall⟩
    exact ⟨by omega, h1, h2, hall⟩

theorem exists_charToHex {c : UInt8} (h : HexDigit c) : ∃ v, charToHex c = some v ∧ v < 16 := by
  obtain ⟨v, hv⟩ := Option.isSome_iff_exists.mp ((isSome_charToHex c).mpr h)
  have hlt := (digits_lt c).1
  rw [hv] at hlt
  exact ⟨v, hv, of_decide_eq_true hlt⟩

theorem exists_hexchar {c : UInt8} (h : HexDigit c) :
    ∃ v, Sendrawtransaction.hexchar c = some v ∧ v < 16 := by
  obtain ⟨v, hv⟩ := Option.isSome_iff_exists.mp ((isSome_hexchar c).mpr h)
  have hlt := (digits_lt c).2
  rw [hv] at hlt
  exact ⟨v, hv, of_decide_eq_true hlt⟩

theorem charToHex_eq_none {c : UInt8} (h : ¬ HexDigit c) : charToHex c = none :=
  Option.not_isSome_iff_eq_none.mp fun hsome => h ((isSome_charToHex c).mp hsome)

/-- `dehex` rejects what is no hexadecimal string. -/
theorem dehex_eq_none {str : List UInt8} (h : ¬ HexString str) : dehex str = none := by
  induction str using dehex.induct with
  | case1 => exact absurd ⟨rfl, fun c hc => absurd hc List.not_mem_nil⟩ h
  | case2 c => rfl
  | case3 c1 c2 str b1 b2 h2 h1 ih =>
    have hd1 := (isSome_hexchar c1).mp (by rw [h1]; rfl)
    have hd2 := (isSome_hexchar c2).mp (by rw [h2]; rfl)
    unfold dehex
    rw [h1, h2]
    dsimp only
    rw [ih fun hstr => h (hexString_cons_cons.mpr ⟨hd1, hd2, hstr⟩)]
    rfl
  | case4 c1 c2 str hnone =>
    unfold dehex
    split
    · exact (hnone _ _ ‹_› ‹_›).elim
    · rfl

/-- And so does `from_hex`, for a buffer of any size. -/
theorem fromHex_eq_none {str : List UInt8} {bufsize : Nat} (h : ¬ HexString str) :
    fromHex str bufsize = none := by
  induction str using dehex.induct generalizing bufsize with
  | case1 => exact absurd ⟨rfl, fun c hc => absurd hc List.not_mem_nil⟩ h
  | case2 c =>
    unfold fromHex
    rw [if_neg (by simp)]
  | case3 c1 c2 str b1 b2 h2 h1 ih =>
    have hd1 := (isSome_hexchar c1).mp (by rw [h1]; rfl)
    have hd2 := (isSome_hexchar c2).mp (by rw [h2]; rfl)
    obtain ⟨v1, hv1, -⟩ := exists_charToHex hd1
    obtain ⟨v2, hv2, -⟩ := exists_charToHex hd2
    unfold fromHex
    rw [hv1, hv2]
    dsimp only
    rw [ih fun hstr => h (hexString_cons_cons.mpr ⟨hd1, hd2, hstr⟩), Option.map_none, ite_self]
  | case4 c1 c2 str hnone =>
    -- one of the two characters is no digit
    have hbad : ¬ HexDigit c1 ∨ ¬ HexDigit c2 := by
      by_contra hboth
      rw [not_or, not_not, not_not] at hboth
      obtain ⟨b1, hb1, -⟩ := exists_hexchar hboth.1
      obtain ⟨b2, hb2, -⟩ := exists_hexchar hboth.2
      exact hnone b1 b2 hb1 hb2
    unfold fromHex
    rcases hbad with hbad | hbad
    · rw [charToHex_eq_none hbad]
    · rw [charToHex_eq_none hbad]
      cases charToHex c1 with
      | none => rfl
      | some v => rfl

/-- Both take a hexadecimal string, and agree if there is none of the digits `A` to `F`. -/
theorem decode_hexString {str : List UInt8} (h : HexString str) :
    ∃ bytes read, fromHex str (str.length / 2) = some bytes ∧ dehex str = some read ∧
      (read = bytes ↔ ∀ c ∈ str, ¬ UpperDigit c) := by
  induction str using dehex.induct with
  | case1 => exact ⟨[], [], rfl, rfl, iff_of_true rfl fun c hc => absurd hc List.not_mem_nil⟩
  | case2 c => exact absurd h.1 (by simp)
  | case3 c1 c2 str b1 b2 h2 h1 ih =>
    obtain ⟨hd1, hd2, hstr⟩ := hexString_cons_cons.mp h
    obtain ⟨v1, hv1, hv1lt⟩ := exists_charToHex hd1
    obtain ⟨v2, hv2, hv2lt⟩ := exists_charToHex hd2
    have hlt1 := (digits_lt c1).2
    have hlt2 := (digits_lt c2).2
    rw [h1] at hlt1
    rw [h2] at hlt2
    have hdigit1 := hexchar_eq_charToHex_iff c1
    have hdigit2 := hexchar_eq_charToHex_iff c2
    rw [h1, hv1, Option.some_inj] at hdigit1
    rw [h2, hv2, Option.some_inj] at hdigit2
    obtain ⟨bytes, read, hbytes, hread, hiff⟩ := ih hstr
    have hsize : (c1 :: c2 :: str).length / 2 = str.length / 2 + 1 := by
      rw [List.length_cons, List.length_cons]
      omega
    refine ⟨(v1 <<< 4 ||| v2) :: bytes, (b1 <<< 4 ||| b2) :: read, ?_, ?_, ?_⟩
    · unfold fromHex
      rw [hv1, hv2, hsize]
      dsimp only
      rw [if_neg (Nat.succ_ne_zero _), Nat.add_sub_cancel, hbytes]
      rfl
    · unfold dehex
      rw [h1, h2]
      dsimp only
      rw [hread]
      rfl
    · rw [List.cons_eq_cons, hiff, digits_inj (of_decide_eq_true hlt1) (of_decide_eq_true hlt2)
        hv1lt hv2lt, hdigit1, hdigit2, List.forall_mem_cons, List.forall_mem_cons, and_assoc]
  | case4 c1 c2 str hnone =>
    obtain ⟨hd1, hd2, -⟩ := hexString_cons_cons.mp h
    obtain ⟨b1, hb1, -⟩ := exists_hexchar hd1
    obtain ⟨b2, hb2, -⟩ := exists_hexchar hd2
    exact (hnone b1 b2 hb1 hb2).elim

/-- What `to_hex` writes, `dehex` reads. -/
theorem dehex_toHexDirect (buf : List UInt8) : ∃ str,
    toHexDirect (buf.length * 2 + 1) buf = some (str ++ [0]) ∧ dehex str = some buf := by
  induction buf with
  | nil => exact ⟨[], rfl, rfl⟩
  | cons c buf ih =>
    obtain ⟨str, hstr, hread⟩ := ih
    obtain ⟨hhigh, hlow, hbyte⟩ := byte_halves c
    obtain ⟨high, hc1, hr1⟩ := Option.bind_eq_some_iff.mp (hexchar_read _ hhigh).2
    obtain ⟨low, hc2, hr2⟩ := Option.bind_eq_some_iff.mp (hexchar_read _ hlow).2
    refine ⟨high :: low :: str, ?_, ?_⟩
    · unfold toHexDirect
      rw [if_pos (by rw [List.length_cons]; omega), hc1, Option.bind_some, hc2, Option.bind_some,
        List.length_cons, show (buf.length + 1) * 2 + 1 - 2 = buf.length * 2 + 1 by omega, hstr]
      rfl
    · unfold dehex
      rw [hr1, hr2]
      dsimp only
      rw [hread, hbyte]
      rfl

-- ---------------------------------------------------------------------------
-- The two decoders
-- ---------------------------------------------------------------------------

/-- They agree on a hexadecimal string, and both reject anything else. -/
structure HexAgreed (str : List UInt8) : Prop where
  same : str.length % 2 = 0 → (∀ c ∈ str, HexDigit c) →
    ∃ bytes, dehex str = some bytes ∧ fromHex str (str.length / 2) = some bytes
  reject : (str.length % 2 = 1 ∨ ∃ c ∈ str, ¬ HexDigit c) →
    dehex str = none ∧ ∀ bufsize, fromHex str bufsize = none

/-- **The two hex decoders agree if there is no upper-case digit.** Whatever is not an even
number of hexadecimal digits both reject; what is they both take, and make the same bytes of
it exactly if none of the digits is one of `A` to `F`. `dehex` undoes `to_hex` in any case. -/
theorem dehex_agrees_iff (str buf : List UInt8) :
    (HexAgreed str ↔ (HexString str → ∀ c ∈ str, ¬ UpperDigit c)) ∧
      ∃ hex, toHex buf = some (hex ++ [0]) ∧ dehex hex = some buf := by
  refine ⟨⟨?_, ?_⟩, dehex_toHexDirect buf⟩
  · rintro hagreed hstr
    obtain ⟨bytes, read, hbytes, hread, hiff⟩ := decode_hexString hstr
    obtain ⟨both, hboth, hboth'⟩ := hagreed.same hstr.1 hstr.2
    rw [hread, Option.some_inj] at hboth
    rw [hbytes, Option.some_inj] at hboth'
    exact hiff.mp (hboth.trans hboth'.symm)
  · intro hplain
    constructor
    · intro hlen hall
      obtain ⟨bytes, read, hbytes, hread, hiff⟩ := decode_hexString ⟨hlen, hall⟩
      obtain rfl := hiff.mpr (hplain ⟨hlen, hall⟩)
      exact ⟨read, hread, hbytes⟩
    · intro hbad
      have hnot : ¬ HexString str := by
        rintro ⟨hlen, hall⟩
        rcases hbad with hodd | ⟨c, hc, hdigit⟩
        · omega
        · exact hdigit (hall c hc)
      exact ⟨dehex_eq_none hnot, fun _ => fromHex_eq_none hnot⟩

/-- The string `AF`: 175 for `from_hex`, and 90 for `dehex`. -/
theorem dehex_upper : dehex ['A'.toUInt8, 'F'.toUInt8] = some [0x5A] ∧
    fromHex ['A'.toUInt8, 'F'.toUInt8] 1 = some [0xAF] ∧
    ¬ HexAgreed ['A'.toUInt8, 'F'.toUInt8] := by
  have hdigits : ∀ c ∈ ['A'.toUInt8, 'F'.toUInt8], HexDigit c := by
    rw [List.forall_mem_cons, List.forall_mem_cons]
    exact ⟨by decide, by decide, fun c hc => absurd hc List.not_mem_nil⟩
  refine ⟨rfl, rfl, fun h => ?_⟩
  obtain ⟨bytes, hdehex, hfrom⟩ := h.same rfl hdigits
  have hboth : (some [0x5A] : Option (List UInt8)) = some [0xAF] := hdehex.trans hfrom.symm
  exact absurd hboth (by decide)

end Pettycoin
