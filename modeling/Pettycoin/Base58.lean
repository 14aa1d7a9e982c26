import Mathlib.Data.List.TakeWhile
import Pettycoin.IdealHash
import Pettycoin.Lib.Positional

/-!
# Pettycoin — base58

`base58.c`: an address or a private key, its network and a checksum, as a text of 58
characters. The text is the bytes in another base, with a `1` for each zero byte in front
(`Positional.rebase`); reading it forgets how many there were, and fills up with zeros.

The checksum is any function of the bytes. Big numbers are naturals, and the curve is a
parameter (`Curve`).

* `encodeBase58_eq`, `rawDecodeBase58_eq` — what the two loops compute;
* `eq_base58Text_iff` — which texts are the text of given bytes;
* `pettycoinFromBase58_canonical_iff` — which of the accepted addresses are canonical;
* `ripemdFromBase58_right_iff` — when version and hash are read back;
* `base58_round_trip_iff` — addresses and keys round trip, and which key does not.
-/

namespace Pettycoin

open Positional

-- ---------------------------------------------------------------------------
-- Big numbers
-- ---------------------------------------------------------------------------

/-- `BN_bin2bn()`. -/
def bnBin2bn (data : List UInt8) : Nat := ofBig 256 (data.map UInt8.toNat)

/-- `BN_num_bytes()`. -/
def bnNumBytes (bn : Nat) : Nat := (bigDigits 256 bn).length

/-- `BN_bn2bin()`. -/
def bnBn2bin (bn : Nat) : List UInt8 := (bigDigits 256 bn).map UInt8.ofNat

/-- A buffer of zeros with a number written to its end. -/
def zeroFilled (n bn : Nat) (h : bnNumBytes bn ≤ n) : Bytes n :=
  ⟨List.replicate (n - bnNumBytes bn) 0 ++ bnBn2bin bn, by
    rw [List.length_append, List.length_replicate, bnBn2bin, List.length_map]
    unfold bnNumBytes at h ⊢
    omega⟩

/-- Part of a buffer. -/
def Bytes.slice {n : Nat} (buf : Bytes n) (off len : Nat) (h : off + len ≤ n) : Bytes len :=
  ⟨(buf.1.drop off).take len, by
    rw [List.length_take, List.length_drop, buf.2]
    omega⟩

-- ---------------------------------------------------------------------------
-- base58.c
-- ---------------------------------------------------------------------------

/-- `enc`, without its terminator. -/
def enc : List UInt8 :=
  "123456789ABCDEFGHJKLMNPQRSTUVWXYZabcdefghijkmnopqrstuvwxyz".toList.map Char.toUInt8

theorem enc_length : enc.length = 58 := by decide

/-- `encode_char()`. -/
def encodeChar (val : Fin 58) : UInt8 := enc.get (val.cast enc_length.symm)

/-- `decode_char()`. What `strchr()` searches ends with the terminator. -/
def decodeChar (c : UInt8) : Option Nat := (enc ++ [0]).idxOf? c

/-- `*--p = c`, where what begins at `p` and ends before the terminator is `p`. -/
def putBefore (buflen : Nat) (p : List UInt8) (c : UInt8) : Option (List UInt8) :=
  if p.length + 1 < buflen then some (c :: p) else none

/-- Fill from the back, using a series of divides. -/
def encodeDigits (buflen bn : Nat) (p : List UInt8) : Option (List UInt8) :=
  if _h : bn = 0 then some p
  else
    match putBefore buflen p (encodeChar (Fin.ofNat 58 bn)) with
    | none => none
    | some p => encodeDigits buflen (bn / 58) p
termination_by bn

/-- Pad with zeroes, in terms of zero bytes. -/
def encodeZeroes (buflen : Nat) : List UInt8 → List UInt8 → Option (List UInt8)
  | 0 :: data, p =>
    match putBefore buflen p (encodeChar 0) with
    | none => none
    | some p => encodeZeroes buflen data p
  | _, p => some p

/-- `encode_base58()`: the text without its terminator, or NULL if it would not fit. -/
def encodeBase58 (buflen : Nat) (data : List UInt8) : Option (List UInt8) :=
  if buflen = 0 then none
  else
    match encodeDigits buflen (bnBin2bn data) [] with
    | none => none
    | some p => encodeZeroes buflen data p

/-- `raw_decode_base58()`. -/
def rawDecodeBase58 (src : List UInt8) : Option Nat :=
  src.foldlM (fun bn c => (decodeChar c).map fun val => bn * 58 + val) 0

section Checksum

variable {D : Type} [Digest D]

/-- `base58_get_checksum()`. -/
def base58GetChecksum (C : Crypto D) (buf : List UInt8) : List UInt8 :=
  (List.range 4).map (Digest.sha (C.doubleSha buf))

/-- `BASE58_ADDR_MAX_LEN`. -/
def base58AddrMaxLen : Nat := 36
/-- `BASE58_KEY_MAX_LEN`. -/
def base58KeyMaxLen : Nat := 53
/-- `PETTY_PREFIX`. -/
def pettyPrefix : UInt8 := 56
/-- `PETTY_PREFIX_TESTNET`. -/
def pettyPrefixTestnet : UInt8 := 120

/-- The version byte of an address. -/
def addrVersion (testNet bitcoinStyle : Bool) : UInt8 :=
  if bitcoinStyle then if testNet then 111 else 0
  else if testNet then pettyPrefixTestnet else pettyPrefix

/-- `"P-%s"` or `"%s"`. -/
def styled (bitcoinStyle : Bool) (p : List UInt8) : List UInt8 :=
  if bitcoinStyle then 'P'.toUInt8 :: '-'.toUInt8 :: p else p

/-- `is_bitcoin`, and what comes after the prefix. -/
def stripStyle (base58 : List UInt8) : Bool × List UInt8 :=
  if 2 < base58.length ∧ base58.take 2 = ['P'.toUInt8, '-'.toUInt8] then (true, base58.drop 2)
  else (false, base58)

/-- The bytes of an address: version, hash, checksum. -/
def addrBuf (C : Crypto D) (version : UInt8) (ripemd160 : Bytes 20) : List UInt8 :=
  version :: ripemd160.1 ++ base58GetChecksum C (version :: ripemd160.1)

/-- `pettycoin_to_base58()`. -/
def pettycoinToBase58 (C : Crypto D) (testNet : Bool) (addr : Address) (bitcoinStyle : Bool) :
    Option (List UInt8) :=
  (encodeBase58 base58AddrMaxLen (addrBuf C (addrVersion testNet bitcoinStyle) addr)).map
    (styled bitcoinStyle)

/-- The network that a version byte tells. -/
def addrNet (isBitcoin : Bool) (version : UInt8) : Option Bool :=
  if isBitcoin then
    if version = 111 then some true else if version = 0 then some false else none
  else if version = pettyPrefixTestnet then some true
  else if version = pettyPrefix then some false
  else none

/-- `pettycoin_from_base58()`, with the bytes up to the length given. -/
def pettycoinFromBase58 (C : Crypto D) (base58 : List UInt8) : Option (Bool × Address) :=
  let (isBitcoin, base58) := stripStyle base58
  match rawDecodeBase58 base58 with
  | none => none
  | some bn =>
    if h : bnNumBytes bn ≤ 25 then
      let buf := zeroFilled 25 bn h
      match addrNet isBitcoin (buf.1[0]?.getD 0) with
      | none => none
      | some testNet =>
        if base58GetChecksum C (buf.1.take 21) ≠ buf.1.drop 21 then none
        else some (testNet, buf.slice 1 20 (by decide))
    else none

/-- `base58_with_check()`. -/
def base58WithCheck (C : Crypto D) (version : UInt8) (ripemd160 : Bytes 20) :
    Option (List UInt8) :=
  encodeBase58 base58AddrMaxLen (addrBuf C version ripemd160)

/-- What a C string is, of the bytes it points to. -/
def cString (bytes : List UInt8) : List UInt8 := bytes.takeWhile fun c => c != 0

/-- `ripemd_from_base58()`. -/
def ripemdFromBase58 (C : Crypto D) (base58 : List UInt8) : Option (UInt8 × Bytes 20) :=
  let base58 := cString base58
  -- Too long?  Check here before doing arithmetic.
  if base58.length > base58AddrMaxLen - 1 then none
  else
    match rawDecodeBase58 base58 with
    | none => none
    | some bn =>
      if h : bnNumBytes bn ≤ 25 then
        let buf := zeroFilled 25 bn h
        -- the checksum is over the whole buffer
        if base58GetChecksum C buf.1 ≠ buf.1.drop 21 then none
        else some (buf.1[0]?.getD 0, buf.slice 1 20 (by decide))
      else none

-- ---------------------------------------------------------------------------
-- Keys
-- ---------------------------------------------------------------------------

/-- What is taken from OpenSSL for keys: the multiples of the generator of secp256k1, and how
a point is written in compressed form (`i2o_ECPublicKey`). -/
structure Curve where
  Point : Type
  order : Nat
  infinity : Point
  mul : Nat → Point
  i2o : Point → List UInt8

/-- What is documented of it. -/
structure Curve.Documented (G : Curve) : Prop where
  /-- The generator has the order of the group. -/
  mul_eq_infinity : ∀ k, G.mul k = G.infinity ↔ G.order ∣ k
  /-- The point at infinity is a single byte. -/
  i2o_infinity : (G.i2o G.infinity).length = 1
  /-- Any other one is a byte and a coordinate. -/
  i2o_length : ∀ p, p ≠ G.infinity → (G.i2o p).length = 33

/-- `EC_KEY`. -/
structure EcKeyPair (G : Curve) where
  privateKey : Nat
  publicKey : G.Point

/-- The assertions that can fail. -/
inductive KeyFault
  /-- `assert(len <= 32)` -/
  | keyLen
  /-- `assert(keylen == sizeof(key->key))` -/
  | pubkeyLen
deriving DecidableEq

/-- The version byte of a key: `'P' - 'B'` more if it is not one for bitcoin. -/
def keyVersion (testNet bitcoinStyle : Bool) : UInt8 :=
  let version : UInt8 := if testNet then 239 else 128
  if bitcoinStyle then version else version + ('P'.toUInt8 - 'B'.toUInt8)

/-- The bytes of a compressed key. -/
def keyBuf (C : Crypto D) (version : UInt8) (key : Bytes 32) : List UInt8 :=
  version :: key.1 ++ [1] ++ base58GetChecksum C (version :: key.1 ++ [1])

/-- `key_to_base58()`. -/
def keyToBase58 (C : Crypto D) (testNet : Bool) (key : Nat) (bitcoinStyle : Bool) :
    Except KeyFault (Option (List UInt8)) :=
  if h : bnNumBytes key ≤ 32 then
    .ok ((encodeBase58 base58KeyMaxLen
      (keyBuf C (keyVersion testNet bitcoinStyle) (zeroFilled 32 key h))).map (styled bitcoinStyle))
  else .error .keyLen

/-- The network that the version byte of a key tells. -/
def keyNet (isBitcoin : Bool) (version : UInt8) : Option Bool :=
  if isBitcoin then
    if version = 128 then some false else if version = 239 then some true else none
  else if version = 128 + ('P'.toUInt8 - 'B'.toUInt8) then some false
  else if version = 239 + ('P'.toUInt8 - 'B'.toUInt8) then some true
  else none

/-- `EC_KEY_regenerate_key()`. -/
def ecKeyRegenerateKey (G : Curve) (privKey : Nat) : EcKeyPair G := ⟨privKey, G.mul privKey⟩

/-- `key_from_base58()`, with the bytes up to the length given. -/
def keyFromBase58 (C : Crypto D) (G : Curve) (base58 : List UInt8) :
    Except KeyFault (Option (EcKeyPair G × Bool × Pubkey)) :=
  let (isBitcoin, base58) := stripStyle base58
  match rawDecodeBase58 base58 with
  | none => .ok none
  | some bn =>
    let keylen := bnNumBytes bn
    -- Pettycoin always uses compressed keys.
    if keylen = 1 + 32 + 4 then .ok none
    else if keylen ≠ 1 + 32 + 1 + 4 then .ok none
    else
      let keybuf := bnBn2bin bn
      if base58GetChecksum C (keybuf.take (keylen - 4)) ≠ keybuf.drop (keylen - 4) then .ok none
      -- Byte after key should be 1 to represent a compressed key.
      else if keybuf[33]? ≠ some 1 then .ok none
      else
        match keyNet isBitcoin (keybuf[0]?.getD 0) with
        | none => .ok none
        | some testNet =>
          let priv := ecKeyRegenerateKey G (bnBin2bn ((keybuf.drop 1).take 32))
          let pubkey := G.i2o priv.publicKey
          if h : pubkey.length = 33 then .ok (some (priv, testNet, ⟨pubkey, h⟩))
          else .error .pubkeyLen

end Checksum

-- ---------------------------------------------------------------------------
-- Bytes as digits
-- ---------------------------------------------------------------------------

theorem toNat_lt_of_mem (data : List UInt8) : ∀ d ∈ data.map UInt8.toNat, d < 256 := by
  intro d hd
  obtain ⟨c, -, rfl⟩ := List.mem_map.mp hd
  exact c.toNat_lt

theorem map_ofNat_toNat (data : List UInt8) : (data.map UInt8.toNat).map UInt8.ofNat = data := by
  rw [List.map_map]
  exact List.map_id'' (fun c => UInt8.ofNat_toNat) data

theorem map_toNat_ofNat {ds : List Nat} (h : ∀ d ∈ ds, d < 256) :
    (ds.map UInt8.ofNat).map UInt8.toNat = ds := by
  rw [List.map_map]
  conv_rhs => rw [← List.map_id ds]
  refine List.map_congr_left fun d hd => ?_
  exact UInt8.toNat_ofNat_of_lt' (h d hd)

@[simp] theorem bnBin2bn_bnBn2bin (bn : Nat) : bnBin2bn (bnBn2bin bn) = bn := by
  rw [bnBin2bn, bnBn2bin, map_toNat_ofNat fun d => lt_of_mem_bigDigits (by decide), ofBig_bigDigits]

theorem zeroFilled_val {n bn : Nat} (h : bnNumBytes bn ≤ n) :
    (zeroFilled n bn h).1 = (padded 256 n bn).map UInt8.ofNat := by
  rw [padded, List.map_append, List.map_replicate]
  rfl

@[simp] theorem bnBin2bn_zeroFilled {n bn : Nat} (h : bnNumBytes bn ≤ n) :
    bnBin2bn (zeroFilled n bn h).1 = bn := by
  rw [bnBin2bn, zeroFilled_val, map_toNat_ofNat fun d => lt_of_mem_padded (by decide), ofBig_padded]

theorem bnNumBytes_bnBin2bn_le (data : List UInt8) : bnNumBytes (bnBin2bn data) ≤ data.length := by
  have hlt := ofBig_lt (by decide) (toNat_lt_of_mem data)
  rw [List.length_map] at hlt
  exact (length_bigDigits_le (by decide)).mpr hlt

theorem zeroFilled_bnBin2bn {n : Nat} {data : List UInt8} (hn : data.length = n)
    (h : bnNumBytes (bnBin2bn data) ≤ n) : (zeroFilled n (bnBin2bn data) h).1 = data := by
  subst hn
  rw [zeroFilled_val, bnBin2bn]
  have hpadded := padded_ofBig (by decide) (toNat_lt_of_mem data)
  rw [List.length_map] at hpadded
  rw [hpadded, map_ofNat_toNat]

/-- Zero bytes in front, and the bytes of the number, are all there is. -/
theorem leadingZeros_add_bnNumBytes (data : List UInt8) :
    leadingZeros (data.map UInt8.toNat) + bnNumBytes (bnBin2bn data) = data.length := by
  have hlength := leadingZeros_add_length (by decide) (toNat_lt_of_mem data)
  rwa [List.length_map] at hlength

-- ---------------------------------------------------------------------------
-- Characters as digits
-- ---------------------------------------------------------------------------

/-- The character of a digit. -/
def digitChar (d : Nat) : UInt8 := encodeChar (Fin.ofNat 58 d)

theorem decodeChar_encodeChar : ∀ val : Fin 58, decodeChar (encodeChar val) = some val.1 := by
  decide +kernel

theorem decodeChar_digitChar {d : Nat} (h : d < 58) : decodeChar (digitChar d) = some d := by
  rw [digitChar, decodeChar_encodeChar]
  exact congrArg some (Nat.mod_eq_of_lt h)

theorem digitChar_mem_enc (d : Nat) : digitChar d ∈ enc := List.getElem_mem _

/-- A character that has a value is that of its digit, or it is the terminator. -/
theorem decodeChar_cases {c : UInt8} {val : Nat} (h : decodeChar c = some val) :
    (val < 58 ∧ c = digitChar val) ∨ c = 0 := by
  obtain ⟨hlt, hget, -⟩ := List.idxOf?_eq_some_iff.mp h
  have hlen : enc.length = 58 := enc_length
  by_cases hval : val < enc.length
  · rw [List.getElem_append_left hval] at hget
    refine .inl ⟨by omega, ?_⟩
    rw [← hget, digitChar, encodeChar, List.get_eq_getElem]
    congr 1
    exact (Nat.mod_eq_of_lt (by omega)).symm
  · rw [List.getElem_append_right (Nat.not_lt.mp hval), List.getElem_singleton] at hget
    exact .inr hget.symm

theorem zero_not_mem_enc : (0 : UInt8) ∉ enc := by decide

/-- The value of characters, each of which has one. -/
theorem rawDecodeBase58_eq (src : List UInt8) :
    rawDecodeBase58 src = (src.mapM decodeChar).map (ofBig 58) := by
  have hfold : ∀ (src : List UInt8) (bn : Nat),
      src.foldlM (fun bn c => (decodeChar c).map fun val => bn * 58 + val) bn
        = (src.mapM decodeChar).map fun ds => ds.foldl (fun bn d => bn * 58 + d) bn := by
    intro src
    induction src with
    | nil => intro bn; rfl
    | cons c src ih =>
      intro bn
      rw [List.foldlM_cons, List.mapM_cons]
      cases decodeChar c with
      | none => rfl
      | some val =>
        show (src.foldlM _ (bn * 58 + val) : Option Nat) = _
        rw [ih]
        cases src.mapM decodeChar with
        | none => rfl
        | some ds => rfl
  exact hfold src 0

theorem mapM_decodeChar_map {ds : List Nat} (h : ∀ d ∈ ds, d < 58) :
    (ds.map digitChar).mapM decodeChar = some ds := by
  induction ds with
  | nil => rfl
  | cons d ds ih =>
    rw [List.map_cons, List.mapM_cons, decodeChar_digitChar (h d (List.mem_cons_self ..)),
      ih fun d hd => h d (List.mem_cons_of_mem _ hd)]
    rfl

/-- Characters that have a value, the terminator not among them, are those of digits. -/
theorem of_mapM_decodeChar {src : List UInt8} {ds : List Nat} (h : src.mapM decodeChar = some ds)
    (hnul : 0 ∉ src) : (∀ d ∈ ds, d < 58) ∧ src = ds.map digitChar := by
  induction src generalizing ds with
  | nil =>
    obtain rfl := Option.some.inj h
    exact ⟨by simp, rfl⟩
  | cons c src ih =>
    rw [List.mapM_cons] at h
    obtain ⟨val, hval, h⟩ := Option.bind_eq_some_iff.mp h
    obtain ⟨ds', hds', h⟩ := Option.bind_eq_some_iff.mp h
    obtain rfl := Option.some.inj h
    obtain ⟨hlt, hsrc⟩ := ih hds' fun hmem => hnul (List.mem_cons_of_mem _ hmem)
    rcases decodeChar_cases hval with ⟨hval58, hc⟩ | rfl
    · refine ⟨fun d hd => ?_, by rw [List.map_cons, hc, hsrc]⟩
      rcases List.mem_cons.mp hd with rfl | hd
      · exact hval58
      · exact hlt d hd
    · exact absurd (List.mem_cons_self ..) hnul

-- ---------------------------------------------------------------------------
-- The text of bytes
-- ---------------------------------------------------------------------------

/-- The text: the bytes in base 58, with the zeros in front kept. -/
def base58Text (data : List UInt8) : List UInt8 :=
  (rebase 256 58 (data.map UInt8.toNat)).map digitChar

theorem encodeDigits_eq {buflen : Nat} (bn : Nat) {p : List UInt8} (hp : p.length < buflen) :
    encodeDigits buflen bn p =
      if (bigDigits 58 bn).length + p.length < buflen then some ((bigDigits 58 bn).map digitChar ++ p)
      else none := by
  induction bn using Nat.strongRecOn generalizing p with
  | ind bn ih =>
    rw [encodeDigits]
    by_cases hzero : bn = 0
    · rw [dif_pos hzero, hzero, show bigDigits 58 0 = [] from rfl, List.length_nil, Nat.zero_add,
        if_pos hp]
      rfl
    · have hdigits : bigDigits 58 bn = bigDigits 58 (bn / 58) ++ [bn % 58] := by
        rw [bigDigits, Nat.digits_eq_cons_digits_div (by decide) hzero, List.reverse_cons]
        rfl
      have hchar : digitChar (bn % 58) = encodeChar (Fin.ofNat 58 bn) := by
        rw [digitChar]
        congr 1
        exact Fin.ext (Nat.mod_mod bn 58)
      rw [dif_neg hzero, hdigits, List.map_append, List.map_singleton, hchar, List.length_append,
        List.length_singleton]
      unfold putBefore
      by_cases hfit : p.length + 1 < buflen
      · rw [if_pos hfit]
        dsimp only
        rw [ih _ (Nat.div_lt_self (Nat.pos_of_ne_zero hzero) (by decide)) (by exact hfit),
          List.length_cons, List.append_assoc, List.singleton_append,
          show (bigDigits 58 (bn / 58)).length + (p.length + 1)
            = (bigDigits 58 (bn / 58)).length + 1 + p.length by omega]
      · rw [if_neg hfit, if_neg (by omega)]

theorem encodeZeroes_eq {buflen : Nat} (data : List UInt8) {p : List UInt8}
    (hp : p.length < buflen) :
    encodeZeroes buflen data p =
      if leadingZeros (data.map UInt8.toNat) + p.length < buflen then
        some (List.replicate (leadingZeros (data.map UInt8.toNat)) (digitChar 0) ++ p)
      else none := by
  induction data generalizing p with
  | nil => exact (if_pos (by simpa [leadingZeros] using hp)).symm
  | cons c data ih =>
    by_cases hc : c = 0
    · subst hc
      rw [encodeZeroes, show leadingZeros ((0 :: data).map UInt8.toNat)
        = leadingZeros (data.map UInt8.toNat) + 1 from rfl, List.replicate_succ']
      unfold putBefore
      by_cases hfit : p.length + 1 < buflen
      · rw [if_pos hfit]
        dsimp only
        rw [ih (by exact hfit), List.length_cons, List.append_assoc, List.singleton_append,
          show leadingZeros (data.map UInt8.toNat) + (p.length + 1)
            = leadingZeros (data.map UInt8.toNat) + 1 + p.length by omega]
        rfl
      · rw [if_neg hfit, if_neg (by omega)]
    · have hzeros : leadingZeros ((c :: data).map UInt8.toNat) = 0 := by
        rw [List.map_cons]
        cases hnat : c.toNat with
        | zero => exact absurd (UInt8.toNat_inj.mp hnat) hc
        | succ n => rfl
      rw [hzeros, Nat.zero_add, if_pos hp]
      unfold encodeZeroes
      split
      · rename_i heq
        exact absurd (List.cons.inj heq).1 hc
      · rfl

/-- **`encode_base58` writes the text**, if it fits with its terminator. -/
theorem encodeBase58_eq (buflen : Nat) (data : List UInt8) :
    encodeBase58 buflen data =
      if (base58Text data).length < buflen then some (base58Text data) else none := by
  have htext : base58Text data
      = List.replicate (leadingZeros (data.map UInt8.toNat)) (digitChar 0)
        ++ (bigDigits 58 (bnBin2bn data)).map digitChar := by
    rw [base58Text, rebase, List.map_append, List.map_replicate]
    rfl
  unfold encodeBase58
  by_cases hzero : buflen = 0
  · rw [if_pos hzero, if_neg (by omega)]
  · rw [if_neg hzero, encodeDigits_eq _ (by rw [List.length_nil]; omega), List.append_nil,
      List.length_nil, Nat.add_zero, htext, List.length_append, List.length_replicate, List.length_map]
    by_cases hfit : (bigDigits 58 (bnBin2bn data)).length < buflen
    · rw [if_pos hfit]
      dsimp only
      rw [encodeZeroes_eq _ (by rwa [List.length_map]), List.length_map]
    · rw [if_neg hfit, if_neg (by omega)]

/-- Reading the text gives the number. -/
theorem rawDecodeBase58_base58Text (data : List UInt8) :
    rawDecodeBase58 (base58Text data) = some (bnBin2bn data) := by
  rw [rawDecodeBase58_eq, base58Text, mapM_decodeChar_map fun d => lt_of_mem_rebase (by decide),
    Option.map_some, ofBig_rebase]
  rfl

theorem mem_enc_of_mem_base58Text {data : List UInt8} {c : UInt8} (h : c ∈ base58Text data) :
    c ∈ enc := by
  obtain ⟨d, -, rfl⟩ := List.mem_map.mp h
  exact digitChar_mem_enc d

/-- How long a text is at most: `k` characters more than bytes. -/
theorem length_base58Text_le {n k : Nat} (hk : ∀ j ≤ n, 256 ^ j ≤ 58 ^ (j + k)) {data : List UInt8}
    (h : data.length = n) : (base58Text data).length ≤ n + k := by
  have hlen : (data.map UInt8.toNat).length = n := by rw [List.length_map, h]
  rw [base58Text, List.length_map, ← hlen]
  exact length_rebase_le (by decide) (by decide) (toNat_lt_of_mem data) (hlen.symm ▸ hk)

/-- How many ones come first. -/
def leadingOnes (src : List UInt8) : Nat := (src.takeWhile fun c => c == '1'.toUInt8).length

theorem leadingOnes_map {ds : List Nat} (h : ∀ d ∈ ds, d < 58) :
    leadingOnes (ds.map digitChar) = leadingZeros ds := by
  have hone : ∀ d : Fin 58, (digitChar d == '1'.toUInt8) = decide (d.1 = 0) := by decide
  induction ds with
  | nil => rfl
  | cons d ds ih =>
    have hd := hone ⟨d, h d (List.mem_cons_self ..)⟩
    have ih := ih fun d hd => h d (List.mem_cons_of_mem _ hd)
    unfold leadingOnes at ih ⊢
    rw [List.map_cons, List.takeWhile_cons, hd]
    cases d with
    | zero => rw [if_pos (by simp), List.length_cons, ih, leadingZeros]
    | succ d => rfl

theorem zero_not_mem_base58Text (data : List UInt8) : 0 ∉ base58Text data :=
  fun h => zero_not_mem_enc (mem_enc_of_mem_base58Text h)

/-- **Which text it is**: characters without a terminator are the text of bytes when they have
the value and as many ones in front as the bytes have zeros. -/
theorem eq_base58Text_iff {src data : List UInt8} {bn : Nat} (hsrc : rawDecodeBase58 src = some bn)
    (hnul : 0 ∉ src) :
    src = base58Text data ↔
      bn = bnBin2bn data ∧ leadingOnes src + bnNumBytes (bnBin2bn data) = data.length := by
  rw [rawDecodeBase58_eq] at hsrc
  obtain ⟨ds, hds, rfl⟩ := Option.map_eq_some_iff.mp hsrc
  obtain ⟨hlt, rfl⟩ := of_mapM_decodeChar hds hnul
  have hlength := leadingZeros_add_bnNumBytes data
  have hrebase : ds = rebase 256 58 (data.map UInt8.toNat) ↔ _ := eq_rebase_iff (by decide) hlt
  have hmap : ds.map digitChar = base58Text data ↔ ds = rebase 256 58 (data.map UInt8.toNat) := by
    constructor
    · intro h
      have hdecode := mapM_decodeChar_map hlt
      rw [h, base58Text, mapM_decodeChar_map fun d => lt_of_mem_rebase (by decide)] at hdecode
      exact (Option.some.inj hdecode).symm
    · rintro rfl
      rfl
  rw [hmap, hrebase, leadingOnes_map hlt]
  refine and_congr_right fun _ => ?_
  omega

-- ---------------------------------------------------------------------------
-- Addresses
-- ---------------------------------------------------------------------------

section Addresses

variable {D : Type} [Digest D] {C : Crypto D} {base58 : List UInt8} {testNet : Bool}

@[simp] theorem base58GetChecksum_length (C : Crypto D) (buf : List UInt8) :
    (base58GetChecksum C buf).length = 4 := by
  simp [base58GetChecksum]

@[simp] theorem addrBuf_length (C : Crypto D) (version : UInt8) (ripemd160 : Bytes 20) :
    (addrBuf C version ripemd160).length = 25 := by
  simp [addrBuf, ripemd160.2]

theorem addrBuf_take (C : Crypto D) (version : UInt8) (ripemd160 : Bytes 20) :
    (addrBuf C version ripemd160).take 21 = version :: ripemd160.1 :=
  List.take_left' (by simp [ripemd160.2])

theorem addrBuf_drop (C : Crypto D) (version : UInt8) (ripemd160 : Bytes 20) :
    (addrBuf C version ripemd160).drop 21 = base58GetChecksum C (version :: ripemd160.1) :=
  List.drop_left' (by simp [ripemd160.2])

/-- A buffer begins with its version byte and its hash. -/
theorem buf_take (buf : Bytes 25) :
    buf.1.take 21 = buf.1[0]?.getD 0 :: (buf.slice 1 20 (by decide)).1 := by
  obtain ⟨buf, hlen⟩ := buf
  cases buf with
  | nil => exact absurd hlen (by decide)
  | cons version rest => rfl

/-- The buffer of an address: its version byte, its hash, and their checksum. -/
theorem buf_eq_iff {buf : Bytes 25} {version : UInt8} {ripemd160 : Bytes 20} :
    buf.1 = addrBuf C version ripemd160 ↔
      (buf.1[0]?.getD 0 = version ∧ buf.slice 1 20 (by decide) = ripemd160) ∧
        base58GetChecksum C (buf.1.take 21) = buf.1.drop 21 := by
  constructor
  · intro h
    have htake := buf_take buf
    rw [h, addrBuf_take] at htake
    obtain ⟨hversion, hhash⟩ := List.cons.inj htake
    rw [h]
    refine ⟨⟨hversion.symm, Subtype.ext hhash.symm⟩, ?_⟩
    rw [addrBuf_take, addrBuf_drop]
  · rintro ⟨⟨rfl, rfl⟩, hsum⟩
    conv_lhs => rw [← List.take_append_drop 21 buf.1, ← hsum, buf_take]
    rfl

/-- The text of an address fits. -/
theorem length_addrText_lt (C : Crypto D) (version : UInt8) (ripemd160 : Bytes 20) :
    (base58Text (addrBuf C version ripemd160)).length < base58AddrMaxLen := by
  have hle : (base58Text (addrBuf C version ripemd160)).length ≤ 25 + 10 :=
    length_base58Text_le (by decide) (addrBuf_length C version ripemd160)
  exact Nat.lt_succ_of_le hle

theorem base58WithCheck_eq (C : Crypto D) (version : UInt8) (ripemd160 : Bytes 20) :
    base58WithCheck C version ripemd160 = some (base58Text (addrBuf C version ripemd160)) := by
  rw [base58WithCheck, encodeBase58_eq, if_pos (length_addrText_lt C version ripemd160)]

theorem pettycoinToBase58_eq (C : Crypto D) (testNet : Bool) (addr : Address)
    (bitcoinStyle : Bool) :
    pettycoinToBase58 C testNet addr bitcoinStyle =
      some (styled bitcoinStyle
        (base58Text (addrBuf C (addrVersion testNet bitcoinStyle) addr))) := by
  rw [pettycoinToBase58, encodeBase58_eq, if_pos (length_addrText_lt ..), Option.map_some]

theorem addrNet_eq_some {isBitcoin : Bool} {version : UInt8} :
    addrNet isBitcoin version = some testNet ↔ version = addrVersion testNet isBitcoin := by
  unfold addrNet addrVersion pettyPrefix pettyPrefixTestnet
  cases isBitcoin <;> cases testNet <;> simp <;> grind

/-- The number of bytes that are an address. -/
theorem zeroFilled_eq_addrBuf {bn : Nat} (h : bnNumBytes bn ≤ 25) {version : UInt8}
    {ripemd160 : Bytes 20} :
    (zeroFilled 25 bn h).1 = addrBuf C version ripemd160 ↔
      bn = bnBin2bn (addrBuf C version ripemd160) := by
  constructor
  · intro heq
    rw [← heq, bnBin2bn_zeroFilled]
  · rintro rfl
    exact zeroFilled_bnBin2bn (addrBuf_length C version ripemd160) h

theorem bnNumBytes_addrBuf_le (C : Crypto D) (version : UInt8) (ripemd160 : Bytes 20) :
    bnNumBytes (bnBin2bn (addrBuf C version ripemd160)) ≤ 25 :=
  addrBuf_length C version ripemd160 ▸ bnNumBytes_bnBin2bn_le _

/-- **What is accepted**: a number that is, with zeros in front, the bytes of the address. -/
theorem pettycoinFromBase58_eq_some {addr : Address} :
    pettycoinFromBase58 C base58 = some (testNet, addr) ↔
      rawDecodeBase58 (stripStyle base58).2
        = some (bnBin2bn (addrBuf C (addrVersion testNet (stripStyle base58).1) addr)) := by
  unfold pettycoinFromBase58
  dsimp only
  generalize stripStyle base58 = style
  cases hraw : rawDecodeBase58 style.2 with
  | none => simp
  | some bn =>
    dsimp only
    rw [Option.some_inj]
    by_cases hfit : bnNumBytes bn ≤ 25
    · rw [dif_pos hfit, ← zeroFilled_eq_addrBuf hfit, buf_eq_iff, ← addrNet_eq_some]
      cases hnet : addrNet style.1 ((zeroFilled 25 bn hfit).1[0]?.getD 0) with
      | none => simp
      | some net =>
        dsimp only
        by_cases hsum : base58GetChecksum C ((zeroFilled 25 bn hfit).1.take 21)
          = (zeroFilled 25 bn hfit).1.drop 21
        · rw [if_neg (not_not.mpr hsum), Option.some_inj, Option.some_inj, Prod.mk.injEq]
          exact (and_iff_left hsum).symm
        · rw [if_pos hsum]
          exact iff_of_false (by simp) fun h => hsum h.2
    · rw [dif_neg hfit]
      refine iff_of_false (by simp) ?_
      rintro rfl
      exact hfit (bnNumBytes_addrBuf_le ..)

-- ---------------------------------------------------------------------------
-- The style
-- ---------------------------------------------------------------------------

omit [Digest D] in
/-- Nothing is lost with the prefix. -/
theorem styled_stripStyle (base58 : List UInt8) :
    styled (stripStyle base58).1 (stripStyle base58).2 = base58 := by
  unfold stripStyle
  split_ifs with h
  · show 'P'.toUInt8 :: '-'.toUInt8 :: base58.drop 2 = base58
    conv_rhs => rw [← List.take_append_drop 2 base58, h.2]
    rfl
  · rfl

/-- The prefix is found where it was put, and nowhere else. -/
theorem stripStyle_styled {bitcoinStyle : Bool} {p : List UInt8} (hne : p ≠ [])
    (henc : ∀ c ∈ p, c ∈ enc) : stripStyle (styled bitcoinStyle p) = (bitcoinStyle, p) := by
  have hpos := List.length_pos_iff.mpr hne
  unfold stripStyle styled
  cases bitcoinStyle with
  | true => exact if_pos ⟨Nat.add_lt_add_right hpos 2, rfl⟩
  | false =>
    refine if_neg fun h => ?_
    -- the dash is no character
    have hdash : '-'.toUInt8 ∈ p := List.mem_of_mem_take (h.2 ▸ by simp : '-'.toUInt8 ∈ p.take 2)
    exact absurd (henc _ hdash) (by decide)

theorem zero_mem_styled {bitcoinStyle : Bool} {p : List UInt8} :
    0 ∈ styled bitcoinStyle p ↔ 0 ∈ p := by
  cases bitcoinStyle with
  | true =>
    show 0 ∈ 'P'.toUInt8 :: '-'.toUInt8 :: p ↔ _
    rw [List.mem_cons, List.mem_cons]
    exact ⟨fun h => (h.resolve_left (by decide)).resolve_left (by decide), fun h => .inr (.inr h)⟩
  | false => rfl

theorem base58Text_ne_nil {data : List UInt8} (h : data ≠ []) : base58Text data ≠ [] := by
  intro hnil
  have hvalue := rawDecodeBase58_base58Text data
  rw [hnil] at hvalue
  have hzero : bnBin2bn data = 0 := (Option.some.inj hvalue).symm
  have hcanon := (eq_base58Text_iff hvalue List.not_mem_nil).mp hnil.symm
  rw [hzero] at hcanon
  exact h (List.length_eq_zero_iff.mp hcanon.2.symm)

theorem stripStyle_addrText (C : Crypto D) (version : UInt8) (ripemd160 : Bytes 20)
    (bitcoinStyle : Bool) :
    stripStyle (styled bitcoinStyle (base58Text (addrBuf C version ripemd160)))
      = (bitcoinStyle, base58Text (addrBuf C version ripemd160)) :=
  stripStyle_styled (base58Text_ne_nil (List.cons_ne_nil _ _)) fun _ => mem_enc_of_mem_base58Text

/-- What was written is read. -/
theorem pettycoinFromBase58_addrText (C : Crypto D) (testNet : Bool) (addr : Address)
    (bitcoinStyle : Bool) :
    pettycoinFromBase58 C (styled bitcoinStyle
      (base58Text (addrBuf C (addrVersion testNet bitcoinStyle) addr))) = some (testNet, addr) := by
  rw [pettycoinFromBase58_eq_some, stripStyle_addrText, rawDecodeBase58_base58Text]

-- ---------------------------------------------------------------------------
-- Canonical addresses
-- ---------------------------------------------------------------------------

/-- No terminator in the text, and the ones in front and the bytes of its value make 25. -/
def Canonical (base58 : List UInt8) : Prop :=
  0 ∉ base58 ∧ ∀ bn, rawDecodeBase58 (stripStyle base58).2 = some bn →
    leadingOnes (stripStyle base58).2 + bnNumBytes bn = 25

/-- An accepted text is what is written for its address when it is canonical. -/
theorem canonical_iff {addr : Address}
    (h : pettycoinFromBase58 C base58 = some (testNet, addr)) :
    (∀ c ∈ (stripStyle base58).2, c ∈ enc) ∧
        pettycoinToBase58 C testNet addr (stripStyle base58).1 = some base58 ↔
      Canonical base58 := by
  have hraw := pettycoinFromBase58_eq_some.mp h
  have hstyled := styled_stripStyle base58
  have hnul : 0 ∈ base58 ↔ 0 ∈ (stripStyle base58).2 := by
    conv_lhs => rw [← hstyled]
    exact zero_mem_styled
  rw [pettycoinToBase58_eq, Option.some_inj]
  constructor
  · rintro ⟨henc, htext⟩
    have hnot : 0 ∉ (stripStyle base58).2 := fun hmem => zero_not_mem_enc (henc 0 hmem)
    refine ⟨fun hmem => hnot (hnul.mp hmem), fun bn hbn => ?_⟩
    obtain rfl := Option.some.inj (hraw.symm.trans hbn)
    have hsame : (stripStyle base58).2
        = base58Text (addrBuf C (addrVersion testNet (stripStyle base58).1) addr) := by
      conv_lhs => rw [← htext]
      rw [stripStyle_addrText]
    rw [((eq_base58Text_iff hraw hnot).mp hsame).2, addrBuf_length]
  · rintro ⟨hnot, hlen⟩
    have hnot' : 0 ∉ (stripStyle base58).2 := fun hmem => hnot (hnul.mpr hmem)
    have hsame := (eq_base58Text_iff hraw hnot').mpr
      ⟨rfl, (hlen _ hraw).trans (addrBuf_length ..).symm⟩
    refine ⟨fun c hc => mem_enc_of_mem_base58Text (hsame ▸ hc), ?_⟩
    rw [← hsame, hstyled]

/-- **Which addresses are canonical**: an accepted text has only characters of the alphabet
and is what is written for its address in its style exactly when no terminator is in it and the
ones it begins with are as many as the zeros that the bytes begin with. Of these no two are the
same address in the same style. -/
theorem pettycoinFromBase58_canonical_iff (C : Crypto D) :
    (∀ base58 testNet addr, pettycoinFromBase58 C base58 = some (testNet, addr) →
      ((∀ c ∈ (stripStyle base58).2, c ∈ enc) ∧
          pettycoinToBase58 C testNet addr (stripStyle base58).1 = some base58 ↔
        Canonical base58)) ∧
      ∀ base58 base58' r, pettycoinFromBase58 C base58 = some r →
        pettycoinFromBase58 C base58' = some r → (stripStyle base58).1 = (stripStyle base58').1 →
        Canonical base58 → Canonical base58' → base58 = base58' := by
  refine ⟨fun base58 testNet addr h => canonical_iff h, ?_⟩
  rintro base58 base58' ⟨testNet, addr⟩ h h' hstyle hcanon hcanon'
  have htext := ((canonical_iff h).mpr hcanon).2
  have htext' := ((canonical_iff h').mpr hcanon').2
  rw [hstyle] at htext
  exact Option.some.inj (htext.symm.trans htext')

/-- The zero address, whose text for bitcoin is `P-` and 25 ones here, is also accepted as
`P-1`. -/
theorem pettycoinFromBase58_short :
    ¬ ∀ base58 testNet addr, pettycoinFromBase58 idealCrypto base58 = some (testNet, addr) →
      (∀ c ∈ (stripStyle base58).2, c ∈ enc) ∧
        pettycoinToBase58 idealCrypto testNet addr (stripStyle base58).1 = some base58 := by
  intro h
  have hshort := h ['P'.toUInt8, '-'.toUInt8, '1'.toUInt8] false (Bytes.zero 20) (by decide)
  have hlong : pettycoinToBase58 idealCrypto false (Bytes.zero 20) true
      = some ('P'.toUInt8 :: '-'.toUInt8 :: List.replicate 25 '1'.toUInt8) := by
    rw [pettycoinToBase58_eq]
    decide
  exact absurd (hlong.symm.trans hshort.2) (by decide)

-- ---------------------------------------------------------------------------
-- Version and hash
-- ---------------------------------------------------------------------------

/-- What is before the terminator, where there is none before the end. -/
theorem cString_eq (h : 0 ∉ base58) : cString base58 = base58 := by
  refine List.takeWhile_eq_self_iff.mpr fun c hc => ?_
  rw [bne_iff_ne]
  rintro rfl
  exact h hc

/-- **What is accepted** as version and hash: 25 bytes that end in the checksum of all of
them. -/
theorem ripemdFromBase58_eq_some {version : UInt8} {ripemd160 : Bytes 20} :
    ripemdFromBase58 C base58 = some (version, ripemd160) ↔
      (cString base58).length < base58AddrMaxLen ∧
      ∃ buf : Bytes 25, rawDecodeBase58 (cString base58) = some (bnBin2bn buf.1) ∧
        buf.1[0]?.getD 0 = version ∧ buf.slice 1 20 (by decide) = ripemd160 ∧
        base58GetChecksum C buf.1 = buf.1.drop 21 := by
  unfold ripemdFromBase58
  dsimp only
  generalize cString base58 = src
  by_cases hlong : src.length > base58AddrMaxLen - 1
  · rw [if_pos hlong]
    refine iff_of_false (by simp) fun h => ?_
    have hlt := h.1
    unfold base58AddrMaxLen at hlong hlt
    omega
  · have hlt : src.length < base58AddrMaxLen := by
      unfold base58AddrMaxLen at hlong ⊢
      omega
    rw [if_neg hlong, and_iff_right hlt]
    cases hraw : rawDecodeBase58 src with
    | none => simp
    | some bn =>
      dsimp only
      constructor
      · intro h
        by_cases hfit : bnNumBytes bn ≤ 25
        · rw [dif_pos hfit] at h
          split_ifs at h with hsum
          obtain ⟨rfl, rfl⟩ := Prod.mk.inj (Option.some.inj h)
          exact ⟨zeroFilled 25 bn hfit, by rw [bnBin2bn_zeroFilled], rfl, rfl, not_not.mp hsum⟩
        · rw [dif_neg hfit] at h
          exact absurd h (by simp)
      · rintro ⟨buf, hbuf, rfl, rfl, hsum⟩
        obtain rfl := Option.some.inj hbuf
        have hfit : bnNumBytes (bnBin2bn buf.1) ≤ 25 :=
          (bnNumBytes_bnBin2bn_le buf.1).trans_eq buf.2
        have hfill : zeroFilled 25 (bnBin2bn buf.1) hfit = buf :=
          Subtype.ext (zeroFilled_bnBin2bn buf.2 hfit)
        rw [dif_pos hfit, hfill, if_neg (not_not.mpr hsum)]

/-- The checksum over all bytes, its own among them, is that over version and hash. -/
def SumsAgree (C : Crypto D) (buf : List UInt8) : Prop :=
  base58GetChecksum C buf = base58GetChecksum C (buf.take 21)

theorem ripemdFromBase58_addrText {version : UInt8} {ripemd160 : Bytes 20} :
    ripemdFromBase58 C (base58Text (addrBuf C version ripemd160)) = some (version, ripemd160) ↔
      SumsAgree C (addrBuf C version ripemd160) := by
  unfold SumsAgree
  rw [ripemdFromBase58_eq_some, cString_eq (zero_not_mem_base58Text _),
    rawDecodeBase58_base58Text, addrBuf_take, ← addrBuf_drop]
  constructor
  · rintro ⟨-, buf, hbuf, -, -, hsum⟩
    have hsame : buf.1 = addrBuf C version ripemd160 := by
      rw [← zeroFilled_bnBin2bn buf.2 ((bnNumBytes_bnBin2bn_le buf.1).trans_eq buf.2),
        zeroFilled_eq_addrBuf]
      exact (Option.some.inj hbuf).symm
    rwa [hsame] at hsum
  · intro hsum
    let buf : Bytes 25 := ⟨_, addrBuf_length C version ripemd160⟩
    have hsame : buf.1 = addrBuf C version ripemd160 := rfl
    obtain ⟨⟨hversion, hhash⟩, -⟩ := buf_eq_iff.mp hsame
    exact ⟨length_addrText_lt C version ripemd160, buf, rfl, hversion, hhash, hsum⟩

/-- **When version and hash are read back**: `ripemd_from_base58` takes the checksum over all
25 bytes. It reads what was written, and what it accepts has the checksum of its version and
hash, exactly when that is the checksum over the 21. -/
theorem ripemdFromBase58_right_iff (C : Crypto D) :
    (∀ version ripemd160, ∃ base58, base58WithCheck C version ripemd160 = some base58 ∧
      (ripemdFromBase58 C base58 = some (version, ripemd160) ↔
        SumsAgree C (addrBuf C version ripemd160))) ∧
      ∀ base58 version ripemd160, ripemdFromBase58 C base58 = some (version, ripemd160) →
        ∀ buf : Bytes 25, rawDecodeBase58 (cString base58) = some (bnBin2bn buf.1) →
          (buf.1 = addrBuf C version ripemd160 ↔ SumsAgree C buf.1) := by
  constructor
  · intro version ripemd160
    exact ⟨_, base58WithCheck_eq C version ripemd160, ripemdFromBase58_addrText⟩
  · intro base58 version ripemd160 h buf hbuf
    obtain ⟨-, buf', hbuf', hversion, hhash, hsum⟩ := ripemdFromBase58_eq_some.mp h
    have hsame : buf'.1 = buf.1 := by
      rw [← zeroFilled_bnBin2bn buf.2 ((bnNumBytes_bnBin2bn_le buf.1).trans_eq buf.2),
        ← zeroFilled_bnBin2bn buf'.2 ((bnNumBytes_bnBin2bn_le buf'.1).trans_eq buf'.2)]
      congr 1
      simp only [Option.some.inj (hbuf'.symm.trans hbuf)]
    obtain rfl := Subtype.ext hsame
    rw [buf_eq_iff, and_iff_right ⟨hversion, hhash⟩, ← hsum]
    exact eq_comm

end Addresses

/-- A hash that tells the length of what is hashed. -/
def lengthCrypto : Crypto (Bytes 32) where
  doubleSha msg := ⟨List.replicate 32 (UInt8.ofNat msg.length), List.length_replicate⟩
  pubkeyToAddr _ := Bytes.zero 20
  ecdsaVerify _ _ _ := false

/-- What was written is not read. -/
theorem ripemdFromBase58_lost :
    ¬ ∀ version ripemd160, ∃ base58, base58WithCheck lengthCrypto version ripemd160 = some base58 ∧
      ripemdFromBase58 lengthCrypto base58 = some (version, ripemd160) := by
  intro h
  obtain ⟨base58, htext, hread⟩ := h 0 (Bytes.zero 20)
  rw [base58WithCheck_eq] at htext
  obtain rfl := Option.some.inj htext
  have hsums := ripemdFromBase58_addrText.mp hread
  unfold SumsAgree at hsums
  exact absurd hsums (by decide)

-- ---------------------------------------------------------------------------
-- Keys
-- ---------------------------------------------------------------------------

section Keys

variable {D : Type} [Digest D] {C : Crypto D} {G : Curve}

theorem keyBuf_length (C : Crypto D) (version : UInt8) (key : Bytes 32) :
    (keyBuf C version key).length = 38 := by
  simp [keyBuf, key.2]

/-- Bytes that begin with no zero are those of their number. -/
theorem bnBn2bin_bnBin2bn {c : UInt8} {data : List UInt8} (hc : c ≠ 0) :
    bnBn2bin (bnBin2bn (c :: data)) = c :: data ∧
      bnNumBytes (bnBin2bn (c :: data)) = (c :: data).length := by
  have hzeros : leadingZeros ((c :: data).map UInt8.toNat) = 0 := by
    rw [List.map_cons]
    cases hnat : c.toNat with
    | zero => exact absurd (UInt8.toNat_inj.mp hnat) hc
    | succ n => rfl
  have hlength := leadingZeros_add_bnNumBytes (c :: data)
  rw [hzeros, Nat.zero_add] at hlength
  have hfill := zeroFilled_bnBin2bn rfl (Nat.le_of_eq hlength)
  change List.replicate ((c :: data).length - bnNumBytes (bnBin2bn (c :: data))) 0
    ++ bnBn2bin (bnBin2bn (c :: data)) = c :: data at hfill
  rw [hlength, Nat.sub_self, List.replicate_zero, List.nil_append] at hfill
  exact ⟨hfill, hlength⟩

theorem keyNet_keyVersion (testNet bitcoinStyle : Bool) :
    keyNet bitcoinStyle (keyVersion testNet bitcoinStyle) = some testNet := by
  cases testNet <;> cases bitcoinStyle <;> rfl

theorem keyVersion_ne_zero (testNet bitcoinStyle : Bool) : keyVersion testNet bitcoinStyle ≠ 0 := by
  cases testNet <;> cases bitcoinStyle <;> decide

/-- The text of a key fits. -/
theorem length_keyText_lt (C : Crypto D) (version : UInt8) (key : Bytes 32) :
    (base58Text (keyBuf C version key)).length < base58KeyMaxLen := by
  have hle : (base58Text (keyBuf C version key)).length ≤ 38 + 14 :=
    length_base58Text_le (by decide) (keyBuf_length C version key)
  exact Nat.lt_succ_of_le hle

theorem keyToBase58_eq {key : Nat} (h : bnNumBytes key ≤ 32) (testNet bitcoinStyle : Bool) :
    keyToBase58 C testNet key bitcoinStyle = .ok (some (styled bitcoinStyle
      (base58Text (keyBuf C (keyVersion testNet bitcoinStyle) (zeroFilled 32 key h))))) := by
  rw [keyToBase58, dif_pos h, encodeBase58_eq, if_pos (length_keyText_lt ..), Option.map_some]

/-- What was written is read as far as the public key. -/
theorem keyFromBase58_keyText {key : Nat} (h : bnNumBytes key ≤ 32) (testNet bitcoinStyle : Bool) :
    keyFromBase58 C G (styled bitcoinStyle
        (base58Text (keyBuf C (keyVersion testNet bitcoinStyle) (zeroFilled 32 key h)))) =
      if hlen : (G.i2o (G.mul key)).length = 33 then
        .ok (some (⟨key, G.mul key⟩, testNet, ⟨G.i2o (G.mul key), hlen⟩))
      else .error .pubkeyLen := by
  have hkey : (zeroFilled 32 key h).1.length = 32 := (zeroFilled 32 key h).2
  generalize hversion : keyVersion testNet bitcoinStyle = version
  have hne : version ≠ 0 := hversion ▸ keyVersion_ne_zero testNet bitcoinStyle
  obtain ⟨hbytes, hnum⟩ :
      bnBn2bin (bnBin2bn (keyBuf C version (zeroFilled 32 key h))) = keyBuf C version _ ∧
        bnNumBytes (bnBin2bn (keyBuf C version (zeroFilled 32 key h))) = (keyBuf C version _).length :=
    bnBn2bin_bnBin2bn hne
  rw [keyBuf_length] at hnum
  have htake : (keyBuf C version (zeroFilled 32 key h)).take 34
      = version :: (zeroFilled 32 key h).1 ++ [1] := List.take_left' (by simp [hkey])
  have hdrop : (keyBuf C version (zeroFilled 32 key h)).drop 34
      = base58GetChecksum C (version :: (zeroFilled 32 key h).1 ++ [1]) :=
    List.drop_left' (by simp [hkey])
  have hone : (keyBuf C version (zeroFilled 32 key h))[33]? = some 1 := by
    simp [keyBuf, hkey]
  have hpriv : ((keyBuf C version (zeroFilled 32 key h)).drop 1).take 32
      = (zeroFilled 32 key h).1 := by
    show ((zeroFilled 32 key h).1 ++ [1] ++ _).take 32 = _
    rw [List.append_assoc]
    exact List.take_left' hkey
  have hstrip : stripStyle (styled bitcoinStyle
      (base58Text (keyBuf C version (zeroFilled 32 key h)))) = (bitcoinStyle, _) :=
    stripStyle_styled (base58Text_ne_nil (List.cons_ne_nil _ _)) fun _ => mem_enc_of_mem_base58Text
  unfold keyFromBase58
  rw [hstrip]
  dsimp only
  rw [rawDecodeBase58_base58Text]
  dsimp only
  rw [hnum, hbytes, if_neg (by decide), if_neg (by decide), htake, hdrop, if_neg (not_not.mpr rfl),
    hone, if_neg (not_not.mpr rfl), hpriv, bnBin2bn_zeroFilled]
  rw [show keyNet bitcoinStyle ((keyBuf C version (zeroFilled 32 key h))[0]?.getD 0) = some testNet
    from hversion ▸ keyNet_keyVersion testNet bitcoinStyle]
  rfl

/-- A point has the length of a public key when it is not the one at infinity. -/
theorem Curve.Documented.i2o_mul (hG : G.Documented) (key : Nat) :
    (G.i2o (G.mul key)).length = 33 ↔ ¬ G.order ∣ key := by
  rw [← hG.mul_eq_infinity]
  constructor
  · intro hlen hinf
    rw [hinf, hG.i2o_infinity] at hlen
    exact absurd hlen (by decide)
  · exact hG.i2o_length _

/-- **Addresses and keys round trip**: a text is always written; an address is read back from
it; a private key is read back exactly when the order of the group does not divide it. Otherwise
its public key is the point at infinity, and an assertion fails. -/
theorem base58_round_trip_iff (C : Crypto D) (hG : G.Documented) :
    (∀ testNet addr bitcoinStyle, ∃ base58,
      pettycoinToBase58 C testNet addr bitcoinStyle = some base58 ∧
        pettycoinFromBase58 C base58 = some (testNet, addr)) ∧
      ∀ key < 2 ^ 256, ∀ testNet bitcoinStyle, ∃ base58,
        keyToBase58 C testNet key bitcoinStyle = .ok (some base58) ∧
          ((∃ pubkey, keyFromBase58 C G base58 = .ok (some (⟨key, G.mul key⟩, testNet, pubkey))) ↔
            ¬ G.order ∣ key) := by
  constructor
  · intro testNet addr bitcoinStyle
    exact ⟨_, pettycoinToBase58_eq C testNet addr bitcoinStyle,
      pettycoinFromBase58_addrText C testNet addr bitcoinStyle⟩
  · intro key hkey testNet bitcoinStyle
    have hfit : bnNumBytes key ≤ 32 :=
      (length_bigDigits_le (by decide)).mpr (by rwa [show 256 ^ 32 = 2 ^ 256 by decide])
    refine ⟨_, keyToBase58_eq hfit testNet bitcoinStyle, ?_⟩
    rw [keyFromBase58_keyText, ← hG.i2o_mul]
    constructor
    · rintro ⟨pubkey, h⟩
      by_contra hlen
      rw [dif_neg hlen] at h
      exact absurd h (by simp)
    · intro hlen
      exact ⟨⟨_, hlen⟩, dif_pos hlen⟩

end Keys

/-- A group of the order of secp256k1. Its points are written as the generator is. -/
def sampleCurve : Curve where
  Point := Nat
  order := 0xfffffffffffffffffffffffffffffffebaaedce6af48a03bbfd25e8cd0364141
  infinity := 0
  mul key := key % 0xfffffffffffffffffffffffffffffffebaaedce6af48a03bbfd25e8cd0364141
  i2o p :=
    if p = 0 then [0]
    else
      2 :: (zeroFilled 32 0x79be667ef9dcbbac55a06295ce870b07029bfcdb2dce28d959f2815b16f81798
        (by decide +kernel)).1

theorem sampleCurve_documented : sampleCurve.Documented where
  mul_eq_infinity key := Nat.dvd_iff_mod_eq_zero.symm
  i2o_infinity := rfl
  i2o_length p hp := by
    refine (congrArg List.length (if_neg hp)).trans ?_
    exact congrArg (· + 1) (zeroFilled 32 _ _).2

/-- The key 1 is read back. -/
theorem base58_round_trip_one :
    sampleCurve.Documented ∧ ∃ base58,
      keyToBase58 idealCrypto false 1 true = .ok (some base58) ∧
        ∃ pubkey, keyFromBase58 idealCrypto sampleCurve base58
          = .ok (some (⟨1, sampleCurve.mul 1⟩, false, pubkey)) := by
  refine ⟨sampleCurve_documented, ?_⟩
  obtain ⟨base58, htext, hread⟩ :=
    (base58_round_trip_iff idealCrypto sampleCurve_documented).2 1 (by decide) false true
  exact ⟨base58, htext, hread.mpr (by decide)⟩

/-- The key 0 is not. -/
theorem keyFromBase58_zero :
    ¬ ∀ key < 2 ^ 256, ∀ testNet bitcoinStyle, ∃ base58,
      keyToBase58 idealCrypto testNet key bitcoinStyle = .ok (some base58) ∧
        ∃ pubkey, keyFromBase58 idealCrypto sampleCurve base58
          = .ok (some (⟨key, sampleCurve.mul key⟩, testNet, pubkey)) := by
  intro h
  obtain ⟨base58, htext, pubkey, hread⟩ := h 0 (by decide) false false
  have hfit : bnNumBytes 0 ≤ 32 := by decide
  rw [keyToBase58_eq hfit] at htext
  obtain rfl := Option.some.inj (Except.ok.inj htext)
  rw [keyFromBase58_keyText, dif_neg (by decide)] at hread
  exact absurd hread (by simp)

end Pettycoin
