import Pettycoin.JsonTokens

/-!
# Pettycoin — how the tokens are made

`jsmn_parse` reads a JSON text and makes its tokens, in the strict form in which `json.h` has it
built; `json_parse_input` calls it with ever larger arrays until the tokens have room. The
tokeniser knows strings, primitives and brackets, and takes colons and commas for blanks: a text
is a row of *pieces* (`Piece`), and its tokens are those of the pieces in preorder.

* `jsmnParse`, `jsonParseInput` — the tokeniser, and the loop that makes room for it;
* `Piece`, `textOf`, `tokensOf` — pieces, with their text and their tokens;
* `jsmnLoop_fuel` — any fuel that is enough gives the same;
* `jsmnRun_pieces` — pieces are read as their tokens.
-/

namespace Pettycoin

open ExceptRules Preorder

-- ---------------------------------------------------------------------------
-- The tokeniser
-- ---------------------------------------------------------------------------

/-- `jsmnerr_t`, or the fault at which the call stops. -/
inductive JsmnErr
  | nomem
  | inval
  | part
  | fault (f : JsonFault)
deriving DecidableEq, Repr

/-- `jsmntok_t` while jsmn fills it in: a place that is not known yet is −1. -/
structure JsmnFill where
  type : JsmnType
  start : Int
  stop : Int
  size : Nat
deriving DecidableEq, Repr

/-- `jsmn_parser`, with the tokens that are allocated, so that `toknext` is their number, and
the count of `jsmn_parse()`; `toksuper` is `none` for −1. -/
structure JsmnParser where
  pos : Nat
  toksuper : Option Nat
  toks : List JsmnFill
  count : Nat
deriving DecidableEq, Repr

/-- `jsmn_init()`. -/
def jsmnInit : JsmnParser := ⟨0, none, [], 0⟩

/-- `js[pos]`; behind the text it reads what the memory holds there, as far as there is any. -/
def charAt (js : List UInt8) (pos : Nat) : Except JsmnErr UInt8 :=
  match js[pos]? with
  | none => .error (.fault .bounds)
  | some c => .ok c

/-- What a primitive must be followed by. -/
def endsPrimitive (c : UInt8) : Bool :=
  c = '\t'.toUInt8 ∨ c = '\r'.toUInt8 ∨ c = '\n'.toUInt8 ∨ c = ' '.toUInt8 ∨ c = ','.toUInt8 ∨
    c = ']'.toUInt8 ∨ c = '}'.toUInt8

/-- What a primitive begins with: numbers and booleans, and `null`. -/
def startsPrimitive (c : UInt8) : Bool :=
  c = '-'.toUInt8 ∨ ('0'.toUInt8 ≤ c ∧ c ≤ '9'.toUInt8) ∨ c = 't'.toUInt8 ∨ c = 'f'.toUInt8 ∨
    c = 'n'.toUInt8

/-- What is skipped between the tokens. -/
def isBlank (c : UInt8) : Bool :=
  c = '\t'.toUInt8 ∨ c = '\r'.toUInt8 ∨ c = '\n'.toUInt8 ∨ c = ':'.toUInt8 ∨ c = ','.toUInt8 ∨
    c = ' '.toUInt8

/-- What may follow a backslash. -/
def isEscape (c : UInt8) : Bool :=
  c = '"'.toUInt8 ∨ c = '/'.toUInt8 ∨ c = '\\'.toUInt8 ∨ c = 'b'.toUInt8 ∨ c = 'f'.toUInt8 ∨
    c = 'r'.toUInt8 ∨ c = 'n'.toUInt8 ∨ c = 't'.toUInt8

/-- A digit of `\uXXXX`. -/
def isHexDigit (c : UInt8) : Bool := (48 ≤ c ∧ c ≤ 57) ∨ (65 ≤ c ∧ c ≤ 70) ∨ (97 ≤ c ∧ c ≤ 102)

/-- `jsmn_alloc_token()`, with what its caller fills in. -/
def jsmnAllocToken (num : Nat) (p : JsmnParser) (tok : JsmnFill) : Except JsmnErr JsmnParser :=
  if num ≤ p.toks.length then .error .nomem
  else .ok { p with toks := p.toks ++ [tok] }

/-- The loop of `jsmn_parse_primitive()`: the place of what ends it. -/
def jsmnPrimitiveLoop (js : List UInt8) (len : Nat) : Nat → Nat → Except JsmnErr Nat
  | 0, _ => .error (.fault .diverges)
  | fuel + 1, pos =>
    if pos < len then do
      let c ← charAt js pos
      if c = 0 then .error .part
      else if endsPrimitive c then .ok pos
      -- a `char` from 128 on is negative
      else if c < 32 ∨ 127 ≤ c then .error .inval
      else jsmnPrimitiveLoop js len fuel (pos + 1)
    else .error .part

/-- `jsmn_parse_primitive()`. -/
def jsmnParsePrimitive (js : List UInt8) (len num : Nat) (p : JsmnParser) :
    Except JsmnErr JsmnParser := do
  let stop ← jsmnPrimitiveLoop js len (len + 1) p.pos
  let p' ← jsmnAllocToken num p ⟨.primitive, p.pos, stop, 0⟩
  .ok { p' with pos := stop - 1 }

/-- The loop over the four digits: the place after them. It looks for the nul only, not for the
end of the text. -/
def jsmnHexLoop (js : List UInt8) : Nat → Nat → Except JsmnErr Nat
  | 0, pos => .ok pos
  | i + 1, pos => do
    let c ← charAt js pos
    if c = 0 then .ok pos
    else if isHexDigit c then jsmnHexLoop js i (pos + 1)
    else .error .inval

/-- The loop of `jsmn_parse_string()`: the place of the closing quote. -/
def jsmnStringLoop (js : List UInt8) (len : Nat) : Nat → Nat → Except JsmnErr Nat
  | 0, _ => .error (.fault .diverges)
  | fuel + 1, pos =>
    if pos < len then do
      let c ← charAt js pos
      if c = 0 then .error .part
      else if c = '"'.toUInt8 then .ok pos
      else if c = '\\'.toUInt8 then do
        -- whether this lies in the text is not asked
        let c ← charAt js (pos + 1)
        if isEscape c then jsmnStringLoop js len fuel (pos + 2)
        else if c = 'u'.toUInt8 then do
          let pos ← jsmnHexLoop js 4 (pos + 2)
          jsmnStringLoop js len fuel pos
        else .error .inval
      else jsmnStringLoop js len fuel (pos + 1)
    else .error .part

/-- `jsmn_parse_string()`. -/
def jsmnParseString (js : List UInt8) (len num : Nat) (p : JsmnParser) :
    Except JsmnErr JsmnParser := do
  let stop ← jsmnStringLoop js len (len + 1) (p.pos + 1)
  let p' ← jsmnAllocToken num p ⟨.string, p.pos + 1, stop, 0⟩
  .ok { p' with pos := stop }

/-- A token that has begun and not ended. -/
def JsmnFill.isOpen (tok : JsmnFill) : Bool := tok.start ≠ -1 ∧ tok.stop = -1

/-- The last of the first tokens that is open. -/
def lastOpen (toks : List JsmnFill) : Nat → Option Nat
  | 0 => none
  | i + 1 => if (toks[i]?).any JsmnFill.isOpen then some i else lastOpen toks i

/-- `tokens[parser->toksuper].size++`, if there is a token above. -/
def JsmnParser.countChild (p : JsmnParser) : JsmnParser :=
  match p.toksuper with
  | none => p
  | some i => { p with toks := p.toks.modify i fun tok => { tok with size := tok.size + 1 } }

/-- A token is counted, and by the one above. -/
def JsmnParser.counted (p : JsmnParser) : JsmnParser :=
  { p.countChild with count := p.count + 1 }

/-- An opening bracket. -/
def jsmnOpen (num : Nat) (p : JsmnParser) (type : JsmnType) : Except JsmnErr JsmnParser := do
  let p' ← jsmnAllocToken num p ⟨type, p.pos, -1, 0⟩
  .ok { p'.counted with toksuper := some p.toks.length }

/-- A closing bracket. -/
def jsmnClose (p : JsmnParser) (type : JsmnType) : Except JsmnErr JsmnParser :=
  match lastOpen p.toks p.toks.length with
  | none => .error .inval
  | some i =>
    if (p.toks[i]?).map JsmnFill.type ≠ some type then .error .inval
    else
      let toks := p.toks.modify i fun tok => { tok with stop := p.pos + 1 }
      .ok { p with toks := toks, toksuper := lastOpen toks (i + 1) }

/-- The `switch` of `jsmn_parse()`. -/
def jsmnChar (js : List UInt8) (len num : Nat) (p : JsmnParser) (c : UInt8) :
    Except JsmnErr JsmnParser :=
  if c = '\x7b'.toUInt8 ∨ c = '['.toUInt8 then
    jsmnOpen num p (if c = '\x7b'.toUInt8 then .object else .array)
  else if c = '\x7d'.toUInt8 ∨ c = ']'.toUInt8 then
    jsmnClose p (if c = '\x7d'.toUInt8 then .object else .array)
  else if c = '"'.toUInt8 then (jsmnParseString js len num p).map JsmnParser.counted
  else if isBlank c then .ok p
  else if startsPrimitive c then (jsmnParsePrimitive js len num p).map JsmnParser.counted
  else .error .inval

/-- The loop of `jsmn_parse()`. -/
def jsmnLoop (js : List UInt8) (len num : Nat) : Nat → JsmnParser → Except JsmnErr JsmnParser
  | 0, _ => .error (.fault .diverges)
  | fuel + 1, p =>
    if p.pos < len then do
      let c ← charAt js p.pos
      if c = 0 then .ok p
      else do
        let p ← jsmnChar js len num p c
        jsmnLoop js len num fuel { p with pos := p.pos + 1 }
    else .ok p

/-- `jsmn_parse()`: its result, and the tokens. -/
def jsmnParse (js : List UInt8) (len num : Nat) : Except JsmnErr (Nat × List JsmnFill) := do
  let p ← jsmnLoop js len num (len + 1) jsmnInit
  if (lastOpen p.toks p.toks.length).isSome then .error .part
  else .ok (p.count, p.toks)

/-- A token as it is read later. -/
def JsmnFill.tok (f : JsmnFill) : JsmnTok := ⟨f.type, f.start.toNat, f.stop.toNat, f.size⟩

/-- The token behind the others, which can always be read. -/
def endToken : JsmnTok := ⟨.last, 0, 0, 0⟩

/-- The loop of `json_parse_input()`; `count` is the number of tokens that there is room for. -/
def jsonParseInputLoop (input : List UInt8) (len : Nat) :
    Nat → Nat → Except JsonFault (Bool × Option (List JsmnTok))
  | 0, _ => .error .diverges
  | fuel + 1, count =>
    match jsmnParse input len (count - 1) with
    | .error .inval => .ok (false, none)
    | .error .part => .ok (true, none)
    | .error .nomem => jsonParseInputLoop input len fuel (count * 2)
    | .error (.fault f) => .error f
    | .ok (ret, toks) => .ok (true, some ((toks.take ret).map JsmnFill.tok ++ [endToken]))

/-- `json_parse_input()`: whether the input is valid, and the tokens, if it is complete. -/
def jsonParseInput (input : List UInt8) (len : Nat) :
    Except JsonFault (Bool × Option (List JsmnTok)) :=
  jsonParseInputLoop input len (len + 1) 10

-- ---------------------------------------------------------------------------
-- Pieces
-- ---------------------------------------------------------------------------

/-- What a text is made of: blanks, primitives, strings without their quotes, and groups in
braces (an object) or brackets (an array). -/
inductive Piece
  | blank (c : UInt8)
  | primitive (text : List UInt8)
  | string (text : List UInt8)
  | group (object : Bool) (pieces : List Piece)

/-- The opening bracket of a group. -/
def opening (object : Bool) : UInt8 := if object then '\x7b'.toUInt8 else '['.toUInt8

/-- The closing bracket. -/
def closing (object : Bool) : UInt8 := if object then '\x7d'.toUInt8 else ']'.toUInt8

/-- The type of its token. -/
def groupType (object : Bool) : JsmnType := if object then .object else .array

mutual

/-- The text of a piece. -/
def Piece.text : Piece → List UInt8
  | .blank c => [c]
  | .primitive text => text
  | .string text => '"'.toUInt8 :: (text ++ ['"'.toUInt8])
  | .group object pieces => opening object :: (textOf pieces ++ [closing object])

/-- The text of the pieces. -/
def textOf : List Piece → List UInt8
  | [] => []
  | piece :: pieces => piece.text ++ textOf pieces

end

/-- How many tokens it has at the top: one, if it is not a blank. -/
def Piece.tops : Piece → Nat
  | .blank _ => 0
  | _ => 1

/-- How many of the pieces are not blanks. -/
def topsOf (pieces : List Piece) : Nat := (pieces.map Piece.tops).sum

mutual

/-- The tokens of a piece that begins at `off`. -/
def Piece.tokens (off : Nat) : Piece → List JsmnTok
  | .blank _ => []
  | .primitive text => [⟨.primitive, off, off + text.length, 0⟩]
  | .string text => [⟨.string, off + 1, off + 1 + text.length, 0⟩]
  | .group object pieces =>
    ⟨groupType object, off, off + 1 + (textOf pieces).length + 1, topsOf pieces⟩ ::
      tokensOf (off + 1) pieces

/-- The tokens of the pieces, in preorder. -/
def tokensOf (off : Nat) : List Piece → List JsmnTok
  | [] => []
  | piece :: pieces => piece.tokens off ++ tokensOf (off + piece.text.length) pieces

end

/-- What a character of a primitive is, the first apart. -/
def withinPrimitive (c : UInt8) : Bool := !endsPrimitive c && (32 ≤ c && c < 127)

/-- A primitive. -/
def PrimitiveText (text : List UInt8) : Prop :=
  ∃ c cs, text = c :: cs ∧ startsPrimitive c = true ∧ ∀ x ∈ cs, withinPrimitive x = true

/-- What may stand between quotes. -/
inductive StringText : List UInt8 → Prop
  | nil : StringText []
  | char {c : UInt8} {text : List UInt8} : c ≠ 0 → c ≠ '"'.toUInt8 → c ≠ '\\'.toUInt8 →
      StringText text → StringText (c :: text)
  | escape {c : UInt8} {text : List UInt8} : isEscape c = true → StringText text →
      StringText ('\\'.toUInt8 :: c :: text)
  | unicode {digits text : List UInt8} : digits.length = 4 → (∀ c ∈ digits, isHexDigit c = true) →
      StringText text → StringText ('\\'.toUInt8 :: 'u'.toUInt8 :: (digits ++ text))

mutual

/-- A piece as jsmn takes it, where `next` stands behind it. -/
def Piece.Ok (next : Option UInt8) : Piece → Prop
  | .blank c => isBlank c = true
  | .primitive text => PrimitiveText text ∧ next.any endsPrimitive = true
  | .string text => StringText text
  | .group object pieces => PiecesOk (some (closing object)) pieces

/-- And pieces. -/
def PiecesOk (next : Option UInt8) : List Piece → Prop
  | [] => True
  | piece :: pieces => piece.Ok ((textOf pieces).head?.or next) ∧ PiecesOk next pieces

end

-- ---------------------------------------------------------------------------
-- Reading ahead
-- ---------------------------------------------------------------------------

section Reading

variable {js l l' : List UInt8} {len num pos fuel fuel' : Nat} {c : UInt8}

/-- From `pos` on the text goes on with `l`. -/
structure Ahead (js : List UInt8) (len pos : Nat) (l : List UInt8) : Prop where
  rest : (js.take len).drop pos = l
  inside : pos ≤ len
  held : len ≤ js.length

theorem Ahead.length_eq (h : Ahead js len pos l) : pos + l.length = len := by
  obtain ⟨rfl, hpos, hlen⟩ := h
  rw [List.length_drop, List.length_take]
  omega

theorem Ahead.append (h : Ahead js len pos (l ++ l')) : Ahead js len (pos + l.length) l' := by
  have hlen := h.length_eq
  rw [List.length_append] at hlen
  refine ⟨?_, by omega, h.held⟩
  rw [← List.drop_drop, h.rest, List.drop_left]

theorem Ahead.tail (h : Ahead js len pos (c :: l)) : Ahead js len (pos + 1) l :=
  Ahead.append (l := [c]) h

theorem Ahead.lt (h : Ahead js len pos (c :: l)) : pos < len := by
  have hlen := h.length_eq
  rw [List.length_cons] at hlen
  omega

theorem Ahead.charAt (h : Ahead js len pos (c :: l)) : charAt js pos = .ok c := by
  have hget : (js.take len)[pos]? = some c := by
    have hdrop : ((js.take len).drop pos)[0]? = some c := by rw [h.rest]; rfl
    rwa [List.getElem?_drop, Nat.add_zero] at hdrop
  rw [List.getElem?_take_of_lt h.lt] at hget
  rw [Pettycoin.charAt, hget]

/-- At the end of the text there is nothing ahead. -/
theorem Ahead.not_lt (h : Ahead js len pos []) : ¬ pos < len := by
  have hlen := h.length_eq
  rw [List.length_nil] at hlen
  omega

/-- In a primitive the loop goes on. -/
theorem jsmnPrimitiveLoop_skip {text : List UInt8} : ∀ {pos fuel : Nat},
    (∀ x ∈ text, withinPrimitive x = true) → Ahead js len pos (text ++ l) → len < fuel + pos →
    ∃ fuel', len < fuel' + (pos + text.length) ∧
      jsmnPrimitiveLoop js len fuel pos = jsmnPrimitiveLoop js len fuel' (pos + text.length) := by
  induction text with
  | nil => exact fun _ _ hfuel => ⟨_, hfuel, rfl⟩
  | cons x text ih =>
    intro pos fuel hwithin h hfuel
    have hlt := h.lt
    obtain ⟨fuel, rfl⟩ : ∃ f, fuel = f + 1 := ⟨fuel - 1, by omega⟩
    have hx := hwithin x List.mem_cons_self
    unfold withinPrimitive at hx
    simp only [Bool.and_eq_true, Bool.not_eq_true', decide_eq_true_eq] at hx
    obtain ⟨hends, hge, hsmall⟩ := hx
    have hx0 : x ≠ 0 := by
      rintro rfl
      exact absurd hge (by decide)
    obtain ⟨fuel', hfuel', heq⟩ := ih (fun y hy => hwithin y (List.mem_cons_of_mem _ hy)) h.tail
      (by omega : len < fuel + (pos + 1))
    rw [jsmnPrimitiveLoop, if_pos hlt, h.charAt, ok_bind, if_neg hx0,
      if_neg (by rw [hends]; decide), if_neg (by
        rintro (hlow | hhigh)
        · exact absurd hge (UInt8.not_le.mpr hlow)
        · exact absurd hsmall (UInt8.not_lt.mpr hhigh)), heq, List.length_cons, Nat.add_comm _ 1,
      ← Nat.add_assoc]
    exact ⟨fuel', hfuel', rfl⟩

/-- A primitive is read up to what ends it. -/
theorem jsmnPrimitiveLoop_ended {text : List UInt8} {e : UInt8} (he : endsPrimitive e = true)
    (he0 : e ≠ 0) (hwithin : ∀ x ∈ text, withinPrimitive x = true)
    (h : Ahead js len pos (text ++ e :: l)) (hfuel : len < fuel + pos) :
    jsmnPrimitiveLoop js len fuel pos = .ok (pos + text.length) := by
  obtain ⟨fuel', hfuel', heq⟩ := jsmnPrimitiveLoop_skip hwithin h hfuel
  have hlt := h.append.lt
  obtain ⟨fuel', rfl⟩ : ∃ f, fuel' = f + 1 := ⟨fuel' - 1, by omega⟩
  rw [heq, jsmnPrimitiveLoop, if_pos hlt, h.append.charAt, ok_bind, if_neg he0, if_pos he]

/-- Over digits too. -/
theorem jsmnHexLoop_skip {digits : List UInt8} {i : Nat} : ∀ {pos : Nat},
    (∀ x ∈ digits, isHexDigit x = true) → Ahead js len pos (digits ++ l) →
    jsmnHexLoop js (digits.length + i) pos = jsmnHexLoop js i (pos + digits.length) := by
  induction digits with
  | nil =>
    intro pos _ _
    rw [List.length_nil, Nat.zero_add, Nat.add_zero]
  | cons x digits ih =>
    intro pos hhex h
    have hx := hhex x List.mem_cons_self
    have hx0 : x ≠ 0 := by
      rintro rfl
      exact absurd hx (by decide)
    rw [List.length_cons, Nat.add_right_comm, jsmnHexLoop, h.charAt, ok_bind, if_neg hx0, if_pos hx,
      ih (fun y hy => hhex y (List.mem_cons_of_mem _ hy)) h.tail, Nat.add_right_comm, Nat.add_assoc]

/-- And so in a string. -/
theorem jsmnStringLoop_skip {text : List UInt8} (htext : StringText text) : ∀ {pos fuel : Nat},
    Ahead js len pos (text ++ l) → len < fuel + pos →
    ∃ fuel', len < fuel' + (pos + text.length) ∧
      jsmnStringLoop js len fuel pos = jsmnStringLoop js len fuel' (pos + text.length) := by
  induction htext with
  | nil => exact fun _ hfuel => ⟨_, hfuel, rfl⟩
  | @char c text hc0 hquote hslash htext ih =>
    intro pos fuel h hfuel
    have hlt := h.lt
    obtain ⟨fuel, rfl⟩ : ∃ f, fuel = f + 1 := ⟨fuel - 1, by omega⟩
    obtain ⟨fuel', hfuel', heq⟩ := ih h.tail (by omega : len < fuel + (pos + 1))
    rw [jsmnStringLoop, if_pos hlt, h.charAt, ok_bind, if_neg hc0, if_neg hquote, if_neg hslash,
      heq, List.length_cons, Nat.add_comm _ 1, ← Nat.add_assoc]
    exact ⟨fuel', hfuel', rfl⟩
  | @escape c text hc htext ih =>
    intro pos fuel h hfuel
    have hlt := h.tail.lt
    obtain ⟨fuel, rfl⟩ : ∃ f, fuel = f + 1 := ⟨fuel - 1, by omega⟩
    obtain ⟨fuel', hfuel', heq⟩ := ih h.tail.tail (by omega : len < fuel + (pos + 1 + 1))
    rw [jsmnStringLoop, if_pos h.lt, h.charAt, ok_bind, if_neg (by decide), if_neg (by decide),
      if_pos rfl, h.tail.charAt, ok_bind, if_pos hc, heq, List.length_cons, List.length_cons,
      Nat.add_assoc text.length, Nat.add_comm text.length, ← Nat.add_assoc]
    exact ⟨fuel', hfuel', rfl⟩
  | @unicode digits text hfour hhex htext ih =>
    intro pos fuel h hfuel
    have hlt := h.tail.lt
    obtain ⟨fuel, rfl⟩ : ∃ f, fuel = f + 1 := ⟨fuel - 1, by omega⟩
    have hdigits : Ahead js len (pos + 2) (digits ++ (text ++ l)) := by
      have htail : Ahead js len (pos + 2) ((digits ++ text) ++ l) := h.tail.tail
      rwa [List.append_assoc] at htail
    have hloop := jsmnHexLoop_skip (i := 0) hhex hdigits
    rw [hfour] at hloop
    have hrest := hdigits.append
    rw [hfour] at hrest
    obtain ⟨fuel', hfuel', heq⟩ := ih hrest (by omega : len < fuel + (pos + 2 + 4))
    have hlen : ('\\'.toUInt8 :: 'u'.toUInt8 :: (digits ++ text)).length = 6 + text.length := by
      rw [List.length_cons, List.length_cons, List.length_append, hfour]
      omega
    rw [jsmnStringLoop, if_pos h.lt, h.charAt, ok_bind, if_neg (by decide), if_neg (by decide),
      if_pos rfl, h.tail.charAt, ok_bind, if_neg (by decide), if_pos rfl, hloop, jsmnHexLoop,
      ok_bind, heq, hlen, ← Nat.add_assoc]
    exact ⟨fuel', hfuel', rfl⟩

/-- A string is read up to its closing quote. -/
theorem jsmnStringLoop_closed {text : List UInt8} (htext : StringText text)
    (h : Ahead js len pos (text ++ '"'.toUInt8 :: l)) (hfuel : len < fuel + pos) :
    jsmnStringLoop js len fuel pos = .ok (pos + text.length) := by
  obtain ⟨fuel', hfuel', heq⟩ := jsmnStringLoop_skip htext h hfuel
  have hlt := h.append.lt
  obtain ⟨fuel', rfl⟩ : ∃ f, fuel' = f + 1 := ⟨fuel' - 1, by omega⟩
  rw [heq, jsmnStringLoop, if_pos hlt, h.append.charAt, ok_bind, if_neg (by decide), if_pos rfl]

end Reading

-- ---------------------------------------------------------------------------
-- The open tokens
-- ---------------------------------------------------------------------------

section Open

variable {toks l l' : List JsmnFill} {tok : JsmnFill} {super : Option Nat} {n i k k' : Nat}

/-- A token that jsmn has done with. -/
def JsmnTok.fill (t : JsmnTok) : JsmnFill := ⟨t.type, t.start, t.stop, t.size⟩

@[simp] theorem tok_fill (t : JsmnTok) : t.fill.tok = t := rfl

/-- The token above counts `k` more. -/
def addChildren (super : Option Nat) (k : Nat) (toks : List JsmnFill) : List JsmnFill :=
  match super with
  | none => toks
  | some i => toks.modify i fun tok => { tok with size := tok.size + k }

theorem isOpen_fill (t : JsmnTok) : t.fill.isOpen = false := by
  refine decide_eq_false fun h => ?_
  obtain ⟨-, hstop⟩ := h
  have hnat : (t.stop : Int) = -1 := hstop
  omega

theorem lastOpen_congr (h : ∀ i < n, (l[i]?).any JsmnFill.isOpen = (l'[i]?).any JsmnFill.isOpen) :
    lastOpen l n = lastOpen l' n := by
  induction n with
  | zero => rfl
  | succ n ih =>
    rw [lastOpen, lastOpen, h n (Nat.lt_succ_self n), ih fun i hi => h i (Nat.lt_succ_of_lt hi)]

theorem lastOpen_spec (h : lastOpen toks n = some i) :
    i < n ∧ ∃ tok, toks[i]? = some tok ∧ tok.isOpen = true := by
  induction n with
  | zero => cases h
  | succ n ih =>
    rw [lastOpen] at h
    split_ifs at h with hopen
    · obtain rfl := Option.some.inj h
      obtain ⟨tok, htok, hisopen⟩ := (Option.any_eq_true _ _).mp hopen
      exact ⟨Nat.lt_succ_self n, tok, htok, hisopen⟩
    · obtain ⟨hlt, htok⟩ := ih h
      exact ⟨Nat.lt_succ_of_lt hlt, htok⟩

theorem lt_of_lastOpen (h : lastOpen toks n = some i) : i < toks.length := by
  obtain ⟨-, tok, htok, -⟩ := lastOpen_spec h
  exact (List.getElem?_eq_some_iff.mp htok).1

/-- Tokens behind, all of them done with, change nothing. -/
theorem lastOpen_append (h : ∀ tok ∈ l', tok.isOpen = false) :
    lastOpen (l ++ l') (l ++ l').length = lastOpen l l.length := by
  have hrest : ∀ m ≤ l'.length, lastOpen (l ++ l') (l.length + m) = lastOpen l l.length := by
    intro m hm
    induction m with
    | zero =>
      refine lastOpen_congr fun i hi => ?_
      rw [List.getElem?_append_left hi]
    | succ m ih =>
      have hclosed : ((l ++ l')[l.length + m]?).any JsmnFill.isOpen = false := by
        rw [List.getElem?_append_right (Nat.le_add_right _ _), Nat.add_sub_cancel_left,
          List.getElem?_eq_getElem (by omega)]
        exact h _ (List.getElem_mem _)
      rw [← Nat.add_assoc, lastOpen, hclosed, if_neg Bool.false_ne_true, ih (by omega)]
  rw [List.length_append]
  exact hrest l'.length (Nat.le_refl _)

/-- An open token at the end is the last one. -/
theorem lastOpen_concat (h : tok.isOpen = true) :
    lastOpen (l ++ [tok]) (l ++ [tok]).length = some l.length := by
  rw [List.length_append, List.length_singleton, lastOpen, List.getElem?_append_right (Nat.le_refl _),
    Nat.sub_self]
  exact if_pos h

@[simp] theorem length_addChildren : (addChildren super k toks).length = toks.length := by
  cases super with
  | none => rfl
  | some i => exact List.length_modify _ _ _

theorem addChildren_zero : addChildren super 0 toks = toks := by
  cases super with
  | none => rfl
  | some i => exact List.modify_id i toks

theorem addChildren_add :
    addChildren super k' (addChildren super k toks) = addChildren super (k + k') toks := by
  cases super with
  | none => rfl
  | some i =>
    show (toks.modify i _).modify i _ = toks.modify i _
    rw [List.modify_modify_eq]
    congr 1
    funext tok
    show ({ tok with size := tok.size + k + k' } : JsmnFill) = _
    rw [Nat.add_assoc]

/-- The token above lies among the first ones. -/
theorem addChildren_append (h : ∀ i ∈ super, i < l.length) :
    addChildren super k (l ++ l') = addChildren super k l ++ l' := by
  cases super with
  | none => rfl
  | some i =>
    have hi := h i rfl
    show (l ++ l').modify i _ = l.modify i _ ++ l'
    refine List.ext_getElem? fun j => ?_
    rw [List.getElem?_modify]
    by_cases hj : j < l.length
    · rw [List.getElem?_append_left hj, List.getElem?_append_left (by rwa [List.length_modify]),
        List.getElem?_modify]
    · have hne : i ≠ j := by omega
      have hfun : (fun a : JsmnFill => if i = j then { a with size := a.size + k } else a) = id := by
        funext a
        exact if_neg hne
      rw [hfun, List.getElem?_append_right (by omega),
        List.getElem?_append_right (by rw [List.length_modify]; omega), List.length_modify]
      exact congrFun Option.map_id _

/-- Counting closes no token and opens none. -/
theorem lastOpen_addChildren : lastOpen (addChildren super k toks) n = lastOpen toks n := by
  cases super with
  | none => rfl
  | some i =>
    refine lastOpen_congr fun j _ => ?_
    show ((toks.modify i _)[j]?).any JsmnFill.isOpen = _
    rw [List.getElem?_modify]
    cases toks[j]? with
    | none => rfl
    | some tok => split_ifs <;> rfl

end Open

-- ---------------------------------------------------------------------------
-- The loop over the text
-- ---------------------------------------------------------------------------

section Run

variable {js l : List UInt8} {len num pos stop fuel fuel' : Nat} {c : UInt8} {p p' : JsmnParser}
  {tok : JsmnFill}

theorem jsmnPrimitiveLoop_stop (h : jsmnPrimitiveLoop js len fuel pos = .ok stop) :
    pos ≤ stop ∧ ∃ e, charAt js stop = .ok e ∧ endsPrimitive e = true := by
  induction fuel generalizing pos with
  | zero => cases h
  | succ fuel ih =>
    rw [jsmnPrimitiveLoop] at h
    split_ifs at h
    obtain ⟨c, hc, h⟩ := of_bind_eq_ok h
    split_ifs at h with _ hends
    · obtain rfl := Except.ok.inj h
      exact ⟨Nat.le_refl _, c, hc, hends⟩
    · obtain ⟨hle, hend⟩ := ih h
      exact ⟨Nat.le_of_succ_le hle, hend⟩

theorem le_of_jsmnHexLoop {i : Nat} (h : jsmnHexLoop js i pos = .ok stop) : pos ≤ stop := by
  induction i generalizing pos with
  | zero => exact Nat.le_of_eq (Except.ok.inj h)
  | succ i ih =>
    rw [jsmnHexLoop] at h
    obtain ⟨c, -, h⟩ := of_bind_eq_ok h
    split_ifs at h
    · exact Nat.le_of_eq (Except.ok.inj h)
    · exact Nat.le_of_succ_le (ih h)

theorem le_of_jsmnStringLoop (h : jsmnStringLoop js len fuel pos = .ok stop) : pos ≤ stop := by
  induction fuel generalizing pos with
  | zero => cases h
  | succ fuel ih =>
    rw [jsmnStringLoop] at h
    split_ifs at h
    obtain ⟨c, -, h⟩ := of_bind_eq_ok h
    split_ifs at h
    · exact Nat.le_of_eq (Except.ok.inj h)
    · obtain ⟨e, -, h⟩ := of_bind_eq_ok h
      split_ifs at h
      · exact Nat.le_of_add_right_le (ih h)
      · obtain ⟨next, hnext, h⟩ := of_bind_eq_ok h
        have hle := le_of_jsmnHexLoop hnext
        exact (Nat.le_of_add_right_le hle).trans (ih h)
    · exact Nat.le_of_succ_le (ih h)

theorem of_jsmnAllocToken (h : jsmnAllocToken num p tok = .ok p') :
    p.toks.length < num ∧ p' = { p with toks := p.toks ++ [tok] } := by
  unfold jsmnAllocToken at h
  split_ifs at h with hroom
  exact ⟨Nat.lt_of_not_le hroom, (Except.ok.inj h).symm⟩

theorem jsmnAllocToken_ok (h : p.toks.length < num) :
    jsmnAllocToken num p tok = .ok { p with toks := p.toks ++ [tok] } :=
  if_neg (Nat.not_le.mpr h)

theorem counted_eq (p : JsmnParser) :
    p.counted = { p with toks := addChildren p.toksuper 1 p.toks, count := p.count + 1 } := by
  obtain ⟨pos, toksuper, toks, count⟩ := p
  cases toksuper <;> rfl

theorem not_endsPrimitive_of_starts (c : UInt8) :
    startsPrimitive c = true → endsPrimitive c = false :=
  forall_byte (P := fun c => startsPrimitive c = true → endsPrimitive c = false)
    (by decide +kernel) c

/-- The parser does not go back. -/
theorem pos_le_of_jsmnChar (hc : charAt js p.pos = .ok c)
    (h : jsmnChar js len num p c = .ok p') : p.pos ≤ p'.pos := by
  unfold jsmnChar at h
  split_ifs at h with hopen hbrace hclose hbrace' hquote hblank hprim
  · unfold jsmnOpen at h
    obtain ⟨q, hq, h⟩ := of_bind_eq_ok h
    obtain ⟨-, rfl⟩ := of_jsmnAllocToken hq
    rw [← Except.ok.inj h, counted_eq]
  · unfold jsmnOpen at h
    obtain ⟨q, hq, h⟩ := of_bind_eq_ok h
    obtain ⟨-, rfl⟩ := of_jsmnAllocToken hq
    rw [← Except.ok.inj h, counted_eq]
  · unfold jsmnClose at h
    cases hlast : lastOpen p.toks p.toks.length with
    | none => rw [hlast] at h; cases h
    | some i =>
      rw [hlast] at h
      dsimp only at h
      split_ifs at h
      rw [← Except.ok.inj h]
  · unfold jsmnClose at h
    cases hlast : lastOpen p.toks p.toks.length with
    | none => rw [hlast] at h; cases h
    | some i =>
      rw [hlast] at h
      dsimp only at h
      split_ifs at h
      rw [← Except.ok.inj h]
  · cases hs : jsmnParseString js len num p with
    | error e => rw [hs] at h; cases h
    | ok q =>
      rw [hs] at h
      unfold jsmnParseString at hs
      obtain ⟨stop, hstop, hs⟩ := of_bind_eq_ok hs
      obtain ⟨q', hq', hs⟩ := of_bind_eq_ok hs
      rw [← Except.ok.inj h, counted_eq, ← Except.ok.inj hs]
      exact Nat.le_of_succ_le (le_of_jsmnStringLoop hstop)
  · rw [← Except.ok.inj h]
  · cases hs : jsmnParsePrimitive js len num p with
    | error e => rw [hs] at h; cases h
    | ok q =>
      rw [hs] at h
      unfold jsmnParsePrimitive at hs
      obtain ⟨stop, hstop, hs⟩ := of_bind_eq_ok hs
      obtain ⟨q', hq', hs⟩ := of_bind_eq_ok hs
      rw [← Except.ok.inj h, counted_eq, ← Except.ok.inj hs]
      obtain ⟨hle, e, he, hends⟩ := jsmnPrimitiveLoop_stop hstop
      -- the first character does not end the primitive
      have hne : stop ≠ p.pos := by
        rintro rfl
        obtain rfl := Except.ok.inj (hc.symm.trans he)
        rw [not_endsPrimitive_of_starts c hprim] at hends
        cases hends
      show p.pos ≤ stop - 1
      omega

/-- Any fuel that is enough gives the same. -/
theorem jsmnLoop_fuel (hpos : 0 < fuel) (h : len < fuel + p.pos) (hpos' : 0 < fuel')
    (h' : len < fuel' + p.pos) : jsmnLoop js len num fuel p = jsmnLoop js len num fuel' p := by
  induction fuel generalizing fuel' p with
  | zero => exact absurd hpos (Nat.lt_irrefl 0)
  | succ fuel ih =>
    obtain ⟨fuel', rfl⟩ : ∃ f, fuel' = f + 1 := ⟨fuel' - 1, by omega⟩
    rw [jsmnLoop, jsmnLoop]
    split_ifs with hlt
    · cases hc : charAt js p.pos with
      | error e => rfl
      | ok c =>
        rw [ok_bind, ok_bind]
        split_ifs
        · rfl
        · cases hp : jsmnChar js len num p c with
          | error e => rfl
          | ok p' =>
            have hle := pos_le_of_jsmnChar hc hp
            rw [ok_bind, ok_bind]
            exact ih (by omega) (by dsimp only; omega) (by omega) (by dsimp only; omega)
    · rfl

/-- The loop, with enough fuel. -/
def jsmnRun (js : List UInt8) (len num : Nat) (p : JsmnParser) : Except JsmnErr JsmnParser :=
  jsmnLoop js len num (len + 1) p

theorem jsmnRun_end (h : ¬ p.pos < len) : jsmnRun js len num p = .ok p := by
  rw [jsmnRun, jsmnLoop, if_neg h]

theorem jsmnRun_step (h : Ahead js len p.pos (c :: l)) (hc : c ≠ 0) :
    jsmnRun js len num p = (jsmnChar js len num p c >>= fun p =>
      jsmnRun js len num { p with pos := p.pos + 1 }) := by
  rw [jsmnRun, jsmnLoop, if_pos h.lt, h.charAt, ok_bind, if_neg hc]
  cases hp : jsmnChar js len num p c with
  | error e => rfl
  | ok p' =>
    have hlt := h.lt
    rw [ok_bind, ok_bind, jsmnRun]
    exact jsmnLoop_fuel (by omega) (by dsimp only; omega) (by omega) (by dsimp only; omega)

-- ---------------------------------------------------------------------------
-- One piece at a time
-- ---------------------------------------------------------------------------

/-- The parser behind pieces of `n` bytes: their tokens are added, and the token above counts
the `k` at their top. -/
def JsmnParser.past (p : JsmnParser) (toks : List JsmnTok) (n k : Nat) : JsmnParser where
  pos := p.pos + n
  toksuper := p.toksuper
  toks := addChildren p.toksuper k p.toks ++ toks.map JsmnTok.fill
  count := p.count + toks.length

/-- The parser behind an opening bracket. -/
def JsmnParser.opened (p : JsmnParser) (object : Bool) : JsmnParser where
  pos := p.pos + 1
  toksuper := some p.toks.length
  toks := addChildren p.toksuper 1 p.toks ++ [⟨groupType object, p.pos, -1, 0⟩]
  count := p.count + 1

/-- The token above is the last one that is open. -/
def JsmnParser.Wired (p : JsmnParser) : Prop := p.toksuper = lastOpen p.toks p.toks.length

theorem JsmnParser.Wired.lt (h : p.Wired) : ∀ i ∈ p.toksuper, i < p.toks.length :=
  fun _ hi => lt_of_lastOpen (h.symm.trans hi)

theorem wired_init : jsmnInit.Wired := rfl

theorem isOpen_map_fill {toks : List JsmnTok} : ∀ tok ∈ toks.map JsmnTok.fill, tok.isOpen = false := by
  intro tok htok
  obtain ⟨t, -, rfl⟩ := List.mem_map.mp htok
  exact isOpen_fill t

theorem JsmnParser.Wired.past (h : p.Wired) (toks : List JsmnTok) (n k : Nat) :
    (p.past toks n k).Wired := by
  unfold JsmnParser.Wired JsmnParser.past
  rw [lastOpen_append isOpen_map_fill, lastOpen_addChildren, length_addChildren]
  exact h

theorem JsmnParser.opened_wired (p : JsmnParser) (object : Bool) : (p.opened object).Wired := by
  unfold JsmnParser.Wired JsmnParser.opened
  rw [lastOpen_concat (decide_eq_true ⟨by dsimp only; omega, rfl⟩), length_addChildren]

theorem JsmnParser.past_past (hw : p.Wired) {toks toks' : List JsmnTok} {n n' k k' : Nat} :
    (p.past toks n k).past toks' n' k' = p.past (toks ++ toks') (n + n') (k + k') := by
  have hin : ∀ i ∈ p.toksuper, i < (addChildren p.toksuper k p.toks).length := by
    intro i hi
    rw [length_addChildren]
    exact hw.lt i hi
  unfold JsmnParser.past
  simp only [JsmnParser.mk.injEq, true_and]
  refine ⟨Nat.add_assoc _ _ _, ?_, ?_⟩
  · rw [addChildren_append hin, addChildren_add, List.map_append, List.append_assoc]
  · rw [List.length_append, Nat.add_assoc]

theorem JsmnParser.past_nil : p.past [] 0 0 = p := by
  unfold JsmnParser.past
  rw [addChildren_zero]
  simp

/-- A blank is nothing else. -/
theorem of_isBlank (c : UInt8) : isBlank c = true →
    c ≠ 0 ∧ ¬ (c = '\x7b'.toUInt8 ∨ c = '['.toUInt8) ∧ ¬ (c = '\x7d'.toUInt8 ∨ c = ']'.toUInt8) ∧
      c ≠ '"'.toUInt8 :=
  forall_byte (P := fun c => isBlank c = true → c ≠ 0 ∧
    ¬ (c = '\x7b'.toUInt8 ∨ c = '['.toUInt8) ∧ ¬ (c = '\x7d'.toUInt8 ∨ c = ']'.toUInt8) ∧
      c ≠ '"'.toUInt8) (by decide +kernel) c

/-- Nor is what begins a primitive. -/
theorem of_startsPrimitive (c : UInt8) : startsPrimitive c = true →
    c ≠ 0 ∧ ¬ (c = '\x7b'.toUInt8 ∨ c = '['.toUInt8) ∧ ¬ (c = '\x7d'.toUInt8 ∨ c = ']'.toUInt8) ∧
      c ≠ '"'.toUInt8 ∧ isBlank c = false ∧ withinPrimitive c = true :=
  forall_byte (P := fun c => startsPrimitive c = true → c ≠ 0 ∧
    ¬ (c = '\x7b'.toUInt8 ∨ c = '['.toUInt8) ∧ ¬ (c = '\x7d'.toUInt8 ∨ c = ']'.toUInt8) ∧
      c ≠ '"'.toUInt8 ∧ isBlank c = false ∧ withinPrimitive c = true) (by decide +kernel) c

theorem ne_zero_of_endsPrimitive (c : UInt8) : endsPrimitive c = true → c ≠ 0 :=
  forall_byte (P := fun c => endsPrimitive c = true → c ≠ 0) (by decide +kernel) c

theorem jsmnRun_blank (h : Ahead js len p.pos (c :: l)) (hc : isBlank c = true) :
    jsmnRun js len num p = jsmnRun js len num (p.past [] 1 0) := by
  obtain ⟨hc0, hopen, hclose, hquote⟩ := of_isBlank c hc
  rw [jsmnRun_step h hc0, jsmnChar, if_neg hopen, if_neg hclose, if_neg hquote, if_pos hc, ok_bind]
  congr 1
  unfold JsmnParser.past
  rw [addChildren_zero]
  simp

theorem jsmnRun_string {text : List UInt8} (hw : p.Wired) (htext : StringText text)
    (h : Ahead js len p.pos ((Piece.string text).text ++ l)) (hroom : p.toks.length < num) :
    jsmnRun js len num p =
      jsmnRun js len num (p.past ((Piece.string text).tokens p.pos) (Piece.string text).text.length 1) := by
  have hstart : Ahead js len p.pos ('"'.toUInt8 :: (text ++ '"'.toUInt8 :: l)) := by
    rw [Piece.text, List.cons_append, List.append_assoc] at h
    exact h
  have hloop := jsmnStringLoop_closed htext hstart.tail (by omega : len < len + 1 + (p.pos + 1))
  rw [jsmnRun_step hstart (by decide), jsmnChar, if_neg (by decide), if_neg (by decide), if_pos rfl,
    jsmnParseString, hloop, ok_bind, jsmnAllocToken_ok hroom, ok_bind]
  show jsmnRun js len num _ = _
  congr 1
  rw [counted_eq]
  dsimp only
  rw [addChildren_append hw.lt]
  unfold JsmnParser.past
  simp only [JsmnParser.mk.injEq, true_and]
  refine ⟨?_, ?_, rfl⟩
  · rw [Piece.text, List.length_cons, List.length_append, List.length_singleton]
    omega
  · rfl

theorem jsmnRun_primitive {text : List UInt8} {e : UInt8} (hw : p.Wired) (htext : PrimitiveText text)
    (he : endsPrimitive e = true) (h : Ahead js len p.pos ((Piece.primitive text).text ++ e :: l))
    (hroom : p.toks.length < num) :
    jsmnRun js len num p =
      jsmnRun js len num
        (p.past ((Piece.primitive text).tokens p.pos) (Piece.primitive text).text.length 1) := by
  obtain ⟨c, cs, rfl, hstarts, hwithin⟩ := htext
  obtain ⟨hc0, hopen, hclose, hquote, hblank, hc⟩ := of_startsPrimitive c hstarts
  have hloop := jsmnPrimitiveLoop_ended he (ne_zero_of_endsPrimitive e he)
    (List.forall_mem_cons.mpr ⟨hc, hwithin⟩) h (by omega : len < len + 1 + p.pos)
  have hstart : Ahead js len p.pos (c :: (cs ++ e :: l)) := h
  rw [jsmnRun_step hstart hc0, jsmnChar, if_neg hopen, if_neg hclose, if_neg hquote,
    if_neg (by rw [hblank]; decide), if_pos hstarts, jsmnParsePrimitive, hloop, ok_bind,
    jsmnAllocToken_ok hroom, ok_bind]
  show jsmnRun js len num _ = _
  congr 1
  rw [counted_eq]
  dsimp only
  rw [addChildren_append hw.lt]
  unfold JsmnParser.past
  simp only [JsmnParser.mk.injEq, true_and]
  refine ⟨?_, ?_, rfl⟩
  · rw [Piece.text, List.length_cons]
    omega
  · rfl

theorem jsmnRun_open {object : Bool} (hw : p.Wired) (h : Ahead js len p.pos (opening object :: l))
    (hroom : p.toks.length < num) :
    jsmnRun js len num p = jsmnRun js len num (p.opened object) := by
  have hopen : opening object ≠ 0 ∧ (opening object = '\x7b'.toUInt8 ∨ opening object = '['.toUInt8) ∧
      (if opening object = '\x7b'.toUInt8 then JsmnType.object else .array) = groupType object := by
    cases object <;> decide
  obtain ⟨hc0, hbracket, htype⟩ := hopen
  rw [jsmnRun_step h hc0, jsmnChar, if_pos hbracket, htype, jsmnOpen, jsmnAllocToken_ok hroom,
    ok_bind, ok_bind, counted_eq]
  dsimp only
  rw [addChildren_append hw.lt]
  rfl

/-- A closing bracket closes the last token that is open, and the one above is again what it was
before. -/
theorem jsmnRun_close {object : Bool} {base : List JsmnFill} {start : Nat} {size : Nat}
    {inner : List JsmnTok} (h : Ahead js len p.pos (closing object :: l))
    (htoks : p.toks = base ++ ⟨groupType object, start, -1, size⟩ :: inner.map JsmnTok.fill) :
    jsmnRun js len num p = jsmnRun js len num
      { p with
        pos := p.pos + 1
        toksuper := lastOpen base base.length
        toks := base ++
          (⟨groupType object, start, p.pos + 1, size⟩ :: inner : List JsmnTok).map JsmnTok.fill } := by
  have hclose : closing object ≠ 0 ∧
      ¬ (closing object = '\x7b'.toUInt8 ∨ closing object = '['.toUInt8) ∧
      (closing object = '\x7d'.toUInt8 ∨ closing object = ']'.toUInt8) ∧
      (if closing object = '\x7d'.toUInt8 then JsmnType.object else .array) = groupType object := by
    cases object <;> decide
  obtain ⟨hc0, hnot, hbracket, htype⟩ := hclose
  have hsplit : p.toks = (base ++ [⟨groupType object, start, -1, size⟩]) ++ inner.map JsmnTok.fill := by
    rw [htoks, List.append_assoc, List.singleton_append]
  have hlast : lastOpen p.toks p.toks.length = some base.length := by
    rw [hsplit, lastOpen_append isOpen_map_fill]
    refine lastOpen_concat (decide_eq_true ⟨?_, rfl⟩)
    dsimp only
    omega
  have hget : p.toks[base.length]? = some ⟨groupType object, start, -1, size⟩ := by
    rw [htoks, List.getElem?_append_right (Nat.le_refl _), Nat.sub_self]
    rfl
  have hmodify : p.toks.modify base.length (fun tok => { tok with stop := (p.pos : Int) + 1 }) =
      base ++ (⟨groupType object, start, p.pos + 1, size⟩ :: inner : List JsmnTok).map
        JsmnTok.fill := by
    rw [htoks, List.modify_eq_take_drop, List.take_left, List.drop_left]
    rfl
  have hsuper : lastOpen (base ++ (⟨groupType object, start, p.pos + 1, size⟩ :: inner :
      List JsmnTok).map JsmnTok.fill) (base.length + 1) = lastOpen base base.length := by
    rw [lastOpen, List.getElem?_append_right (Nat.le_refl _), Nat.sub_self]
    have hnone : (((⟨groupType object, start, p.pos + 1, size⟩ :: inner : List JsmnTok).map
        JsmnTok.fill)[0]?).any JsmnFill.isOpen = false := isOpen_fill _
    rw [hnone, if_neg Bool.false_ne_true]
    exact lastOpen_congr fun i hi => by rw [List.getElem?_append_left hi]
  rw [jsmnRun_step h hc0, jsmnChar, if_neg hnot, if_pos hbracket, htype, jsmnClose, hlast]
  dsimp only
  rw [hget, if_neg (fun hne => hne rfl), hmodify, hsuper, ok_bind]

/-- The tokens while the bracket is still open. -/
theorem JsmnParser.toks_opened (p : JsmnParser) (object : Bool) (toks : List JsmnTok) (n k : Nat) :
    ((p.opened object).past toks n k).toks = addChildren p.toksuper 1 p.toks ++
      ⟨groupType object, (p.pos : Int), -1, k⟩ :: toks.map JsmnTok.fill := by
  have hlen : (addChildren p.toksuper 1 p.toks).length = p.toks.length := length_addChildren
  show (_ ++ [_]).modify p.toks.length _ ++ _ = _
  rw [← hlen, List.modify_eq_take_drop, List.take_left, List.drop_left, List.modifyHead_cons,
    Nat.zero_add, List.append_assoc, List.singleton_append]

/-- When it is closed, the group is one more piece. -/
theorem jsmnRun_closed {object : Bool} {pieces : List Piece} (hw : p.Wired)
    (h : Ahead js len (p.pos + 1 + (textOf pieces).length) (closing object :: l)) :
    jsmnRun js len num ((p.opened object).past (tokensOf (p.pos + 1) pieces)
        (textOf pieces).length (topsOf pieces)) =
      jsmnRun js len num (p.past ((Piece.group object pieces).tokens p.pos)
        (Piece.group object pieces).text.length 1) := by
  rw [jsmnRun_close h (p.toks_opened object _ _ _)]
  congr 1
  rw [lastOpen_addChildren, length_addChildren]
  unfold JsmnParser.past JsmnParser.opened
  simp only [JsmnParser.mk.injEq]
  refine ⟨?_, hw.symm, ?_, ?_⟩
  · rw [Piece.text, List.length_cons, List.length_append, List.length_singleton]
    omega
  · rw [Piece.tokens]
  · rw [Piece.tokens, List.length_cons]
    omega

mutual

/-- Over a piece the parser makes its tokens. -/
theorem jsmnRun_piece {js : List UInt8} {len num : Nat} : ∀ (piece : Piece) {p : JsmnParser}
    {l : List UInt8}, p.Wired → piece.Ok l.head? → Ahead js len p.pos (piece.text ++ l) →
    p.toks.length + (piece.tokens p.pos).length ≤ num →
    jsmnRun js len num p =
      jsmnRun js len num (p.past (piece.tokens p.pos) piece.text.length piece.tops)
  | .blank c, p, l, _, hok, h, _ => jsmnRun_blank h hok
  | .primitive text, p, l, hw, hok, h, hroom => by
    obtain ⟨htext, hnext⟩ := hok
    cases l with
    | nil => cases hnext
    | cons e l => exact jsmnRun_primitive hw htext hnext h hroom
  | .string text, p, l, hw, hok, h, hroom => jsmnRun_string hw hok h hroom
  | .group object pieces, p, l, hw, hok, h, hroom => by
    have hstart : Ahead js len p.pos (opening object :: (textOf pieces ++ closing object :: l)) := by
      rw [Piece.text, List.cons_append, List.append_assoc] at h
      exact h
    rw [Piece.tokens, List.length_cons] at hroom
    have hinner : Ahead js len (p.opened object).pos (textOf pieces ++ closing object :: l) :=
      hstart.tail
    have hroom' : (p.opened object).toks.length + (tokensOf (p.opened object).pos pieces).length ≤
        num := by
      unfold JsmnParser.opened
      dsimp only
      rw [List.length_append, length_addChildren, List.length_singleton]
      omega
    have hinside := jsmnRun_pieces pieces (p.opened_wired object) (l := closing object :: l) hok
      hinner hroom'
    rw [jsmnRun_open hw hstart (by omega), hinside]
    exact jsmnRun_closed hw hinner.append

/-- And over pieces theirs. -/
theorem jsmnRun_pieces {js : List UInt8} {len num : Nat} : ∀ (pieces : List Piece)
    {p : JsmnParser} {l : List UInt8}, p.Wired → PiecesOk l.head? pieces →
    Ahead js len p.pos (textOf pieces ++ l) → p.toks.length + (tokensOf p.pos pieces).length ≤ num →
    jsmnRun js len num p =
      jsmnRun js len num (p.past (tokensOf p.pos pieces) (textOf pieces).length (topsOf pieces))
  | [], p, l, _, _, _, _ => congrArg (jsmnRun js len num) JsmnParser.past_nil.symm
  | piece :: pieces, p, l, hw, hok, h, hroom => by
    obtain ⟨hpiece, hpieces⟩ := hok
    rw [textOf, List.append_assoc] at h
    rw [tokensOf, List.length_append] at hroom
    rw [← List.head?_append] at hpiece
    have hroom' : (p.past (piece.tokens p.pos) piece.text.length piece.tops).toks.length +
        (tokensOf (p.pos + piece.text.length) pieces).length ≤ num := by
      unfold JsmnParser.past
      dsimp only
      rw [List.length_append, length_addChildren, List.length_map]
      omega
    rw [jsmnRun_piece piece hw hpiece h (by omega),
      jsmnRun_pieces pieces (hw.past _ _ _) hpieces h.append hroom', JsmnParser.past_past hw]
    rw [textOf, List.length_append]
    rfl

end

end Run

end Pettycoin
