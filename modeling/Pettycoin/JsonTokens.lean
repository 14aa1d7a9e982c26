import Mathlib.Data.List.TakeWhile
import Pettycoin.Hex
import Pettycoin.Lib.Except
import Pettycoin.Lib.Preorder

/-!
# Pettycoin — the tokens of a JSON text

The daemon reads the commands and answers of the JSON interface through the tokens that jsmn
makes of the text: an array of them, in preorder, in which each token counts its children. Here
are the functions of `json.c` that find a token in it. On the tokens of a tree they find what
the tree has there, and read no token behind the tree (`tokens_navigated`).

* `jsonNext_of_lies` — `json_next` skips a tree;
* `jsonGetMember_of_lies`, `jsonGetArr_of_lies` — the members of an object and of an array;
* `jsonDelve_of_treeAt` — a path of them;
* `tokens_navigated` — all of it, with no token read behind the tree.
-/

namespace Pettycoin

open ExceptRules Preorder

-- ---------------------------------------------------------------------------
-- Tokens
-- ---------------------------------------------------------------------------

/-- Where a call of `json.c` stops. -/
inductive JsonFault
  /-- A token or a byte outside of its array is read. -/
  | bounds
  /-- An assertion fails. -/
  | assertion
  /-- `abort()`. -/
  | aborted
  /-- The loop has not come to its end: it never does. -/
  | diverges
deriving DecidableEq, Repr

/-- `jsmntype_t`; `last` is the −1 that `json_parse_input` gives the token behind the others. -/
inductive JsmnType
  | primitive
  | object
  | array
  | string
  | last
deriving DecidableEq, Repr

/-- `jsmntok_t`. -/
structure JsmnTok where
  type : JsmnType
  start : Nat
  stop : Nat
  size : Nat
deriving DecidableEq, Repr

/-- The token that `&toks[tok]` points to. -/
def tokAt (toks : List JsmnTok) (tok : Nat) : Except JsonFault JsmnTok :=
  match toks[tok]? with
  | none => .error .bounds
  | some t => .ok t

/-- `strncmp() == 0`; `s2` is what stands before its nul. -/
def strncmpSame : List UInt8 → List UInt8 → Nat → Except JsonFault Bool
  | _, _, 0 => .ok true
  | c1 :: s1, c2 :: s2, n + 1 =>
    if c1 ≠ c2 then .ok false else if c1 = 0 then .ok true else strncmpSame s1 s2 n
  | c1 :: _, [], _ => .ok (c1 = 0)
  | [], _, _ => .error .bounds

/-- `json_tok_streq()`. -/
def jsonTokStreq (buffer : List UInt8) (tok : JsmnTok) (str : List UInt8) :
    Except JsonFault Bool :=
  if tok.type ≠ .string then .ok false
  else if (tok.stop : Int) - tok.start ≠ str.length then .ok false
  else strncmpSame (buffer.drop tok.start) str (tok.stop - tok.start)

/-- The count of children, as the walk reads it. -/
def childCount (toks : List JsmnTok) (tok : Nat) : Except JsonFault Nat :=
  (tokAt toks tok).map JsmnTok.size

/-- `json_next()`: it calls itself once for each child. Every call is about a later token, so
that as many levels as there are tokens are enough. -/
def jsonNext (toks : List JsmnTok) (tok : Nat) : Except JsonFault Nat :=
  next (childCount toks) .diverges (toks.length + 1) tok

/-- The loop of `json_get_member()`. -/
def jsonGetMemberLoop (buffer : List UInt8) (toks : List JsmnTok) (label : List UInt8) (stop : Nat) :
    Nat → Nat → Except JsonFault (Option Nat)
  | 0, _ => .error .diverges
  | fuel + 1, t =>
    if t < stop then do
      let tok ← tokAt toks t
      let same ← jsonTokStreq buffer tok label
      if same then .ok (some (t + 1))
      else do
        let t ← jsonNext toks (t + 1)
        jsonGetMemberLoop buffer toks label stop fuel t
    else .ok none

/-- `json_get_member()`. -/
def jsonGetMember (buffer : List UInt8) (toks : List JsmnTok) (tok : Nat) (label : List UInt8) :
    Except JsonFault (Option Nat) := do
  let t ← tokAt toks tok
  if t.type ≠ .object then .error .assertion
  else do
    let stop ← jsonNext toks tok
    jsonGetMemberLoop buffer toks label stop (toks.length + 1) (tok + 1)

/-- The loop of `json_get_arr()`. -/
def jsonGetArrLoop (toks : List JsmnTok) (stop : Nat) :
    Nat → Nat → Nat → Except JsonFault (Option Nat)
  | 0, _, _ => .error .diverges
  | fuel + 1, t, index =>
    if t < stop then
      if index = 0 then .ok (some t)
      else do
        let t ← jsonNext toks t
        jsonGetArrLoop toks stop fuel t (index - 1)
    else .ok none

/-- `json_get_arr()`. -/
def jsonGetArr (toks : List JsmnTok) (tok index : Nat) : Except JsonFault (Option Nat) := do
  let t ← tokAt toks tok
  if t.type ≠ .array then .error .assertion
  else do
    let stop ← jsonNext toks tok
    jsonGetArrLoop toks stop (toks.length + 1) (tok + 1) index

-- ---------------------------------------------------------------------------
-- Guides
-- ---------------------------------------------------------------------------

/-- `isspace()`. -/
def isspace (c : UInt8) : Bool := c = ' '.toUInt8 ∨ (9 ≤ c ∧ c ≤ 13)

/-- `isdigit()`. -/
def isdigit (c : UInt8) : Bool := '0'.toUInt8 ≤ c ∧ c ≤ '9'.toUInt8

/-- The number that the digits at the start of a string make. -/
def leadingNumber (s : List UInt8) : Nat :=
  (s.takeWhile isdigit).foldl (fun n c => 10 * n + (c.toNat - '0'.toNat)) 0

/-- `atol()`: blanks, a sign and digits, kept within a `long`. -/
def atol (s : List UInt8) : Int :=
  match s.dropWhile isspace with
  | c :: digits =>
    if c = '-'.toUInt8 then max (-(leadingNumber digits : Int)) (-2 ^ 63)
    else if c = '+'.toUInt8 then min (leadingNumber digits) (2 ^ 63 - 1)
    else min (leadingNumber (c :: digits)) (2 ^ 63 - 1)
  | [] => 0

/-- One of the characters `.`, `[` and `]`. -/
def delimiter (c : UInt8) : Bool := c = '.'.toUInt8 ∨ c = '['.toUInt8 ∨ c = ']'.toUInt8

/-- `strcspn(s, ".[]")`. -/
def strcspn (s : List UInt8) : Nat := (s.takeWhile (fun c => !delimiter c)).length

/-- `json_delve()`. -/
def jsonDelve (buffer : List UInt8) (toks : List JsmnTok) (tok : Nat) :
    List UInt8 → Except JsonFault (Option Nat)
  | [] => .ok (some tok)
  | c :: guide =>
    let len := strcspn guide
    let key := guide.take len
    if c = '.'.toUInt8 then do
      let t ← tokAt toks tok
      if t.type ≠ .object then .ok none
      else do
        let member ← jsonGetMember buffer toks tok key
        match member with
        | none => .ok none
        | some tok => jsonDelve buffer toks tok (guide.drop len)
    else if c = '['.toUInt8 then do
      let t ← tokAt toks tok
      if t.type ≠ .array then .ok none
      else do
        -- the `long` becomes a `size_t`
        let elem ← jsonGetArr toks tok (atol key % 2 ^ 64).toNat
        match elem with
        | none => .ok none
        | some tok =>
          -- must be terminated
          if guide[key.length]? ≠ some ']'.toUInt8 then .error .assertion
          else jsonDelve buffer toks tok (guide.drop (len + 1))
    else .error .aborted
termination_by guide => guide.length
decreasing_by
  all_goals
    rw [List.length_drop, List.length_cons]
    omega

-- ---------------------------------------------------------------------------
-- Trees
-- ---------------------------------------------------------------------------

mutual

/-- A JSON value, with the places in the text where it begins and ends. -/
inductive Json
  | primitive (start stop : Nat)
  | string (start stop : Nat)
  | array (start stop : Nat) (elems : Elems)
  | object (start stop : Nat) (members : Members)

/-- The elements of an array. -/
inductive Elems
  | nil
  | cons (elem : Json) (elems : Elems)

/-- The members of an object; a key is a string, given by its places. -/
inductive Members
  | nil
  | cons (start stop : Nat) (value : Json) (members : Members)

end

/-- How many elements there are. -/
def Elems.length : Elems → Nat
  | .nil => 0
  | .cons _ elems => elems.length + 1

/-- How many members there are. -/
def Members.length : Members → Nat
  | .nil => 0
  | .cons _ _ _ members => members.length + 1

mutual

/-- The tokens of a value in preorder: an array counts its elements, an object its keys and
values, and nothing else has children. -/
def Json.tokens : Json → List JsmnTok
  | .primitive start stop => [⟨.primitive, start, stop, 0⟩]
  | .string start stop => [⟨.string, start, stop, 0⟩]
  | .array start stop elems => ⟨.array, start, stop, elems.length⟩ :: elems.tokens
  | .object start stop members => ⟨.object, start, stop, 2 * members.length⟩ :: members.tokens

/-- The tokens of the elements, one element after the other. -/
def Elems.tokens : Elems → List JsmnTok
  | .nil => []
  | .cons elem elems => elem.tokens ++ elems.tokens

/-- The tokens of the members, each key before its value. -/
def Members.tokens : Members → List JsmnTok
  | .nil => []
  | .cons start stop value members =>
    ⟨.string, start, stop, 0⟩ :: (value.tokens ++ members.tokens)

end

/-- The element with an index, and the number of its token; the first element's is `base`. -/
def Elems.get? : Elems → Nat → Nat → Option (Nat × Json)
  | .nil, _, _ => none
  | .cons elem _, base, 0 => some (base, elem)
  | .cons elem elems, base, index + 1 => elems.get? (base + elem.tokens.length) index

/-- What stands in the text between two places. -/
def textBetween (buffer : List UInt8) (start stop : Nat) : List UInt8 :=
  (buffer.drop start).take (stop - start)

/-- The value of the first member with a key, and the number of its token; the first key's is
`base`. -/
def Members.get? (buffer label : List UInt8) : Members → Nat → Option (Nat × Json)
  | .nil, _ => none
  | .cons start stop value members, base =>
    if textBetween buffer start stop = label then some (base + 1, value)
    else members.get? buffer label (base + 1 + value.tokens.length)

/-- A member name that can stand in a guide. -/
structure GuideName where
  chars : List UInt8
  plain : ∀ c ∈ chars, c ≠ 0 ∧ delimiter c = false

/-- A step of a path. -/
inductive GuideStep
  | member (name : GuideName)
  | index (i : Nat)

/-- A number in decimal. -/
def decimal (i : Nat) : List UInt8 := (Nat.toDigits 10 i).map Char.toUInt8

/-- How a step is written. -/
def GuideStep.text : GuideStep → List UInt8
  | .member name => '.'.toUInt8 :: name.chars
  | .index i => '['.toUInt8 :: (decimal i ++ [']'.toUInt8])

/-- The guide for a path. -/
def guideOf (path : List GuideStep) : List UInt8 := path.flatMap GuideStep.text

/-- One step from a value, and the number of the token that it leads to. -/
def Json.step (buffer : List UInt8) : Json → Nat → GuideStep → Option (Nat × Json)
  | .object _ _ members, tok, .member name => members.get? buffer name.chars (tok + 1)
  | .array _ _ elems, tok, .index i => elems.get? (tok + 1) i
  | _, _, _ => none

/-- A path from a value, and the number of the token that it leads to. -/
def Json.delve (buffer : List UInt8) (tree : Json) (tok : Nat) : List GuideStep → Option (Nat × Json)
  | [] => some (tok, tree)
  | step :: path =>
    (tree.step buffer tok step).bind fun found => found.2.delve buffer found.1 path

/-- From the token `tok` on lie the tokens of `tree`, for the text `buffer`. The places are in
the text, and every count is an `int`. -/
structure TreeAt (buffer : List UInt8) (toks : List JsmnTok) (tok : Nat) (tree : Json) : Prop where
  lies : tree.tokens <+: toks.drop tok
  places : ∀ t ∈ tree.tokens, t.start ≤ t.stop ∧ t.stop ≤ buffer.length
  counts : ∀ t ∈ tree.tokens, t.size < 2 ^ 31

-- ---------------------------------------------------------------------------
-- The walk over a tree
-- ---------------------------------------------------------------------------

section Walk

variable {buffer : List UInt8} {toks l l' : List JsmnTok} {t : JsmnTok} {tok base : Nat}

theorem tokAt_of_lies (h : t :: l <+: toks.drop tok) : tokAt toks tok = .ok t := by
  obtain ⟨rest, hrest⟩ := h
  have hget : (toks.drop tok)[0]? = some t := by rw [← hrest]; rfl
  rw [List.getElem?_drop, Nat.add_zero] at hget
  rw [tokAt, hget]

/-- Behind the first token lie the others. -/
theorem lies_tail (h : t :: l <+: toks.drop tok) : l <+: toks.drop (tok + 1) := by
  obtain ⟨rest, hrest⟩ := h
  refine ⟨rest, ?_⟩
  rw [← List.drop_drop, ← hrest]
  rfl

theorem lies_left (h : l ++ l' <+: toks.drop tok) : l <+: toks.drop tok :=
  (List.prefix_append l l').trans h

theorem lies_right (h : l ++ l' <+: toks.drop tok) : l' <+: toks.drop (tok + l.length) := by
  obtain ⟨rest, hrest⟩ := h
  refine ⟨rest, ?_⟩
  rw [← List.drop_drop, ← hrest, List.append_assoc, List.drop_left]

theorem length_le_of_lies (h : l <+: toks.drop tok) : l.length ≤ toks.length := by
  have hle := h.length_le
  rw [List.length_drop] at hle
  omega

theorem childCount_of_lies (h : t :: l <+: toks.drop tok) : childCount toks tok = .ok t.size := by
  rw [childCount, tokAt_of_lies h]
  rfl

/-- A token that counts no children is a tree. -/
theorem skips_leaf (h : t :: l <+: toks.drop tok) (hsize : t.size = 0) :
    Skips (childCount toks) 1 tok (tok + 1) := by
  have hcount := childCount_of_lies h
  rw [hsize] at hcount
  exact .one hcount (.none _)

mutual

/-- The tokens of a value are one tree. -/
theorem Json.skips {toks : List JsmnTok} {tok : Nat} :
    ∀ tree : Json, tree.tokens <+: toks.drop tok →
      Skips (childCount toks) 1 tok (tok + tree.tokens.length)
  | .primitive _ _, h => skips_leaf h rfl
  | .string _ _, h => skips_leaf h rfl
  | .array start stop elems, h => by
    have hskips := elems.skips (lies_tail h)
    rw [Nat.add_assoc, Nat.add_comm 1] at hskips
    exact .one (childCount_of_lies h) hskips
  | .object start stop members, h => by
    have hskips := members.skips (lies_tail h)
    rw [Nat.add_assoc, Nat.add_comm 1] at hskips
    exact .one (childCount_of_lies h) hskips

/-- Those of the elements are a tree for each element. -/
theorem Elems.skips {toks : List JsmnTok} {base : Nat} :
    ∀ elems : Elems, elems.tokens <+: toks.drop base →
      Skips (childCount toks) elems.length base (base + elems.tokens.length)
  | .nil, _ => .none _
  | .cons elem elems, h => by
    have hskips := (elem.skips (lies_left h)).add (elems.skips (lies_right h))
    rw [Nat.add_comm 1, Nat.add_assoc, ← List.length_append] at hskips
    exact hskips

/-- Those of the members two trees for each member. -/
theorem Members.skips {toks : List JsmnTok} {base : Nat} :
    ∀ members : Members, members.tokens <+: toks.drop base →
      Skips (childCount toks) (2 * members.length) base (base + members.tokens.length)
  | .nil, _ => .none _
  | .cons start stop value members, h => by
    have hkey := skips_leaf h rfl
    have hrest := lies_tail h
    have hskips := (hkey.add (value.skips (lies_left hrest))).add (members.skips (lies_right hrest))
    have hnum : 2 * (Members.cons start stop value members).length =
        1 + 1 + 2 * members.length := by
      rw [Members.length]
      omega
    have hlen : (Members.cons start stop value members).tokens.length =
        1 + value.tokens.length + members.tokens.length := by
      rw [Members.tokens, List.length_cons, List.length_append]
      omega
    rw [hnum, hlen, ← Nat.add_assoc, ← Nat.add_assoc]
    exact hskips

end

/-- `json_next` ends just behind the tree. -/
theorem jsonNext_of_lies {tree : Json} (h : tree.tokens <+: toks.drop tok) :
    jsonNext toks tok = .ok (tok + tree.tokens.length) := by
  have hle := length_le_of_lies h
  exact next_eq_of_skips (tree.skips h) (by omega)

/-- Every value has a token. -/
theorem Json.tokens_pos (tree : Json) : 0 < tree.tokens.length := by
  cases tree <;> exact Nat.succ_pos _

-- ---------------------------------------------------------------------------
-- Elements and members
-- ---------------------------------------------------------------------------

/-- The loop over the elements comes to the one with the index, or to the end. -/
theorem jsonGetArrLoop_of_lies {toks : List JsmnTok} :
    ∀ (elems : Elems) {base index fuel : Nat}, elems.tokens <+: toks.drop base →
      elems.length < fuel →
      jsonGetArrLoop toks (base + elems.tokens.length) fuel base index =
        .ok ((elems.get? base index).map Prod.fst)
  | .nil, base, index, fuel + 1, _, _ => by
    rw [jsonGetArrLoop, if_neg (by rw [Elems.tokens, List.length_nil]; omega)]
    rfl
  | .cons elem elems, base, index, fuel + 1, h, hfuel => by
    have hpos := elem.tokens_pos
    have hlen : (Elems.cons elem elems).tokens.length =
        elem.tokens.length + elems.tokens.length := by
      rw [Elems.tokens, List.length_append]
    rw [jsonGetArrLoop, if_pos (by omega)]
    cases index with
    | zero =>
      rw [if_pos rfl]
      rfl
    | succ index =>
      rw [if_neg (Nat.succ_ne_zero index), jsonNext_of_lies (lies_left h), ok_bind, hlen,
        ← Nat.add_assoc]
      exact jsonGetArrLoop_of_lies elems (lies_right h) (Nat.lt_of_succ_lt_succ hfuel)

/-- `json_get_arr` finds the element with the index. -/
theorem jsonGetArr_of_lies {start stop index : Nat} {elems : Elems}
    (h : (Json.array start stop elems).tokens <+: toks.drop tok) :
    jsonGetArr toks tok index = .ok ((elems.get? (tok + 1) index).map Prod.fst) := by
  have hskips := (elems.skips (lies_tail h)).le
  have hle := length_le_of_lies (lies_tail h)
  have hstop : tok + (Json.array start stop elems).tokens.length =
      tok + 1 + elems.tokens.length := by
    rw [Json.tokens, List.length_cons]
    omega
  rw [jsonGetArr, tokAt_of_lies h, ok_bind, if_neg (fun hne => hne rfl), jsonNext_of_lies h, ok_bind,
    hstop]
  exact jsonGetArrLoop_of_lies elems (lies_tail h) (by omega)

/-- `strncmp` compares as much as there is of the label. -/
theorem strncmpSame_eq {s label : List UInt8} (hnul : 0 ∉ label)
    (hlen : label.length ≤ s.length) :
    strncmpSame s label label.length = .ok (decide (s.take label.length = label)) := by
  induction label generalizing s with
  | nil =>
    rw [List.length_nil, List.take_zero, decide_eq_true rfl]
    cases s <;> rfl
  | cons c label ih =>
    cases s with
    | nil => exact absurd hlen (Nat.not_succ_le_zero _)
    | cons b s =>
      rw [List.length_cons, List.length_cons] at hlen
      obtain ⟨hc0, hlabel⟩ := not_or.mp (mt List.mem_cons.mpr hnul)
      rw [List.length_cons, strncmpSame, List.take_succ_cons]
      by_cases hc : b = c
      · subst hc
        rw [if_neg (not_not_intro rfl), if_neg (fun h0 => hc0 h0.symm),
          ih hlabel (Nat.le_of_succ_le_succ hlen)]
        simp
      · rw [if_pos hc, decide_eq_false (fun heq => hc (List.cons.inj heq).1)]

/-- `json_tok_streq` compares the text of a string token. -/
theorem jsonTokStreq_eq {start stop size : Nat} {label : List UInt8} (hnul : 0 ∉ label)
    (hle : start ≤ stop) (hstop : stop ≤ buffer.length) :
    jsonTokStreq buffer ⟨.string, start, stop, size⟩ label =
      .ok (decide (textBetween buffer start stop = label)) := by
  have htext : (textBetween buffer start stop).length = stop - start := by
    rw [textBetween, List.length_take, List.length_drop]
    omega
  rw [jsonTokStreq, if_neg (not_not_intro rfl)]
  by_cases hlen : stop - start = label.length
  · rw [if_neg (by dsimp only; omega)]
    dsimp only
    rw [textBetween, hlen, strncmpSame_eq hnul (by rw [List.length_drop]; omega)]
  · rw [if_pos (by dsimp only; omega),
      decide_eq_false (fun heq => hlen (by rw [← htext, heq]))]

/-- The loop over the members comes to the first one with the key, or to the end. -/
theorem jsonGetMemberLoop_of_lies {buffer label : List UInt8} {toks : List JsmnTok}
    (hnul : 0 ∉ label) :
    ∀ (members : Members) {base fuel : Nat}, members.tokens <+: toks.drop base →
      (∀ t ∈ members.tokens, t.start ≤ t.stop ∧ t.stop ≤ buffer.length) → members.length < fuel →
      jsonGetMemberLoop buffer toks label (base + members.tokens.length) fuel base =
        .ok ((members.get? buffer label base).map Prod.fst)
  | .nil, base, fuel + 1, _, _, _ => by
    rw [jsonGetMemberLoop, if_neg (by rw [Members.tokens, List.length_nil]; omega)]
    rfl
  | .cons start stop value members, base, fuel + 1, h, hplaces, hfuel => by
    have hlen : (Members.cons start stop value members).tokens.length =
        1 + value.tokens.length + members.tokens.length := by
      rw [Members.tokens, List.length_cons, List.length_append]
      omega
    have hrest := lies_tail h
    obtain ⟨hle, hstop⟩ := hplaces _ List.mem_cons_self
    rw [jsonGetMemberLoop, if_pos (by omega), tokAt_of_lies h, ok_bind, jsonTokStreq_eq hnul hle hstop,
      ok_bind, Members.get?]
    by_cases hkey : textBetween buffer start stop = label
    · rw [if_pos (decide_eq_true hkey), if_pos hkey]
      rfl
    · -- the walk from the value ends at the next key
      rw [if_neg (fun hd => hkey (of_decide_eq_true hd)), if_neg hkey,
        jsonNext_of_lies (lies_left hrest), ok_bind, hlen, ← Nat.add_assoc, ← Nat.add_assoc]
      exact jsonGetMemberLoop_of_lies hnul members (lies_right hrest)
        (fun t ht => hplaces t (List.mem_cons_of_mem _ (List.mem_append_right _ ht)))
        (Nat.lt_of_succ_lt_succ hfuel)

/-- `json_get_member` finds the first member with the key. -/
theorem jsonGetMember_of_lies {label : List UInt8} {start stop : Nat} {members : Members}
    (hnul : 0 ∉ label) (h : TreeAt buffer toks tok (.object start stop members)) :
    jsonGetMember buffer toks tok label =
      .ok ((members.get? buffer label (tok + 1)).map Prod.fst) := by
  have hskips := (members.skips (lies_tail h.lies)).le
  have hle := length_le_of_lies (lies_tail h.lies)
  have hstop : tok + (Json.object start stop members).tokens.length =
      tok + 1 + members.tokens.length := by
    rw [Json.tokens, List.length_cons]
    omega
  rw [jsonGetMember, tokAt_of_lies h.lies, ok_bind, if_neg (fun hne => hne rfl),
    jsonNext_of_lies h.lies, ok_bind, hstop]
  exact jsonGetMemberLoop_of_lies hnul members (lies_tail h.lies)
    (fun t ht => h.places t (List.mem_cons_of_mem _ ht)) (by omega)

-- ---------------------------------------------------------------------------
-- Paths
-- ---------------------------------------------------------------------------

/-- An element's tokens are among those of the elements. -/
theorem Elems.get?_lies {toks : List JsmnTok} {sub : Json} {found : Nat} :
    ∀ (elems : Elems) {base index : Nat}, elems.get? base index = some (found, sub) →
      elems.tokens <+: toks.drop base → sub.tokens <+: toks.drop found ∧ sub.tokens ⊆ elems.tokens
  | .cons elem elems, base, 0, hget, h => by
    obtain ⟨rfl, rfl⟩ := Prod.mk.inj (Option.some.inj hget)
    exact ⟨lies_left h, List.subset_append_left _ _⟩
  | .cons elem elems, base, index + 1, hget, h => by
    obtain ⟨hlies, hsub⟩ := elems.get?_lies hget (lies_right h)
    exact ⟨hlies, List.Subset.trans hsub (List.subset_append_right _ _)⟩

/-- Nor are those of a member's value any others. -/
theorem Members.get?_lies {buffer label : List UInt8} {toks : List JsmnTok} {sub : Json}
    {found : Nat} :
    ∀ (members : Members) {base : Nat}, members.get? buffer label base = some (found, sub) →
      members.tokens <+: toks.drop base →
      sub.tokens <+: toks.drop found ∧ sub.tokens ⊆ members.tokens
  | .cons start stop value members, base, hget, h => by
    have hrest := lies_tail h
    rw [Members.get?] at hget
    split at hget
    · obtain ⟨rfl, rfl⟩ := Prod.mk.inj (Option.some.inj hget)
      exact ⟨lies_left hrest,
        List.Subset.trans (List.subset_append_left _ _) (List.subset_cons_self _ _)⟩
    · obtain ⟨hlies, hsub⟩ := members.get?_lies hget (lies_right hrest)
      exact ⟨hlies, List.Subset.trans hsub
        (List.Subset.trans (List.subset_append_right _ _) (List.subset_cons_self _ _))⟩

/-- What a step leads to lies where the step says. -/
theorem TreeAt.step {tree sub : Json} {step : GuideStep} {found : Nat}
    (h : TreeAt buffer toks tok tree) (hstep : tree.step buffer tok step = some (found, sub)) :
    TreeAt buffer toks found sub := by
  have hsub : sub.tokens <+: toks.drop found ∧ sub.tokens ⊆ tree.tokens := by
    cases tree with
    | primitive start stop => cases step <;> cases hstep
    | string start stop => cases step <;> cases hstep
    | array start stop elems =>
      cases step with
      | member name => cases hstep
      | index i =>
        obtain ⟨hlies, hmem⟩ := elems.get?_lies hstep (lies_tail h.lies)
        exact ⟨hlies, List.Subset.trans hmem (List.subset_cons_self _ _)⟩
    | object start stop members =>
      cases step with
      | member name =>
        obtain ⟨hlies, hmem⟩ := members.get?_lies hstep (lies_tail h.lies)
        exact ⟨hlies, List.Subset.trans hmem (List.subset_cons_self _ _)⟩
      | index i => cases hstep
  exact ⟨hsub.1, fun t ht => h.places t (hsub.2 ht), fun t ht => h.counts t (hsub.2 ht)⟩

/-- Past the last element there is none. -/
theorem Elems.get?_eq_none : ∀ (elems : Elems) {base index : Nat}, elems.length ≤ index →
    elems.get? base index = none
  | .nil, _, _, _ => rfl
  | .cons _ elems, _, _ + 1, h => elems.get?_eq_none (Nat.le_of_succ_le_succ h)

theorem isspace_of_isdigit (c : UInt8) : isdigit c = true → isspace c = false :=
  forall_byte (P := fun c => isdigit c = true → isspace c = false) (by decide +kernel) c

theorem delimiter_of_isdigit (c : UInt8) : isdigit c = true → delimiter c = false :=
  forall_byte (P := fun c => isdigit c = true → delimiter c = false) (by decide +kernel) c

theorem isdigit_sign {c : UInt8} (h : isdigit c = true) : c ≠ '-'.toUInt8 ∧ c ≠ '+'.toUInt8 := by
  constructor
  · rintro rfl
    exact absurd h (by decide)
  · rintro rfl
    exact absurd h (by decide)

/-- A digit as a byte. -/
theorem toNat_toUInt8_of_isDigit {c : Char} (h : c.isDigit = true) :
    c.toUInt8.toNat = c.toNat := by
  have hle := (Char.isDigit_iff_toNat.mp h).2
  have hlt : c.toNat < 2 ^ 8 := Nat.lt_of_le_of_lt hle (by decide)
  exact Nat.mod_eq_of_lt hlt

theorem isdigit_of_mem_decimal {i : Nat} {c : UInt8} (h : c ∈ decimal i) : isdigit c = true := by
  obtain ⟨d, hd, rfl⟩ := List.mem_map.mp h
  have hdigit := Nat.isDigit_of_mem_toDigits (by decide) (by decide) hd
  obtain ⟨hge, hle⟩ := Char.isDigit_iff_toNat.mp hdigit
  have hnat := toNat_toUInt8_of_isDigit hdigit
  refine decide_eq_true ⟨UInt8.le_iff_toNat_le.mpr ?_, UInt8.le_iff_toNat_le.mpr ?_⟩
  · rw [hnat]
    exact hge
  · rw [hnat]
    exact hle

/-- A decimal number is read back. -/
theorem leadingNumber_decimal (i : Nat) : leadingNumber (decimal i) = i := by
  have htake : (decimal i).takeWhile isdigit = decimal i :=
    List.takeWhile_eq_self_iff.mpr fun c hc => isdigit_of_mem_decimal hc
  rw [leadingNumber, htake, decimal, List.foldl_map]
  calc (Nat.toDigits 10 i).foldl (fun n c => 10 * n + (c.toUInt8.toNat - '0'.toNat)) 0
      = (Nat.toDigits 10 i).foldl (fun n c => 10 * n + (c.toNat - '0'.toNat)) 0 := by
        refine List.foldl_ext _ _ _ fun n c hc => ?_
        rw [toNat_toUInt8_of_isDigit (Nat.isDigit_of_mem_toDigits (by decide) (by decide) hc)]
    _ = Nat.ofDigitChars 10 (Nat.toDigits 10 i) 0 := Nat.ofDigitChars_eq_foldl.symm
    _ = i := Nat.ofDigitChars_ten_toDigits

/-- `atol` reads it, as far as a `long` goes. -/
theorem atol_decimal (i : Nat) : atol (decimal i) = min (i : Int) (2 ^ 63 - 1) := by
  have hnumber := leadingNumber_decimal i
  cases hd : decimal i with
  | nil =>
    have hempty : Nat.toDigits 10 i = [] := List.map_eq_nil_iff.mp hd
    exact absurd hempty Nat.toDigits_ne_nil
  | cons c digits =>
    have hdigit : isdigit c = true := isdigit_of_mem_decimal (by rw [hd]; exact List.mem_cons_self)
    obtain ⟨hminus, hplus⟩ := isdigit_sign hdigit
    rw [hd] at hnumber
    rw [atol, List.dropWhile_cons_of_neg (by rw [isspace_of_isdigit c hdigit]; decide)]
    dsimp only
    rw [if_neg hminus, if_neg hplus, hnumber]

/-- As a `size_t` it leads to the same element. -/
theorem Elems.get?_atol {elems : Elems} {i : Nat} (h : elems.length < 2 ^ 31) :
    elems.get? base (atol (decimal i) % 2 ^ 64).toNat = elems.get? base i := by
  rw [atol_decimal]
  by_cases hi : i < 2 ^ 63
  · have hsame : (min (i : Int) (2 ^ 63 - 1) % 2 ^ 64).toNat = i := by omega
    rw [hsame]
  · rw [elems.get?_eq_none (by omega), elems.get?_eq_none (by omega)]

/-- A guide is empty or begins with a delimiter. -/
theorem strcspn_append {key : List UInt8} {path : List GuideStep}
    (hkey : ∀ c ∈ key, delimiter c = false) : strcspn (key ++ guideOf path) = key.length := by
  have hrest : (guideOf path).takeWhile (fun c => !delimiter c) = [] := by
    cases path with
    | nil => rfl
    | cons step path => cases step <;> rfl
  rw [strcspn, List.takeWhile_append_of_pos (fun c hc => by rw [hkey c hc]; rfl), hrest,
    List.append_nil]

/-- `json_delve` at a member name. -/
theorem jsonDelve_member (name : GuideName) (path : List GuideStep) :
    jsonDelve buffer toks tok ((GuideStep.member name).text ++ guideOf path) =
      (tokAt toks tok >>= fun t =>
        if t.type ≠ .object then .ok none
        else jsonGetMember buffer toks tok name.chars >>= fun member =>
          match member with
          | none => .ok none
          | some tok => jsonDelve buffer toks tok (guideOf path)) := by
  have hlen : strcspn (name.chars ++ guideOf path) = name.chars.length :=
    strcspn_append fun c hc => (name.plain c hc).2
  rw [GuideStep.text, List.cons_append, jsonDelve, if_pos rfl]
  rw [hlen, List.take_left, List.drop_left]

/-- `json_delve` at an index. -/
theorem jsonDelve_index (i : Nat) (path : List GuideStep) :
    jsonDelve buffer toks tok ((GuideStep.index i).text ++ guideOf path) =
      (tokAt toks tok >>= fun t =>
        if t.type ≠ .array then .ok none
        else jsonGetArr toks tok (atol (decimal i) % 2 ^ 64).toNat >>= fun elem =>
          match elem with
          | none => .ok none
          | some tok => jsonDelve buffer toks tok (guideOf path)) := by
  have hlen : strcspn (decimal i ++ (']'.toUInt8 :: guideOf path)) = (decimal i).length := by
    rw [strcspn, List.takeWhile_append_of_pos fun c hc => by
      rw [delimiter_of_isdigit c (isdigit_of_mem_decimal hc)]
      rfl, List.takeWhile_cons_of_neg (by decide), List.append_nil]
  have hdrop : (decimal i ++ (']'.toUInt8 :: guideOf path)).drop ((decimal i).length + 1) =
      guideOf path := by
    rw [← List.drop_drop, List.drop_left]
    rfl
  have hbracket : (decimal i ++ (']'.toUInt8 :: guideOf path))[(decimal i).length]? =
      some ']'.toUInt8 := by
    rw [List.getElem?_append_right (Nat.le_refl _), Nat.sub_self]
    rfl
  rw [GuideStep.text, List.cons_append, List.append_assoc, List.singleton_append, jsonDelve,
    if_neg (by decide), if_pos rfl]
  rw [hlen, List.take_left, hdrop, hbracket]
  simp only [ne_eq, not_true_eq_false, if_false]

/-- `json_delve` follows the path. -/
theorem jsonDelve_of_treeAt (path : List GuideStep) {tree : Json}
    (h : TreeAt buffer toks tok tree) :
    jsonDelve buffer toks tok (guideOf path) =
      .ok ((tree.delve buffer tok path).map Prod.fst) := by
  induction path generalizing tree tok with
  | nil =>
    rw [guideOf, List.flatMap_nil, jsonDelve]
    rfl
  | cons step path ih =>
    rw [guideOf, List.flatMap_cons, ← guideOf, Json.delve]
    cases step with
    | member name =>
      have hnul : 0 ∉ name.chars := fun h0 => (name.plain 0 h0).1 rfl
      rw [jsonDelve_member]
      cases tree with
      | primitive start stop => rw [tokAt_of_lies h.lies]; rfl
      | string start stop => rw [tokAt_of_lies h.lies]; rfl
      | array start stop elems => rw [tokAt_of_lies h.lies]; rfl
      | object start stop members =>
        rw [tokAt_of_lies h.lies, ok_bind, if_neg (fun hne => hne rfl),
          jsonGetMember_of_lies hnul h, ok_bind, Json.step]
        cases hget : members.get? buffer name.chars (tok + 1) with
        | none => rfl
        | some found =>
          have hstep : (Json.object start stop members).step buffer tok (.member name) =
              some found := hget
          exact ih (h.step hstep)
    | index i =>
      rw [jsonDelve_index]
      cases tree with
      | primitive start stop => rw [tokAt_of_lies h.lies]; rfl
      | string start stop => rw [tokAt_of_lies h.lies]; rfl
      | object start stop members => rw [tokAt_of_lies h.lies]; rfl
      | array start stop elems =>
        have hsize : elems.length < 2 ^ 31 := h.counts _ List.mem_cons_self
        rw [tokAt_of_lies h.lies, ok_bind, if_neg (fun hne => hne rfl), jsonGetArr_of_lies h.lies,
          ok_bind, Json.step, Elems.get?_atol hsize]
        cases hget : elems.get? (tok + 1) i with
        | none => rfl
        | some found =>
          have hstep : (Json.array start stop elems).step buffer tok (.index i) = some found := hget
          exact ih (h.step hstep)

end Walk

-- ---------------------------------------------------------------------------
-- Token navigation
-- ---------------------------------------------------------------------------

/-- **The functions find their way in a tree.** For a tree at `tok`, whatever lies before and
behind it, and also if nothing lies behind it, so that no token there can be read:
`json_next` gives the token just behind the tree; `json_get_arr` the element with the index, or
`NULL` if there is none; `json_get_member` the value of the first member with the label; and
`json_delve` what the path leads to. None of them stops or fails to return. -/
theorem tokens_navigated {buffer : List UInt8} {toks : List JsmnTok} {tok : Nat} {tree : Json}
    (h : TreeAt buffer toks tok tree) :
    jsonNext toks tok = .ok (tok + tree.tokens.length) ∧
      (∀ start stop elems, tree = .array start stop elems → ∀ index,
        jsonGetArr toks tok index = .ok ((elems.get? (tok + 1) index).map Prod.fst)) ∧
      (∀ start stop members, tree = .object start stop members → ∀ label, 0 ∉ label →
        jsonGetMember buffer toks tok label =
          .ok ((members.get? buffer label (tok + 1)).map Prod.fst)) ∧
      ∀ path, jsonDelve buffer toks tok (guideOf path) =
        .ok ((tree.delve buffer tok path).map Prod.fst) := by
  refine ⟨jsonNext_of_lies h.lies, ?_, ?_, fun path => jsonDelve_of_treeAt path h⟩
  · rintro start stop elems rfl index
    exact jsonGetArr_of_lies h.lies
  · rintro start stop members rfl label hnul
    exact jsonGetMember_of_lies hnul h

/-- The text `{"a":[1,2]}`. -/
def smallText : List UInt8 := [123, 34, 97, 34, 58, 91, 49, 44, 50, 93, 125]

/-- What it says. -/
def smallTree : Json :=
  .object 0 11 (.cons 2 3 (.array 5 10 (.cons (.primitive 6 7) (.cons (.primitive 8 9) .nil))) .nil)

theorem plain_smallName : ∀ c ∈ ['a'.toUInt8], c ≠ 0 ∧ delimiter c = false := by
  intro c hc
  obtain rfl := List.mem_singleton.mp hc
  exact ⟨by decide, rfl⟩

/-- The name of its member. -/
def smallName : GuideName := ⟨['a'.toUInt8], plain_smallName⟩

/-- In it `.a[1]` is the last token, the one before the end. -/
theorem tokens_navigated_small :
    TreeAt smallText smallTree.tokens 0 smallTree ∧
      jsonNext smallTree.tokens 0 = .ok 5 ∧
      jsonGetMember smallText smallTree.tokens 0 ['a'.toUInt8] = .ok (some 2) ∧
      jsonDelve smallText smallTree.tokens 0
        (guideOf [.member smallName, .index 1]) = .ok (some 4) := by
  have h : TreeAt smallText smallTree.tokens 0 smallTree := ⟨by decide, by decide, by decide⟩
  obtain ⟨hnext, -, hmember, hdelve⟩ := tokens_navigated h
  exact ⟨h, hnext, hmember 0 11 _ rfl smallName.chars (by decide), hdelve _⟩

end Pettycoin
