import Pettycoin.JsonText

/-!
# Pettycoin — requests of the JSON interface

`parse_request` looks up the members of a request, calls the command and writes the answer;
`json_get_params` gives a command its parameters. Whatever bytes have come in, they read no token
and no byte that is not there (`parseRequest_returns`).

* `jsonGetMember_returns`, `jsonGetParams_returns` — the lookups;
* `parseRequest_returns` — the whole of a request;
* `parseRequest_pieces` — the answer, from the members alone.
-/

namespace Pettycoin

open ExceptRules Preorder

-- ---------------------------------------------------------------------------
-- Commands
-- ---------------------------------------------------------------------------

/-- A string constant of the source. -/
def cstr (s : String) : List UInt8 := s.toList.map Char.toUInt8

/-- The entries of `cmdlist`. -/
inductive JsonCommand
  | help
  | getinfo
  | sendrawtransaction
  | stop
  | listtransactions
  | echo
  | listtodo
deriving DecidableEq, Repr

/-- `cmdlist`, in its order. -/
def cmdlist : List JsonCommand :=
  [.help, .getinfo, .sendrawtransaction, .stop, .listtransactions, .echo, .listtodo]

/-- The name by which it is called. -/
def JsonCommand.name : JsonCommand → List UInt8
  | .help => cstr "help"
  | .getinfo => cstr "getinfo"
  | .sendrawtransaction => cstr "sendrawtransaction"
  | .stop => cstr "stop"
  | .listtransactions => cstr "listtransactions"
  | .echo => cstr "dev-echo"
  | .listtodo => cstr "dev-listtodo"

/-- `find_cmd()`. -/
def findCmd (buffer : List UInt8) (tok : JsmnTok) :
    List JsonCommand → Except JsonFault (Option JsonCommand)
  | [] => .ok none
  | cmd :: cmds => do
    let same ← jsonTokStreq buffer tok cmd.name
    if same then .ok (some cmd) else findCmd buffer tok cmds

/-- A byte of the buffer. -/
def bufferAt (buffer : List UInt8) (pos : Nat) : Except JsonFault UInt8 :=
  match buffer[pos]? with
  | none => .error .bounds
  | some c => .ok c

/-- A `null` becomes `NULL`. -/
def nullToNone (buffer : List UInt8) (toks : List JsmnTok) :
    Option Nat → Except JsonFault (Option Nat)
  | none => .ok none
  | some tok => do
    let t ← tokAt toks tok
    if t.type = .primitive then do
      let c ← bufferAt buffer t.start
      if c = 'n'.toUInt8 then .ok none else .ok (some tok)
    else .ok (some tok)

/-- The element of an array behind another one; the array ends at `stop`. -/
def nextParam (toks : List JsmnTok) (stop : Nat) : Option Nat → Except JsonFault (Option Nat)
  | none => .ok none
  | some p => do
    let p ← jsonNext toks p
    .ok (if p = stop then none else some p)

/-- The loop of `json_get_params()` over an array. -/
def jsonGetParamsArr (buffer : List UInt8) (toks : List JsmnTok) (stop : Nat) :
    List (List UInt8) → Option Nat → Except JsonFault (List (Option Nat))
  | [], _ => .ok []
  | _ :: names, p => do
    let next ← nextParam toks stop p
    let tok ← nullToNone buffer toks p
    let rest ← jsonGetParamsArr buffer toks stop names next
    .ok (tok :: rest)

/-- The loop over an object. -/
def jsonGetParamsObj (buffer : List UInt8) (toks : List JsmnTok) (param : Nat) :
    List (List UInt8) → Except JsonFault (List (Option Nat))
  | [] => .ok []
  | name :: names => do
    let tok ← jsonGetMember buffer toks param name
    let tok ← nullToNone buffer toks tok
    let rest ← jsonGetParamsObj buffer toks param names
    .ok (tok :: rest)

/-- `json_get_params()`: the parameters by position or by name. -/
def jsonGetParams (buffer : List UInt8) (toks : List JsmnTok) (param : Nat)
    (names : List (List UInt8)) : Except JsonFault (List (Option Nat)) := do
  let t ← tokAt toks param
  if t.type = .array then do
    let stop ← jsonNext toks param
    jsonGetParamsArr buffer toks stop names (if t.size = 0 then none else some (param + 1))
  else if t.type ≠ .object then .error .assertion
  else jsonGetParamsObj buffer toks param names

-- ---------------------------------------------------------------------------
-- Requests
-- ---------------------------------------------------------------------------

/-- `%.*s`. -/
def fmtPrecision (n : Nat) (s : List UInt8) : List UInt8 := (s.take n).takeWhile (· ≠ 0)

/-- What `json_tok_contents()` points to: with the quote before it, if it is a string. -/
def jsonTokContents (buffer : List UInt8) (t : JsmnTok) : List UInt8 :=
  if t.type = .string then buffer.drop (t.start - 1) else buffer.drop t.start

/-- `json_tok_len()`. -/
def jsonTokLen (t : JsmnTok) : Nat :=
  if t.type = .string then t.stop - t.start + 2 else t.stop - t.start

/-- A token as it is written into an answer. -/
def tokText (buffer : List UInt8) (t : JsmnTok) : List UInt8 :=
  fmtPrecision (jsonTokLen t) (jsonTokContents buffer t)

/-- An answer without a result. -/
def errorAnswer (error id : List UInt8) : List UInt8 :=
  cstr "\x7b \"result\" : null, \"error\" : \"" ++ error ++ cstr "\", \"id\" : " ++ id ++
    cstr " \x7d\n"

/-- An answer with one. -/
def resultAnswer (result id : List UInt8) : List UInt8 :=
  cstr "\x7b \"result\" : " ++ result ++ cstr ", \"error\" : null, \"id\" : " ++ id ++
    cstr " \x7d\n"

/-- Double quotes become single ones. -/
def unquoted (error : List UInt8) : List UInt8 :=
  error.map fun c => if c = '"'.toUInt8 then 39 else c

/-- What a command gives: an error, or the response. -/
abbrev Dispatched := Except (List UInt8) (List UInt8)

/-- The answer to a request for which a command was called. -/
def answered (id : List UInt8) (cmd : JsonCommand) :
    Dispatched → Option (List UInt8 × Option JsonCommand)
  | .error error => some (errorAnswer (unquoted error) id, some cmd)
  | .ok result => some (resultAnswer result id, some cmd)

/-- `parse_request()`: the answer, and the command that was called for it; `none` if the request
is a fatal error. -/
def parseRequest (buffer : List UInt8) (toks : List JsmnTok)
    (dispatch : JsonCommand → Nat → Except JsonFault Dispatched) :
    Except JsonFault (Option (List UInt8 × Option JsonCommand)) := do
  let tok ← tokAt toks 0
  if tok.type ≠ .object then .ok none
  else do
    let method ← jsonGetMember buffer toks 0 (cstr "method")
    let params ← jsonGetMember buffer toks 0 (cstr "params")
    let id ← jsonGetMember buffer toks 0 (cstr "id")
    match id, method, params with
    | some id, some method, some params => do
      let id ← tokAt toks id
      if id.type ≠ .string ∧ id.type ≠ .primitive then .ok none
      else do
        let method ← tokAt toks method
        if method.type ≠ .string then .ok none
        else do
          let cmd ← findCmd buffer method cmdlist
          match cmd with
          | none =>
            .ok (some (errorAnswer (cstr "Unknown command '" ++
              fmtPrecision (method.stop - method.start) (buffer.drop method.start) ++ cstr "'")
              (tokText buffer id), none))
          | some cmd => do
            let paramsTok ← tokAt toks params
            if paramsTok.type ≠ .array ∧ paramsTok.type ≠ .object then .ok none
            else do
              let result ← dispatch cmd params
              .ok (answered (tokText buffer id) cmd result)
    | _, _, _ => .ok none

-- ---------------------------------------------------------------------------
-- Tokens that can be read
-- ---------------------------------------------------------------------------

section Readable

variable {buffer label : List UInt8} {toks l : List JsmnTok} {tok : Nat} {t : JsmnTok}

mutual

/-- The tokens of a piece are a tree, or none if it is a blank. -/
theorem Piece.skips {toks : List JsmnTok} {off tok : Nat} : ∀ piece : Piece,
    piece.tokens off <+: toks.drop tok →
      Skips (childCount toks) piece.tops tok (tok + (piece.tokens off).length)
  | .blank _, _ => .none _
  | .primitive _, h => skips_leaf h rfl
  | .string _, h => skips_leaf h rfl
  | .group object pieces, h => by
    have hskips := @skips_tokensOf toks (off + 1) (tok + 1) pieces (lies_tail h)
    rw [Nat.add_assoc, Nat.add_comm 1] at hskips
    exact .one (childCount_of_lies h) hskips

/-- Those of pieces a tree for each that is no blank. -/
theorem skips_tokensOf {toks : List JsmnTok} {off tok : Nat} : ∀ pieces : List Piece,
    tokensOf off pieces <+: toks.drop tok →
      Skips (childCount toks) (topsOf pieces) tok (tok + (tokensOf off pieces).length)
  | [], _ => .none _
  | piece :: pieces, h => by
    have hskips := (piece.skips (lies_left h)).add (skips_tokensOf pieces (lies_right h))
    rw [Nat.add_assoc, ← List.length_append] at hskips
    exact hskips

end

mutual

/-- A token lies within its piece. -/
theorem Piece.token_within {off : Nat} {next : Option UInt8} : ∀ piece : Piece, piece.Ok next →
    ∀ t ∈ piece.tokens off, t.type ≠ .last ∧ off ≤ t.start ∧ t.start ≤ t.stop ∧
      t.stop ≤ off + piece.text.length ∧ (t.type = .primitive → t.start < t.stop) ∧
      (t.type = .string → 1 ≤ t.start ∧ t.stop < off + piece.text.length)
  | .blank _, _, t, ht => absurd ht List.not_mem_nil
  | .primitive text, hok, t, ht => by
    obtain rfl := List.mem_singleton.mp ht
    obtain ⟨c, cs, rfl, -⟩ := hok.1
    refine ⟨(by rintro ⟨⟩), Nat.le_refl _, Nat.le_add_right _ _, Nat.le_refl _, fun _ => ?_,
      (by rintro ⟨⟩)⟩
    rw [List.length_cons]
    dsimp only
    omega
  | .string text, _, t, ht => by
    obtain rfl := List.mem_singleton.mp ht
    have hlen : (Piece.string text).text.length = text.length + 2 := by
      rw [Piece.text, List.length_cons, List.length_append, List.length_singleton]
    refine ⟨(by rintro ⟨⟩), Nat.le_add_right _ _, Nat.le_add_right _ _, ?_, (by rintro ⟨⟩),
      fun _ => ⟨?_, ?_⟩⟩
    · dsimp only
      omega
    · dsimp only
      omega
    · dsimp only
      omega
  | .group object pieces, hok, t, ht => by
    have hlen : (Piece.group object pieces).text.length = (textOf pieces).length + 2 := by
      rw [Piece.text, List.length_cons, List.length_append, List.length_singleton]
    rcases List.mem_cons.mp ht with rfl | hin
    · refine ⟨?_, Nat.le_refl _, ?_, ?_, ?_, ?_⟩
      · cases object <;> rintro ⟨⟩
      · dsimp only
        omega
      · dsimp only
        omega
      · intro _
        dsimp only
        omega
      · intro htype
        cases object <;> cases htype
    · obtain ⟨hlast, hge, hle, hstop, hprim, hstr⟩ :=
        @tokensOf_within (off + 1) _ pieces hok t hin
      refine ⟨hlast, by omega, hle, by omega, hprim, fun htype => ?_⟩
      have hstr' := hstr htype
      omega

theorem tokensOf_within {off : Nat} {next : Option UInt8} : ∀ pieces : List Piece,
    PiecesOk next pieces → ∀ t ∈ tokensOf off pieces, t.type ≠ .last ∧ off ≤ t.start ∧
      t.start ≤ t.stop ∧ t.stop ≤ off + (textOf pieces).length ∧
      (t.type = .primitive → t.start < t.stop) ∧
      (t.type = .string → 1 ≤ t.start ∧ t.stop < off + (textOf pieces).length)
  | [], _, t, ht => absurd ht List.not_mem_nil
  | piece :: pieces, hok, t, ht => by
    rw [textOf, List.length_append]
    rcases List.mem_append.mp ht with hin | hin
    · obtain ⟨hlast, hge, hle, hstop, hprim, hstr⟩ := piece.token_within hok.1 t hin
      refine ⟨hlast, hge, hle, by omega, hprim, fun htype => ?_⟩
      have hstr' := hstr htype
      omega
    · obtain ⟨hlast, hge, hle, hstop, hprim, hstr⟩ := tokensOf_within pieces hok.2 t hin
      refine ⟨hlast, by omega, hle, by omega, hprim, fun htype => ?_⟩
      have hstr' := hstr htype
      omega

end

/-- At every token a tree begins, which has the last token only if it is that itself; and the
places of the tokens are in the buffer. -/
structure Readable (buffer : List UInt8) (toks : List JsmnTok) : Prop where
  tree : ∀ k t, toks[k]? = some t → ∃ m, Skips (childCount toks) 1 k m ∧ m ≤ toks.length ∧
    (t.type ≠ .last → m < toks.length)
  places : ∀ t ∈ toks, t.start ≤ t.stop ∧ t.stop ≤ buffer.length ∧
    (t.type = .primitive → t.start < t.stop)

/-- That is so of the tokens that the input gives, with the one behind them. -/
theorem readable_of_jsonParseInput {input : List UInt8} {len : Nat} {valid : Bool}
    (hlen : len ≤ input.length) (h : jsonParseInput input len = .ok (valid, some toks)) :
    Readable input toks := by
  obtain ⟨pieces, hok, htext, rfl⟩ := pieces_of_jsonParseInput hlen h
  have hin : (textOf pieces).length ≤ input.length := by
    rw [htext]
    exact ((List.takeWhile_prefix _).trans (List.take_prefix _ _)).length_le
  have hskips : Skips (childCount (tokensOf 0 pieces ++ [endToken])) (topsOf pieces) 0
      (tokensOf 0 pieces).length := by
    have hpieces := @skips_tokensOf (tokensOf 0 pieces ++ [endToken]) 0 0 pieces
      (List.prefix_append _ _)
    rwa [Nat.zero_add] at hpieces
  have hlength : (tokensOf 0 pieces ++ [endToken]).length = (tokensOf 0 pieces).length + 1 :=
    List.length_append
  have hend : Skips (childCount (tokensOf 0 pieces ++ [endToken])) 1 (tokensOf 0 pieces).length
      ((tokensOf 0 pieces).length + 1) :=
    skips_leaf (t := endToken) (l := []) (by rw [List.drop_left]) rfl
  refine ⟨fun k t hk => ?_, fun t ht => ?_⟩
  · have hklt : k < (tokensOf 0 pieces).length + 1 := by
      rw [← hlength]
      exact (List.getElem?_eq_some_iff.mp hk).1
    by_cases hlast : k = (tokensOf 0 pieces).length
    · subst hlast
      rw [List.getElem?_append_right (Nat.le_refl _), Nat.sub_self] at hk
      obtain rfl := Option.some.inj hk
      exact ⟨_, hend, by omega, fun hne => absurd rfl hne⟩
    · obtain ⟨m, hm, htree⟩ := hskips.sub (Nat.zero_le k) (by omega)
      exact ⟨m, htree, by omega, fun _ => by omega⟩
  · rcases List.mem_append.mp ht with hmem | hmem
    · obtain ⟨-, -, hle, hstop, hprim, -⟩ := @tokensOf_within 0 _ pieces hok t hmem
      exact ⟨hle, by omega, hprim⟩
    · obtain rfl := List.mem_singleton.mp hmem
      exact ⟨Nat.le_refl _, Nat.zero_le _, (by rintro ⟨⟩)⟩

theorem tokAt_of_getElem? (h : toks[tok]? = some t) : tokAt toks tok = .ok t := by
  rw [tokAt, h]

theorem exists_token (h : tok < toks.length) : ∃ t, toks[tok]? = some t :=
  ⟨_, List.getElem?_eq_getElem h⟩

/-- The walk over a tree ends behind it. -/
theorem jsonNext_of_skips {k m : Nat} (h : Skips (childCount toks) 1 k m) (hm : m ≤ toks.length) :
    jsonNext toks k = .ok m :=
  next_eq_of_skips h (by omega)

/-- Comparing a token with a constant stays in the buffer. -/
theorem jsonTokStreq_returns (hplace : t.start ≤ t.stop ∧ t.stop ≤ buffer.length)
    (hnul : 0 ∉ label) : ∃ same, jsonTokStreq buffer t label = .ok same := by
  obtain ⟨type, start, stop, size⟩ := t
  by_cases htype : type = .string
  · subst htype
    exact ⟨_, jsonTokStreq_eq hnul hplace.1 hplace.2⟩
  · rw [jsonTokStreq, if_pos htype]
    exact ⟨false, rfl⟩

theorem jsonGetMemberLoop_returns (hr : Readable buffer toks) (hnul : 0 ∉ label) {stop fuel k : Nat}
    (hstop : stop < toks.length) (hpos : 0 < fuel) (hfuel : toks.length < fuel + k) :
    ∃ r, jsonGetMemberLoop buffer toks label stop fuel k = .ok r ∧ ∀ i ∈ r, i < toks.length := by
  induction fuel generalizing k with
  | zero => exact absurd hpos (Nat.lt_irrefl 0)
  | succ fuel ih =>
    rw [jsonGetMemberLoop]
    split_ifs with hlt
    · obtain ⟨t, ht⟩ := exists_token (by omega : k < toks.length)
      obtain ⟨hle, hin, -⟩ := hr.places t (List.mem_of_getElem? ht)
      obtain ⟨same, hsame⟩ := jsonTokStreq_returns (t := t) ⟨hle, hin⟩ hnul
      rw [tokAt_of_getElem? ht, ok_bind, hsame, ok_bind]
      cases same with
      | true =>
        refine ⟨some (k + 1), rfl, fun i hi => ?_⟩
        obtain rfl := Option.some.inj hi
        omega
      | false =>
        obtain ⟨t', ht'⟩ := exists_token (by omega : k + 1 < toks.length)
        obtain ⟨m, hm, hle, -⟩ := hr.tree (k + 1) t' ht'
        have hgt := hm.le
        rw [if_neg Bool.false_ne_true, jsonNext_of_skips hm hle, ok_bind]
        exact ih (by omega) (by omega)
    · exact ⟨none, rfl, (by rintro _ ⟨⟩)⟩

/-- `json_get_member` returns, and what it returns can be read: behind the last key of an object
there is a token in any case. -/
theorem jsonGetMember_returns (hr : Readable buffer toks) (hnul : 0 ∉ label)
    (ht : toks[tok]? = some t) (htype : t.type = .object) :
    ∃ r, jsonGetMember buffer toks tok label = .ok r ∧ ∀ i ∈ r, i < toks.length := by
  obtain ⟨m, hm, hle, hlt⟩ := hr.tree tok t ht
  rw [jsonGetMember, tokAt_of_getElem? ht, ok_bind, if_neg (fun hne => hne htype),
    jsonNext_of_skips hm hle, ok_bind]
  exact jsonGetMemberLoop_returns hr hnul (hlt (by rw [htype]; rintro ⟨⟩)) (Nat.succ_pos _)
    (by omega)

theorem nullToNone_returns (hr : Readable buffer toks) {p : Option Nat}
    (hp : ∀ i ∈ p, i < toks.length) :
    ∃ r, nullToNone buffer toks p = .ok r ∧ ∀ i ∈ r, i < toks.length := by
  cases p with
  | none => exact ⟨none, rfl, (by rintro _ ⟨⟩)⟩
  | some k =>
    obtain ⟨t, ht⟩ := exists_token (hp k rfl)
    obtain ⟨-, hin, hprim⟩ := hr.places t (List.mem_of_getElem? ht)
    rw [nullToNone, tokAt_of_getElem? ht, ok_bind]
    split_ifs with htype
    · have hlt := hprim htype
      obtain ⟨c, hc⟩ : ∃ c, buffer[t.start]? = some c := ⟨_, List.getElem?_eq_getElem (by omega)⟩
      have hread : bufferAt buffer t.start = .ok c := by rw [bufferAt, hc]
      rw [hread, ok_bind]
      split_ifs
      · exact ⟨none, rfl, (by rintro _ ⟨⟩)⟩
      · exact ⟨some k, rfl, hp⟩
    · exact ⟨some k, rfl, hp⟩

/-- Over an array the walk stays in it. -/
theorem jsonGetParamsArr_returns (hr : Readable buffer toks) {stop : Nat}
    (harr : Skips (childCount toks) 1 tok stop) (hstop : stop < toks.length) :
    ∀ (names : List (List UInt8)) (p : Option Nat), (∀ i ∈ p, tok < i ∧ i < stop) →
      ∃ r, jsonGetParamsArr buffer toks stop names p = .ok r ∧ r.length = names.length ∧
        ∀ q ∈ r, ∀ i ∈ q, i < toks.length
  | [], _, _ => ⟨[], rfl, rfl, (by rintro _ ⟨⟩)⟩
  | name :: names, p, hp => by
    obtain ⟨q, hq, hqlt⟩ := nullToNone_returns hr (p := p) fun i hi => (hp i hi).2.trans hstop
    -- the next element, if there is one
    obtain ⟨next, hnext, hnextin⟩ : ∃ next, nextParam toks stop p = .ok next ∧
        ∀ i ∈ next, tok < i ∧ i < stop := by
      cases p with
      | none => exact ⟨none, rfl, (by rintro _ ⟨⟩)⟩
      | some k =>
        obtain ⟨hgt, hlt⟩ := hp k rfl
        obtain ⟨m, hm, htree⟩ := harr.sub (Nat.le_of_lt hgt) hlt
        have hle := htree.le
        rw [nextParam, jsonNext_of_skips htree (by omega), ok_bind]
        refine ⟨_, rfl, fun i hi => ?_⟩
        split_ifs at hi with hend
        · cases hi
        · obtain rfl := Option.some.inj hi
          omega
    obtain ⟨r, hrest, hlen, hin⟩ := jsonGetParamsArr_returns hr harr hstop names next hnextin
    rw [jsonGetParamsArr, hnext, ok_bind, hq, ok_bind, hrest, ok_bind]
    exact ⟨q :: r, rfl, congrArg (· + 1) hlen, List.forall_mem_cons.mpr ⟨hqlt, hin⟩⟩

theorem jsonGetParamsObj_returns (hr : Readable buffer toks) (ht : toks[tok]? = some t)
    (htype : t.type = .object) : ∀ names : List (List UInt8), (∀ name ∈ names, 0 ∉ name) →
      ∃ r, jsonGetParamsObj buffer toks tok names = .ok r ∧ r.length = names.length ∧
        ∀ q ∈ r, ∀ i ∈ q, i < toks.length
  | [], _ => ⟨[], rfl, rfl, (by rintro _ ⟨⟩)⟩
  | name :: names, hnul => by
    obtain ⟨p, hp, hplt⟩ := jsonGetMember_returns hr (hnul name List.mem_cons_self) ht htype
    obtain ⟨q, hq, hqlt⟩ := nullToNone_returns hr hplt
    obtain ⟨r, hrest, hlen, hin⟩ := jsonGetParamsObj_returns hr ht htype names
      fun name hname => hnul name (List.mem_cons_of_mem _ hname)
    rw [jsonGetParamsObj, hp, ok_bind, hq, ok_bind, hrest, ok_bind]
    exact ⟨q :: r, rfl, congrArg (· + 1) hlen, List.forall_mem_cons.mpr ⟨hqlt, hin⟩⟩

/-- `json_get_params` returns a token that can be read for each name, or `NULL`. -/
theorem jsonGetParams_returns (hr : Readable buffer toks) (ht : toks[tok]? = some t)
    (htype : t.type = .array ∨ t.type = .object) {names : List (List UInt8)}
    (hnul : ∀ name ∈ names, 0 ∉ name) :
    ∃ r, jsonGetParams buffer toks tok names = .ok r ∧ r.length = names.length ∧
      ∀ q ∈ r, ∀ i ∈ q, i < toks.length := by
  rw [jsonGetParams, tokAt_of_getElem? ht, ok_bind]
  by_cases harr : t.type = .array
  · obtain ⟨m, hm, hle, hlt⟩ := hr.tree tok t ht
    have hstop := hlt (by rw [harr]; rintro ⟨⟩)
    rw [if_pos harr, jsonNext_of_skips hm hle, ok_bind]
    refine jsonGetParamsArr_returns hr hm hstop names _ fun i hi => ?_
    split_ifs at hi with hsize
    · cases hi
    · obtain rfl := Option.some.inj hi
      have hcount : childCount toks tok = .ok t.size := by
        rw [childCount, tokAt_of_getElem? ht]
        rfl
      have hchildren := (hm.children hcount).le
      omega
  · rw [if_neg harr, if_neg (fun hne => hne (htype.resolve_left harr))]
    exact jsonGetParamsObj_returns hr ht (htype.resolve_left harr) names hnul

theorem findCmd_returns (hplace : t.start ≤ t.stop ∧ t.stop ≤ buffer.length) :
    ∀ cmds : List JsonCommand, ∃ r, findCmd buffer t cmds = .ok r
  | [] => ⟨none, rfl⟩
  | cmd :: cmds => by
    have hnul : 0 ∉ cmd.name := by cases cmd <;> decide
    obtain ⟨same, hsame⟩ := jsonTokStreq_returns hplace hnul
    obtain ⟨r, hrest⟩ := findCmd_returns hplace cmds
    rw [findCmd, hsame, ok_bind]
    cases same with
    | true => exact ⟨some cmd, rfl⟩
    | false => exact ⟨r, hrest⟩

/-- **A request is read within its bounds.** Whatever bytes have come in, if there are tokens,
`parse_request` returns: it reads no token and no byte that is not there, no assertion fails, and
every loop ends; and the parameters that a command is called with can be read by
`json_get_params` in the same way. -/
theorem parseRequest_returns {input : List UInt8} {len : Nat} {valid : Bool} {toks : List JsmnTok}
    {dispatch : JsonCommand → Nat → Except JsonFault Dispatched} (hlen : len ≤ input.length)
    (h : jsonParseInput input len = .ok (valid, some toks))
    (hdispatch : ∀ cmd params, (∀ names : List (List UInt8), (∀ name ∈ names, 0 ∉ name) →
      ∃ r, jsonGetParams input toks params names = .ok r ∧ r.length = names.length ∧
        ∀ q ∈ r, ∀ i ∈ q, i < toks.length) → ∃ result, dispatch cmd params = .ok result) :
    ∃ r, parseRequest input toks dispatch = .ok r := by
  have hr := readable_of_jsonParseInput hlen h
  obtain ⟨t, ht⟩ : ∃ t, toks[0]? = some t := by
    obtain ⟨pieces, -, -, rfl⟩ := pieces_of_jsonParseInput hlen h
    exact exists_token (by rw [List.length_append]; exact Nat.succ_pos _)
  rw [parseRequest, tokAt_of_getElem? ht, ok_bind]
  by_cases htype : t.type = .object
  · obtain ⟨method, hmethod, hmethodlt⟩ := jsonGetMember_returns hr
      (by decide : 0 ∉ cstr "method") ht htype
    obtain ⟨params, hparams, hparamslt⟩ := jsonGetMember_returns hr
      (by decide : 0 ∉ cstr "params") ht htype
    obtain ⟨id, hid, hidlt⟩ := jsonGetMember_returns hr (by decide : 0 ∉ cstr "id") ht htype
    rw [if_neg (fun hne => hne htype), hmethod, ok_bind, hparams, ok_bind, hid, ok_bind]
    cases id with
    | none => exact ⟨none, rfl⟩
    | some id =>
      cases method with
      | none => exact ⟨none, rfl⟩
      | some method =>
        cases params with
        | none => exact ⟨none, rfl⟩
        | some params =>
          obtain ⟨idTok, hidTok⟩ := exists_token (hidlt id rfl)
          obtain ⟨methodTok, hmethodTok⟩ := exists_token (hmethodlt method rfl)
          obtain ⟨paramsTok, hparamsTok⟩ := exists_token (hparamslt params rfl)
          obtain ⟨hle, hin, -⟩ := hr.places methodTok (List.mem_of_getElem? hmethodTok)
          obtain ⟨cmd, hcmd⟩ : ∃ r, findCmd input methodTok cmdlist = .ok r :=
            findCmd_returns ⟨hle, hin⟩ cmdlist
          dsimp only
          rw [tokAt_of_getElem? hidTok, ok_bind]
          split_ifs
          · exact ⟨none, rfl⟩
          · rw [tokAt_of_getElem? hmethodTok, ok_bind]
            split_ifs
            · exact ⟨none, rfl⟩
            · rw [hcmd, ok_bind]
              cases cmd with
              | none => exact ⟨_, rfl⟩
              | some cmd =>
                dsimp only
                rw [tokAt_of_getElem? hparamsTok, ok_bind]
                split_ifs with hparamsType
                · exact ⟨none, rfl⟩
                · have hgroup : paramsTok.type = .array ∨ paramsTok.type = .object := by
                    by_contra hno
                    exact hparamsType (not_or.mp hno)
                  obtain ⟨result, hresult⟩ := hdispatch cmd params fun names hnul =>
                    jsonGetParams_returns hr hparamsTok hgroup hnul
                  rw [hresult, ok_bind]
                  exact ⟨_, rfl⟩
  · rw [if_pos htype]
    exact ⟨none, rfl⟩

end Readable

/-- A request for a transaction to be sent. -/
def sendRequest : Piece :=
  .group true [.string (cstr "id"), .blank 58, .string (cstr "1"), .blank 44,
    .string (cstr "method"), .blank 58, .string (cstr "sendrawtransaction"), .blank 44,
    .string (cstr "params"), .blank 58, .group false [.string (cstr "01fe")]]

def sendToks : List JsmnTok := tokensOf 0 [sendRequest] ++ [endToken]

/-- How `json_sendrawtransaction` begins; it says what it was to send. -/
def sendParam (_ : JsonCommand) (params : Nat) : Except JsonFault Dispatched := do
  let found ← jsonGetParams sendRequest.text sendToks params [cstr "tx"]
  match found.headD none with
  | none => .ok (.error (cstr "Need a tx parameter"))
  | some tok => do
    let t ← tokAt sendToks tok
    .ok (.ok (tokText sendRequest.text t))

/-- The command is called with the parameters, and answers. -/
theorem parseRequest_returns_send :
    ∃ answer, parseRequest sendRequest.text sendToks sendParam
      = .ok (some (answer, some .sendrawtransaction)) := by
  have hparsed : jsonParseInput sendRequest.text sendRequest.text.length
      = .ok (true, some sendToks) := by
    decide +kernel
  have hreturns : ∃ r, parseRequest sendRequest.text sendToks sendParam = .ok r := by
    refine parseRequest_returns (Nat.le_refl _) hparsed fun cmd params hparams => ?_
    obtain ⟨found, hfound, -, hin⟩ := hparams [cstr "tx"] (by decide +kernel)
    unfold sendParam
    rw [hfound, ok_bind]
    cases hfirst : found.headD none with
    | none => exact ⟨_, rfl⟩
    | some tok =>
      -- the token that was found is there
      have hmem : some tok ∈ found := by
        cases found with
        | nil => exact absurd hfirst (by simp)
        | cons first _ => exact hfirst ▸ List.mem_cons_self
      obtain ⟨t, ht⟩ := exists_token (hin _ hmem tok rfl)
      dsimp only
      rw [tokAt_of_getElem? ht, ok_bind]
      exact ⟨_, rfl⟩
  have hcalled : (parseRequest sendRequest.text sendToks sendParam).toOption.map
      (Option.map Prod.snd) = some (some (some .sendrawtransaction)) := by
    decide +kernel
  obtain ⟨r, hr⟩ := hreturns
  rw [hr] at hcalled
  obtain ⟨⟨answer, _⟩, rfl, rfl⟩ := Option.map_eq_some_iff.mp (Option.some.inj hcalled)
  exact ⟨answer, hr⟩

-- ---------------------------------------------------------------------------
-- What a request asks
-- ---------------------------------------------------------------------------

/-- Keys and values by turns, blanks apart; `true` if a value is still to come. -/
def Keyed : Bool → List Piece → Prop
  | waits, [] => waits = false
  | waits, .blank _ :: pieces => Keyed waits pieces
  | false, .string _ :: pieces => Keyed true pieces
  | false, _ :: _ => False
  | true, _ :: pieces => Keyed false pieces

/-- The value of the first member with a name, and the number of its token, if the first token
is number `tok`; `key` is the key whose value comes next. -/
def memberOf (label : List UInt8) : Option (List UInt8) → Nat → List Piece → Option (Nat × Piece)
  | _, _, [] => none
  | key, tok, .blank _ :: pieces => memberOf label key tok pieces
  | none, tok, .string text :: pieces => memberOf label (some text) (tok + 1) pieces
  | none, tok, piece :: pieces => memberOf label none (tok + (piece.tokens 0).length) pieces
  | some key, tok, piece :: pieces =>
    if key = label then some (tok, piece)
    else memberOf label none (tok + (piece.tokens 0).length) pieces

/-- An object or an array. -/
def Piece.isGroup : Piece → Bool
  | .group _ _ => true
  | _ => false

/-- What `parse_request` answers to an object with these members. -/
def requestAnswer (members : List Piece)
    (dispatch : JsonCommand → Nat → Except JsonFault Dispatched) :
    Except JsonFault (Option (List UInt8 × Option JsonCommand)) :=
  match memberOf (cstr "id") none 1 members, memberOf (cstr "method") none 1 members,
    memberOf (cstr "params") none 1 members with
  | some (_, id), some (_, .string method), some (tok, params) =>
    if id.isGroup then .ok none
    else
      match cmdlist.find? fun cmd => cmd.name = method with
      | none => .ok (some (errorAnswer (cstr "Unknown command '" ++ method ++ cstr "'") id.text, none))
      | some cmd =>
        if params.isGroup then (dispatch cmd tok).map (answered id.text cmd) else .ok none
  | _, _, _ => .ok none

section Asked

variable {buffer text text' label : List UInt8} {toks : List JsmnTok} {off off' tok : Nat}
  {pieces : List Piece} {piece : Piece}

/-- The text stands at `off`. -/
def TextAt (buffer : List UInt8) (off : Nat) (text : List UInt8) : Prop := text <+: buffer.drop off

theorem TextAt.left (h : TextAt buffer off (text ++ text')) : TextAt buffer off text :=
  (List.prefix_append text text').trans h

theorem TextAt.right (h : TextAt buffer off (text ++ text')) :
    TextAt buffer (off + text.length) text' := by
  obtain ⟨rest, hrest⟩ := h
  refine ⟨rest, ?_⟩
  rw [← List.drop_drop, ← hrest, List.append_assoc, List.drop_left]

theorem TextAt.take_drop (h : TextAt buffer off text) :
    (buffer.drop off).take text.length = text :=
  (List.prefix_iff_eq_take.mp h).symm

theorem TextAt.le (h : TextAt buffer off text) (hpos : text ≠ []) :
    off + text.length ≤ buffer.length := by
  have hle := h.length_le
  rw [List.length_drop] at hle
  have hlen := List.length_pos_of_ne_nil hpos
  omega

mutual

/-- Where a piece stands does not change how many tokens it has. -/
theorem Piece.length_tokens : ∀ (piece : Piece) (off off' : Nat),
    (piece.tokens off).length = (piece.tokens off').length
  | .blank _, _, _ => rfl
  | .primitive _, _, _ => rfl
  | .string _, _, _ => rfl
  | .group _ pieces, off, off' => by
    rw [Piece.tokens, Piece.tokens, List.length_cons, List.length_cons,
      length_tokensOf pieces (off + 1) (off' + 1)]

theorem length_tokensOf : ∀ (pieces : List Piece) (off off' : Nat),
    (tokensOf off pieces).length = (tokensOf off' pieces).length
  | [], _, _ => rfl
  | piece :: pieces, off, off' => by
    rw [tokensOf, tokensOf, List.length_append, List.length_append,
      piece.length_tokens off off',
      length_tokensOf pieces (off + piece.text.length) (off' + piece.text.length)]

end

/-- A value has a token, and is one tree. -/
theorem jsonNext_piece (h : piece.tokens off <+: toks.drop tok) (hvalue : piece.tops = 1) :
    jsonNext toks tok = .ok (tok + (piece.tokens off).length) := by
  have hle := length_le_of_lies h
  have hskips := piece.skips h
  rw [hvalue] at hskips
  exact next_eq_of_skips hskips (by omega)

/-- Before a value that waits there are blanks only. -/
theorem keyed_true (h : Keyed true pieces) : ∃ blanks value rest,
    pieces = blanks ++ value :: rest ∧ (∀ b ∈ blanks, ∃ c, b = .blank c) ∧ value.tops = 1 ∧
      Keyed false rest := by
  induction pieces with
  | nil => cases (show true = false from h)
  | cons piece pieces ih =>
    cases piece with
    | blank c =>
      obtain ⟨blanks, value, rest, rfl, hblanks, hvalue, hrest⟩ := ih h
      exact ⟨.blank c :: blanks, value, rest, rfl,
        List.forall_mem_cons.mpr ⟨⟨c, rfl⟩, hblanks⟩, hvalue, hrest⟩
    | primitive text => exact ⟨[], _, pieces, rfl, (by rintro _ ⟨⟩), rfl, h⟩
    | string text => exact ⟨[], _, pieces, rfl, (by rintro _ ⟨⟩), rfl, h⟩
    | group object inner => exact ⟨[], _, pieces, rfl, (by rintro _ ⟨⟩), rfl, h⟩

theorem memberOf_blanks {blanks : List Piece} (hblanks : ∀ b ∈ blanks, ∃ c, b = .blank c)
    {key : Option (List UInt8)} :
    memberOf label key tok (blanks ++ pieces) = memberOf label key tok pieces := by
  induction blanks with
  | nil => rfl
  | cons b blanks ih =>
    obtain ⟨⟨c, rfl⟩, hrest⟩ := List.forall_mem_cons.mp hblanks
    rw [List.cons_append, ← ih hrest]
    cases key <;> rfl

theorem tokensOf_blanks {blanks : List Piece} (hblanks : ∀ b ∈ blanks, ∃ c, b = .blank c) :
    tokensOf off blanks = [] := by
  induction blanks generalizing off with
  | nil => rfl
  | cons b blanks ih =>
    obtain ⟨⟨c, rfl⟩, hrest⟩ := List.forall_mem_cons.mp hblanks
    rw [tokensOf, ih hrest]
    rfl

theorem tokensOf_append {qs : List Piece} :
    tokensOf off (pieces ++ qs) = tokensOf off pieces ++ tokensOf (off + (textOf pieces).length) qs := by
  induction pieces generalizing off with
  | nil => rfl
  | cons piece pieces ih =>
    rw [List.cons_append, tokensOf, ih, tokensOf, textOf, List.length_append, List.append_assoc,
      Nat.add_assoc]

/-- The loop of `json_get_member` over keys and values. -/
theorem jsonGetMemberLoop_pieces (hnul : 0 ∉ label) : ∀ (n : Nat) (pieces : List Piece)
    {off tok fuel : Nat}, pieces.length ≤ n → Keyed false pieces →
    tokensOf off pieces <+: toks.drop tok → TextAt buffer off (textOf pieces) →
    (tokensOf off pieces).length < fuel →
    jsonGetMemberLoop buffer toks label (tok + (tokensOf off pieces).length) fuel tok =
      .ok ((memberOf label none tok pieces).map Prod.fst)
  | _, [], off, tok, fuel + 1, _, _, _, _, _ => by
    rw [jsonGetMemberLoop, if_neg (by rw [tokensOf, List.length_nil]; omega)]
    rfl
  | n + 1, .blank c :: pieces, off, tok, fuel, hn, hkeyed, hlies, htext, hfuel => by
    rw [List.length_cons] at hn
    exact jsonGetMemberLoop_pieces hnul n pieces (by omega) hkeyed hlies htext.right
      hfuel
  | n + 1, .string text :: pieces, off, tok, fuel + 1, hn, hkeyed, hlies, htext, hfuel => by
    obtain ⟨blanks, value, rest, rfl, hblanks, hvalue, hrest⟩ := keyed_true hkeyed
    rw [textOf] at htext
    rw [List.length_cons, List.length_append, List.length_cons] at hn
    -- the tokens: the key, the value, the rest
    have hquote : TextAt buffer (off + 1) text := by
      have hstring := htext.left
      rw [Piece.text, ← List.singleton_append] at hstring
      exact hstring.right.left
    have htokens : tokensOf off (Piece.string text :: (blanks ++ value :: rest)) =
        ⟨.string, off + 1, off + 1 + text.length, 0⟩ ::
          (value.tokens (off + (Piece.string text).text.length + (textOf blanks).length) ++
            tokensOf (off + (Piece.string text).text.length + (textOf blanks).length +
              value.text.length) rest) := by
      rw [tokensOf, tokensOf_append, tokensOf_blanks hblanks, List.nil_append, tokensOf]
      rfl
    rw [htokens] at hlies hfuel ⊢
    rw [List.length_cons, List.length_append] at hfuel
    have htail := lies_tail hlies
    have hnext := jsonNext_piece (lies_left htail) hvalue
    have hcount := value.length_tokens
      (off + (Piece.string text).text.length + (textOf blanks).length) 0
    have hlen : off + 1 + text.length ≤ buffer.length := by
      have hle := htext.left.le (by rw [Piece.text]; exact List.cons_ne_nil _ _)
      rw [Piece.text, List.length_cons, List.length_append, List.length_singleton] at hle
      omega
    have hkey : textBetween buffer (off + 1) (off + 1 + text.length) = text := by
      rw [textBetween, Nat.add_sub_cancel_left]
      exact hquote.take_drop
    have hmember : memberOf label none tok (Piece.string text :: (blanks ++ value :: rest)) =
        if text = label then some (tok + 1, value)
        else memberOf label none (tok + 1 + (value.tokens 0).length) rest := by
      rw [memberOf, memberOf_blanks hblanks]
      cases value with
      | blank c => cases hvalue
      | _ => rfl
    rw [jsonGetMemberLoop, if_pos (by rw [List.length_cons]; omega), tokAt_of_lies hlies, ok_bind,
      jsonTokStreq_eq hnul (Nat.le_add_right _ _) hlen, ok_bind, hkey, hmember]
    by_cases hsame : text = label
    · rw [if_pos (decide_eq_true hsame), if_pos hsame]
      rfl
    · have htextRest : TextAt buffer (off + (Piece.string text).text.length +
          (textOf blanks).length + value.text.length) (textOf rest) := by
        have hright := htext.right
        rw [textOf_append, textOf] at hright
        exact hright.right.right
      have hfuel' : (tokensOf (off + (Piece.string text).text.length + (textOf blanks).length +
          value.text.length) rest).length < fuel := by omega
      have hloop := jsonGetMemberLoop_pieces hnul n rest (by omega) hrest (lies_right htail) htextRest
        hfuel'
      rw [if_neg (fun hd => hsame (of_decide_eq_true hd)), if_neg hsame, hnext, ok_bind,
        List.length_cons, List.length_append, Nat.add_comm _ 1, ← Nat.add_assoc, ← Nat.add_assoc,
        ← hcount]
      exact hloop
  | _ + 1, .primitive _ :: _, _, _, _, _, hkeyed, _, _, _ => absurd hkeyed not_false
  | _ + 1, .group _ _ :: _, _, _, _, _, hkeyed, _, _, _ => absurd hkeyed not_false

/-- Where a member's value lies. -/
theorem memberOf_lies {tok' : Nat} {value : Piece} : ∀ (pieces : List Piece)
    {key : Option (List UInt8)} {off tok : Nat} {next : Option UInt8},
    memberOf label key tok pieces = some (tok', value) → tokensOf off pieces <+: toks.drop tok →
    TextAt buffer off (textOf pieces) → PiecesOk next pieces →
    ∃ off' next', value.tokens off' <+: toks.drop tok' ∧ TextAt buffer off' value.text ∧
      value.Ok next' ∧ value.tops = 1 := by
  intro pieces
  induction pieces with
  | nil =>
    intro key off tok next h _ _ _
    cases key <;> cases h
  | cons piece pieces ih =>
    intro key off tok next h hlies htext hok
    rw [tokensOf] at hlies
    rw [textOf] at htext
    have hrest : tokensOf (off + piece.text.length) pieces <+:
        toks.drop (tok + (piece.tokens off).length) := lies_right hlies
    have hcount := piece.length_tokens off 0
    have hhere : ∀ {k}, piece.tops = 1 → some (tok, piece) = some (k, value) → ∃ off' next',
        value.tokens off' <+: toks.drop k ∧ TextAt buffer off' value.text ∧ value.Ok next' ∧
          value.tops = 1 := by
      intro k htops heq
      obtain ⟨rfl, rfl⟩ := Prod.mk.inj (Option.some.inj heq)
      exact ⟨off, _, lies_left hlies, htext.left, hok.1, htops⟩
    cases piece with
    | blank c =>
      have hgo : memberOf label key tok pieces = some (tok', value) := by
        cases key <;> exact h
      exact ih hgo hrest htext.right hok.2
    | string text =>
      cases key with
      | none => exact ih (show memberOf label (some text) _ _ = _ from h) hrest htext.right hok.2
      | some key =>
        rw [memberOf] at h
        split_ifs at h
        · exact hhere rfl h
        · rw [← hcount] at h
          exact ih h hrest htext.right hok.2
        · rintro _ ⟨⟩
    | primitive text =>
      cases key with
      | none =>
        rw [memberOf, ← hcount] at h
        · exact ih h hrest htext.right hok.2
        · rintro _ ⟨⟩
        · rintro _ ⟨⟩
      | some key =>
        rw [memberOf] at h
        split_ifs at h
        · exact hhere rfl h
        · rw [← hcount] at h
          exact ih h hrest htext.right hok.2
        · rintro _ ⟨⟩
    | group object inner =>
      cases key with
      | none =>
        rw [memberOf, ← hcount] at h
        · exact ih h hrest htext.right hok.2
        · rintro _ ⟨⟩
        · rintro _ ⟨⟩
      | some key =>
        rw [memberOf] at h
        split_ifs at h
        · exact hhere rfl h
        · rw [← hcount] at h
          exact ih h hrest htext.right hok.2
        · rintro _ ⟨⟩

/-- `json_get_member` finds the first member with the label. -/
theorem jsonGetMember_pieces (hnul : 0 ∉ label) (hkeyed : Keyed false pieces)
    (hlies : (Piece.group true pieces).tokens off <+: toks.drop tok)
    (htext : TextAt buffer off (Piece.group true pieces).text) :
    jsonGetMember buffer toks tok label =
      .ok ((memberOf label none (tok + 1) pieces).map Prod.fst) := by
  have hnext := jsonNext_piece hlies rfl
  have hinner : TextAt buffer (off + 1) (textOf pieces) := by
    rw [Piece.text, ← List.singleton_append] at htext
    exact htext.right.left
  rw [Piece.tokens] at hlies
  have hlies' : ⟨.object, off, off + 1 + (textOf pieces).length + 1, topsOf pieces⟩ ::
      tokensOf (off + 1) pieces <+: toks.drop tok := hlies
  rw [Piece.tokens, List.length_cons, Nat.add_comm _ 1, ← Nat.add_assoc] at hnext
  have hle := length_le_of_lies (lies_tail hlies')
  rw [jsonGetMember, tokAt_of_lies hlies', ok_bind, if_neg (fun hne => hne rfl), hnext, ok_bind]
  exact jsonGetMemberLoop_pieces hnul pieces.length pieces (Nat.le_refl _) hkeyed (lies_tail hlies')
    hinner (by omega)

theorem nul_notMem_of_stringText (h : StringText text) : 0 ∉ text := by
  induction h with
  | nil => exact List.not_mem_nil
  | char hc0 _ _ _ ih => exact List.not_mem_cons_of_ne_of_not_mem hc0.symm ih
  | escape hc _ ih =>
    refine List.not_mem_cons_of_ne_of_not_mem (by decide) (List.not_mem_cons_of_ne_of_not_mem ?_ ih)
    rintro rfl
    exact absurd hc (by decide)
  | unicode _ hhex _ ih =>
    refine List.not_mem_cons_of_ne_of_not_mem (by decide)
      (List.not_mem_cons_of_ne_of_not_mem (by decide) fun h0 => ?_)
    rcases List.mem_append.mp h0 with hin | hin
    · exact absurd (hhex 0 hin) (by decide)
    · exact ih hin

theorem nul_notMem_of_primitiveText (h : PrimitiveText text) : 0 ∉ text := by
  obtain ⟨c, cs, rfl, hc, hcs⟩ := h
  refine List.not_mem_cons_of_ne_of_not_mem ?_ fun h0 => absurd (hcs 0 h0) (by decide)
  rintro rfl
  exact absurd hc (by decide)

/-- `%.*s` of a text without a nul. -/
theorem fmtPrecision_eq (h : TextAt buffer off text) (hnul : 0 ∉ text) :
    fmtPrecision text.length (buffer.drop off) = text := by
  rw [fmtPrecision, h.take_drop]
  exact List.takeWhile_eq_self_iff.mpr fun x hx => decide_eq_true (by rintro rfl; exact hnul hx)

/-- A string is written with its quotes. -/
theorem tokText_string (h : TextAt buffer off (Piece.string text).text) (htext : StringText text)
    {size : Nat} :
    tokText buffer ⟨.string, off + 1, off + 1 + text.length, size⟩ = (Piece.string text).text := by
  have hlen : (Piece.string text).text.length = off + 1 + text.length - (off + 1) + 2 := by
    rw [Piece.text, List.length_cons, List.length_append, List.length_singleton]
    omega
  have hnul : 0 ∉ (Piece.string text).text := by
    rw [Piece.text]
    refine List.not_mem_cons_of_ne_of_not_mem (by decide) fun h0 => ?_
    rcases List.mem_append.mp h0 with hin | hin
    · exact nul_notMem_of_stringText htext hin
    · exact absurd (List.mem_singleton.mp hin) (by decide)
  rw [tokText, jsonTokLen, jsonTokContents, if_pos rfl, if_pos rfl, Nat.add_sub_cancel, ← hlen]
  exact fmtPrecision_eq h hnul

theorem tokText_primitive (h : TextAt buffer off text) (htext : PrimitiveText text) {size : Nat} :
    tokText buffer ⟨.primitive, off, off + text.length, size⟩ = text := by
  have hlen : jsonTokLen ⟨.primitive, off, off + text.length, size⟩ = text.length :=
    Nat.add_sub_cancel_left _ _
  rw [tokText, hlen]
  exact fmtPrecision_eq h (nul_notMem_of_primitiveText htext)

/-- A command is found by its name. -/
theorem findCmd_eq (h : TextAt buffer off text) (hle : off + text.length ≤ buffer.length) {size : Nat} :
    ∀ cmds : List JsonCommand, findCmd buffer ⟨.string, off, off + text.length, size⟩ cmds =
      .ok (cmds.find? fun cmd => cmd.name = text)
  | [] => rfl
  | cmd :: cmds => by
    have hnul : 0 ∉ cmd.name := by cases cmd <;> decide
    have hbetween : textBetween buffer off (off + text.length) = text := by
      rw [textBetween, Nat.add_sub_cancel_left]
      exact h.take_drop
    rw [findCmd, jsonTokStreq_eq hnul (Nat.le_add_right _ _) hle, ok_bind, hbetween, List.find?_cons]
    by_cases hname : text = cmd.name
    · rw [if_pos (decide_eq_true hname), decide_eq_true hname.symm]
    · rw [if_neg (fun hd => hname (of_decide_eq_true hd)),
        decide_eq_false (fun heq => hname heq.symm)]
      exact findCmd_eq h hle cmds

/-- **The answer to a request.** What `parse_request` answers to an object depends on its
members alone, and not on where it lies, what lies before or behind it, or which tokens follow. -/
theorem parseRequest_pieces {dispatch : JsonCommand → Nat → Except JsonFault Dispatched}
    {next : Option UInt8} (hkeyed : Keyed false pieces) (hok : PiecesOk next pieces)
    (hlies : (Piece.group true pieces).tokens off <+: toks)
    (htext : TextAt buffer off (Piece.group true pieces).text) :
    parseRequest buffer toks dispatch = requestAnswer pieces dispatch := by
  have hlies0 : (Piece.group true pieces).tokens off <+: toks.drop 0 := hlies
  have hinner : TextAt buffer (off + 1) (textOf pieces) := by
    rw [Piece.text, ← List.singleton_append] at htext
    exact htext.right.left
  have hhead : ⟨.object, off, off + 1 + (textOf pieces).length + 1, topsOf pieces⟩ ::
      tokensOf (off + 1) pieces <+: toks.drop 0 := hlies0
  have hfound : ∀ {label k value}, memberOf label none 1 pieces = some (k, value) →
      ∃ off' next', value.tokens off' <+: toks.drop k ∧ TextAt buffer off' value.text ∧
        value.Ok next' ∧ value.tops = 1 :=
    fun h => memberOf_lies pieces h (lies_tail hhead) hinner hok
  rw [parseRequest, tokAt_of_lies hhead, ok_bind, if_neg (fun hne => hne rfl),
    jsonGetMember_pieces (by decide) hkeyed hlies0 htext, ok_bind,
    jsonGetMember_pieces (by decide) hkeyed hlies0 htext, ok_bind,
    jsonGetMember_pieces (by decide) hkeyed hlies0 htext, ok_bind, requestAnswer, Nat.zero_add]
  cases hid : memberOf (cstr "id") none 1 pieces with
  | none => rfl
  | some id =>
    obtain ⟨idTok, id⟩ := id
    cases hmethod : memberOf (cstr "method") none 1 pieces with
    | none => rfl
    | some method =>
      obtain ⟨methodTok, method⟩ := method
      cases hparams : memberOf (cstr "params") none 1 pieces with
      | none => cases method <;> rfl
      | some params =>
        obtain ⟨paramsTok, params⟩ := params
        obtain ⟨idOff, idNext, idLies, idText, idOk, idTops⟩ := hfound hid
        obtain ⟨methodOff, methodNext, methodLies, methodText, methodOk, methodTops⟩ := hfound hmethod
        obtain ⟨paramsOff, paramsNext, paramsLies, paramsText, paramsOk, paramsTops⟩ := hfound hparams
        simp only [Option.map_some]
        -- the id, as it is written into the answer
        obtain ⟨t, ht, hidText⟩ : ∃ t, tokAt toks idTok = .ok t ∧
            (id.isGroup = true ∧ t.type ≠ .string ∧ t.type ≠ .primitive ∨
              id.isGroup = false ∧ (t.type = .string ∨ t.type = .primitive) ∧
                tokText buffer t = id.text) := by
          cases id with
          | blank c => cases idTops
          | primitive text =>
            exact ⟨_, tokAt_of_lies idLies, .inr ⟨rfl, .inr rfl, tokText_primitive idText idOk.1⟩⟩
          | string text =>
            exact ⟨_, tokAt_of_lies idLies, .inr ⟨rfl, .inl rfl, tokText_string idText idOk⟩⟩
          | group object inner =>
            refine ⟨_, tokAt_of_lies idLies, .inl ⟨rfl, ?_, ?_⟩⟩
            · cases object <;> rintro ⟨⟩
            · cases object <;> rintro ⟨⟩
        rw [ht, ok_bind]
        rcases hidText with ⟨hgroup, hnoString, hnoPrimitive⟩ | ⟨hgroup, htype, hidText⟩
        · rw [if_pos ⟨hnoString, hnoPrimitive⟩]
          cases method with
          | string text => exact (if_pos hgroup).symm
          | _ => rfl
        rw [if_neg (fun hno => htype.elim hno.1 hno.2), hidText]
        cases method with
        | blank c => cases methodTops
        | primitive text => rw [tokAt_of_lies methodLies, ok_bind, if_pos (by rintro ⟨⟩)]
        | group object inner =>
          rw [tokAt_of_lies methodLies, ok_bind, if_pos (by cases object <;> rintro ⟨⟩)]
        | string text =>
          have hname : TextAt buffer (methodOff + 1) text := by
            rw [Piece.text, ← List.singleton_append] at methodText
            exact methodText.right.left
          have hlen : methodOff + 1 + text.length ≤ buffer.length := by
            have hle := methodText.le (by rw [Piece.text]; exact List.cons_ne_nil _ _)
            rw [Piece.text, List.length_cons, List.length_append, List.length_singleton] at hle
            omega
          have hprecision : fmtPrecision (methodOff + 1 + text.length - (methodOff + 1))
              (buffer.drop (methodOff + 1)) = text := by
            rw [Nat.add_sub_cancel_left]
            exact fmtPrecision_eq hname (nul_notMem_of_stringText methodOk)
          rw [tokAt_of_lies methodLies, ok_bind, if_neg (fun hne => hne rfl), findCmd_eq hname hlen,
            ok_bind]
          dsimp only
          rw [hprecision, if_neg (by rw [hgroup]; exact Bool.false_ne_true)]
          cases cmdlist.find? fun cmd => cmd.name = text with
          | none => rfl
          | some cmd =>
            dsimp only
            -- a command is called with an array or an object
            cases params with
            | blank c => cases paramsTops
            | primitive text =>
              rw [tokAt_of_lies paramsLies, ok_bind, if_pos ⟨(by rintro ⟨⟩), (by rintro ⟨⟩)⟩]
              rfl
            | string text =>
              rw [tokAt_of_lies paramsLies, ok_bind, if_pos ⟨(by rintro ⟨⟩), (by rintro ⟨⟩)⟩]
              rfl
            | group object inner =>
              rw [tokAt_of_lies paramsLies, ok_bind, if_neg]
              · cases dispatch cmd paramsTok <;> rfl
              · rintro ⟨hnoArray, hnoObject⟩
                cases object with
                | true => exact hnoObject rfl
                | false => exact hnoArray rfl

end Asked

end Pettycoin
