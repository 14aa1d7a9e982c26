import Pettycoin.Jsonrpc

/-!
# Pettycoin — connections of the JSON interface

A connection has two sides, which run by turns: `read_json` reads until there is a request,
queues the answer and waits; `write_json` writes what is queued, and lets the reader go on.
`jsmn_parse` is run over all that the buffer holds, so that a text waits for the one
behind it to be whole, once that has begun.

* `jsonConnection_answers` — however the bytes of a client come in, its requests are answered
  in order, once each, and no side waits for ever.
-/

namespace Pettycoin

open ExceptRules Preorder

-- ---------------------------------------------------------------------------
-- The two sides
-- ---------------------------------------------------------------------------

/-- What a side of a connection does next. -/
inductive ConnPlan
  | read
  | write (rest : List UInt8)
  | wait
  | always
  | close
  | gone
deriving DecidableEq, Repr

/-- `io_wake()`, for a side. -/
def ConnPlan.wake : ConnPlan → ConnPlan
  | .wait => .always
  | plan => plan

/-- `io_write()`. -/
def ioWrite (data : List UInt8) : ConnPlan := if data = [] then .always else .write data

/-- `struct json_connection`, with what its two sides do next, and whether `io_break()` was
called. -/
structure JsonConnection where
  buffer : List UInt8
  used : Nat
  lenRead : Nat
  numConns : Nat
  stop : Bool
  output : List (List UInt8)
  reader : ConnPlan
  writer : ConnPlan
  broken : Bool
deriving DecidableEq, Repr

/-- The commands, while a request is answered. -/
abbrev JsonDispatch := JsonCommand → Nat → Dispatched

/-- `init_rpc()`, with what the memory happens to hold. -/
def initRpc (memory : List UInt8) : JsonConnection where
  buffer := memory
  used := 0
  lenRead := 64
  numConns := 2
  stop := false
  output := []
  reader := .read
  writer := .wait
  broken := false

/-- `free_jcon()`. -/
def freeJcon (c : JsonConnection) : JsonConnection :=
  if c.numConns - 1 ≠ 0 then
    { c with numConns := c.numConns - 1, reader := c.reader.wake, writer := c.writer.wake }
  else { c with numConns := 0 }

/-- `write_json()`. -/
def writeJson (c : JsonConnection) : JsonConnection :=
  match c.output with
  | [] =>
    if c.stop then { c with writer := .close, broken := true }
    else if c.numConns ≠ 2 then { c with writer := .close }
    else { c with reader := c.reader.wake, writer := .wait }
  | json :: output => { c with output := output, writer := ioWrite json }

/-- From `read_more` on. -/
def readMore (c : JsonConnection) : JsonConnection :=
  { c with
    lenRead := c.buffer.length - c.used
    reader := if c.buffer.length - c.used = 0 then .always else .read }

/-- The bytes that were read are used now, and the buffer grows if it is full; `fresh` is what
the memory behind it holds. -/
def grown (c : JsonConnection) (fresh : List UInt8) : JsonConnection :=
  { c with
    used := c.used + c.lenRead
    buffer := if c.used + c.lenRead = c.buffer.length then c.buffer ++ fresh else c.buffer }

/-- The first request, which ends at `stop`, was answered. -/
def queueAnswer (c : JsonConnection) (stop : Nat) (json : List UInt8) (cmd : Option JsonCommand) :
    JsonConnection :=
  { c with
    buffer := c.buffer.drop stop ++ c.buffer.drop (c.buffer.length - stop)
    used := c.used - stop
    stop := c.stop || cmd = some .stop
    output := c.output ++ [json]
    writer := c.writer.wake
    lenRead := 0
    reader := .wait }

/-- `read_json()`. -/
def readJson (c : JsonConnection) (fresh : List UInt8) (dispatch : JsonDispatch) :
    Except JsonFault JsonConnection :=
  if c.numConns ≠ 2 then .ok { c with reader := .close }
  else do
    let c := grown c fresh
    let (valid, toks) ← jsonParseInput c.buffer c.used
    match toks with
    | none => .ok (if valid then readMore c else { c with reader := .close })
    | some toks =>
      if toks.length = 1 then .ok (readMore { c with used := 0 })
      else do
        let answer ← parseRequest c.buffer toks fun cmd params => .ok (dispatch cmd params)
        match answer with
        | none => .ok { c with reader := .close }
        | some (json, cmd) => do
          let tok ← tokAt toks 0
          .ok (queueAnswer c tok.stop json cmd)

/-- What happens to a connection. -/
inductive JconEvent
  | arrived (bytes fresh : List UInt8) (dispatch : JsonDispatch)
  | readFailed
  | readAgain (fresh : List UInt8) (dispatch : JsonDispatch)
  | wrote (n : Nat)
  | writeFailed
  | writeAgain
  | readerClosed
  | writerClosed

/-- The bytes that came in are in the buffer. -/
def arrive (c : JsonConnection) (bytes : List UInt8) : JsonConnection :=
  { c with
    buffer := c.buffer.take c.used ++ bytes ++ c.buffer.drop (c.used + bytes.length)
    lenRead := bytes.length }

/-- The bytes that the other side still has to take. -/
def ConnPlan.unsent : ConnPlan → List UInt8
  | .write rest => rest
  | _ => []

/-- `do_write()`: `n` bytes are taken. -/
def wrote (c : JsonConnection) (n : Nat) : JsonConnection :=
  if c.writer.unsent.drop n = [] then writeJson c
  else { c with writer := .write (c.writer.unsent.drop n) }

/-- What the main loop does with it. -/
def jconStep (c : JsonConnection) : JconEvent → Except JsonFault JsonConnection
  | .arrived bytes fresh dispatch => readJson (arrive c bytes) fresh dispatch
  | .readFailed => .ok { c with reader := .close }
  | .readAgain fresh dispatch => readJson c fresh dispatch
  | .wrote n => .ok (wrote c n)
  | .writeFailed => .ok { c with writer := .close }
  | .writeAgain => .ok (writeJson c)
  | .readerClosed => .ok (freeJcon { c with reader := .gone })
  | .writerClosed => .ok (freeJcon { c with writer := .gone })

/-- When it can happen: never behind `io_break`. A read gives at most the bytes that there is
room for, and the buffer grows to twice its size. -/
def JconEvent.Possible (c : JsonConnection) : JconEvent → Prop
  | .arrived bytes fresh _ => c.broken = false ∧ c.reader = .read ∧ bytes ≠ [] ∧
      bytes.length ≤ c.lenRead ∧ fresh.length = c.buffer.length
  | .readFailed => c.broken = false ∧ c.reader = .read
  | .readAgain fresh _ => c.broken = false ∧ c.reader = .always ∧ fresh.length = c.buffer.length
  | .wrote n => c.broken = false ∧ n ≤ c.writer.unsent.length ∧ c.writer.unsent ≠ []
  | .writeFailed => c.broken = false ∧ c.writer.unsent ≠ []
  | .writeAgain => c.broken = false ∧ c.writer = .always
  | .readerClosed => c.broken = false ∧ c.reader = .close
  | .writerClosed => c.broken = false ∧ c.writer = .close

-- ---------------------------------------------------------------------------
-- Runs
-- ---------------------------------------------------------------------------

/-- A run of a connection: what was heard of the client, in all and by each step; the answers,
each with the commands as they were then; what was sent; and whether a read or a write failed. -/
structure JconRun where
  conn : JsonConnection
  heard : List UInt8
  cuts : List (List UInt8)
  answers : List (JsonDispatch × List UInt8)
  sent : List UInt8
  failed : Bool

/-- The bytes that come in. -/
def JconEvent.bytes : JconEvent → List UInt8
  | .arrived bytes _ _ => bytes
  | _ => []

/-- The commands that can be called. -/
def JconEvent.dispatch : JconEvent → List JsonDispatch
  | .arrived _ _ dispatch | .readAgain _ dispatch => [dispatch]
  | _ => []

/-- What is taken of `rest`. -/
def JconEvent.taken (rest : List UInt8) : JconEvent → List UInt8
  | .wrote n => rest.take n
  | _ => []

/-- A read or a write fails. -/
def JconEvent.fails : JconEvent → Bool
  | .readFailed | .writeFailed => true
  | _ => false

/-- The run behind an event: what the queue has more than before are answers. -/
def JconRun.after (r : JconRun) (e : JconEvent) (c : JsonConnection) : JconRun where
  conn := c
  heard := r.heard ++ e.bytes
  cuts := r.cuts ++ [r.heard ++ e.bytes]
  answers := r.answers ++ e.dispatch.zip (c.output.drop r.conn.output.length)
  sent := r.sent ++ e.taken r.conn.writer.unsent
  failed := r.failed || e.fails

/-- The runs from `init_rpc` on. -/
inductive JconReach : JconRun → Prop
  | init {memory : List UInt8} (hlen : memory.length = 64) :
      JconReach ⟨initRpc memory, [], [], [], [], false⟩
  | step {r : JconRun} {e : JconEvent} {c : JsonConnection} (hr : JconReach r)
      (he : e.Possible r.conn) (hc : jconStep r.conn e = .ok c) : JconReach (r.after e c)

-- ---------------------------------------------------------------------------
-- What a client asks
-- ---------------------------------------------------------------------------

/-- The answer to a piece, if it comes first. -/
def pieceAnswer : Piece → JsonDispatch →
    Except JsonFault (Option (List UInt8 × Option JsonCommand))
  | .group true members, dispatch => requestAnswer members fun cmd params => .ok (dispatch cmd params)
  | _, _ => .ok none

/-- The pieces that are no blanks. -/
def asked (pieces : List Piece) : List Piece := pieces.filter fun piece => piece.tops = 1

section Pieces

variable {js buffer b : List UInt8} {ps qs rest blanks pieces : List Piece} {piece : Piece}
  {next : Option UInt8} {dispatch : JsonDispatch}

mutual

/-- There is no nul in the text of a piece. -/
theorem Piece.nul_notMem {next : Option UInt8} : ∀ piece : Piece, piece.Ok next → 0 ∉ piece.text
  | .blank c, h, h0 => by
    obtain rfl := List.mem_singleton.mp h0
    exact Bool.false_ne_true h
  | .primitive _, h, h0 => nul_notMem_of_primitiveText h.1 h0
  | .string text, h, h0 => by
    rcases List.mem_cons.mp h0 with heq | hmem
    · exact absurd heq (by decide)
    · rcases List.mem_append.mp hmem with hin | hin
      · exact nul_notMem_of_stringText h hin
      · exact absurd (List.mem_singleton.mp hin) (by decide)
  | .group object pieces, h, h0 => by
    rcases List.mem_cons.mp h0 with heq | hmem
    · cases object <;> exact absurd heq (by decide)
    · rcases List.mem_append.mp hmem with hin | hin
      · exact nul_notMem_textOf pieces h hin
      · cases object <;> exact absurd (List.mem_singleton.mp hin) (by decide)

theorem nul_notMem_textOf {next : Option UInt8} : ∀ pieces : List Piece, PiecesOk next pieces →
    0 ∉ textOf pieces
  | [], _ => List.not_mem_nil
  | piece :: pieces, h => fun h0 => by
    rcases List.mem_append.mp h0 with hin | hin
    · exact piece.nul_notMem h.1 hin
    · exact nul_notMem_textOf pieces h.2 hin

end

/-- What is read before does not end an escape. -/
theorem heldText_behind (hqs : PiecesOk none qs) : ∀ (stack : List (Bool × List Piece))
    {cur : List Piece} {next : Option UInt8}, HeldOk next stack cur →
    ∃ stack' cur', HeldOk next stack' cur' ∧ heldText stack' cur' = textOf qs ++ heldText stack cur
  | [], cur, next, h => by
    refine ⟨[], qs ++ cur, piecesOk_append.mpr ⟨hqs.mono, h⟩, ?_⟩
    rw [heldText, heldText, textOf_append]
  | (object, before) :: stack, cur, next, h => by
    obtain ⟨stack', before', hheld, htext⟩ := heldText_behind hqs stack h.1
    refine ⟨(object, before') :: stack', cur, ⟨hheld, h.2⟩, ?_⟩
    rw [heldText, heldText, htext, List.append_assoc]

/-- What ends inside of an escape is not the text of pieces. -/
theorem not_endsInEscape_textOf (hok : PiecesOk none ps) : ¬ EndsInEscape (textOf ps) := by
  rintro ⟨stack, cur, begun, x, hheld, hbegun, hcut, htext⟩
  have hahead := ahead_zero (List.take_length (l := textOf ps)) (Nat.le_refl _)
  exact jsmnParse_inEscape_ne hheld hbegun hcut (htext ▸ hahead) _ (jsmnParse_pieces hok hahead)

theorem EndsInEscape.behind (h : EndsInEscape b) (hqs : PiecesOk none qs) :
    EndsInEscape (textOf qs ++ b) := by
  obtain ⟨stack, cur, begun, x, hheld, hbegun, hcut, rfl⟩ := h
  obtain ⟨stack', cur', hheld', htext⟩ := heldText_behind hqs stack hheld
  refine ⟨stack', cur', begun, x, hheld', hbegun, hcut, ?_⟩
  rw [htext, List.append_assoc]

/-- The first piece that is no blank, if there are tokens. -/
theorem first_asked : ∀ pieces : List Piece, asked pieces = [] ∨ ∃ blanks piece rest,
    pieces = blanks ++ piece :: rest ∧ (∀ b ∈ blanks, ∃ c, b = .blank c) ∧ piece.tops = 1
  | [] => .inl rfl
  | .blank c :: pieces => by
    rcases first_asked pieces with hnone | ⟨blanks, piece, rest, rfl, hblanks, hpiece⟩
    · exact .inl hnone
    · exact .inr ⟨.blank c :: blanks, piece, rest, rfl,
        List.forall_mem_cons.mpr ⟨⟨c, rfl⟩, hblanks⟩, hpiece⟩
  | .primitive text :: pieces => .inr ⟨[], _, pieces, rfl, (by rintro _ ⟨⟩), rfl⟩
  | .string text :: pieces => .inr ⟨[], _, pieces, rfl, (by rintro _ ⟨⟩), rfl⟩
  | .group object inner :: pieces => .inr ⟨[], _, pieces, rfl, (by rintro _ ⟨⟩), rfl⟩

theorem asked_blanks (hblanks : ∀ b ∈ blanks, ∃ c, b = .blank c) : asked blanks = [] := by
  refine List.filter_eq_nil_iff.mpr fun b hb => ?_
  obtain ⟨c, rfl⟩ := hblanks b hb
  exact Bool.false_ne_true

theorem asked_append : asked (ps ++ qs) = asked ps ++ asked qs := List.filter_append ..

/-- Pieces of which none is asked have no tokens. -/
theorem tokensOf_of_asked : ∀ (pieces : List Piece) (off : Nat), asked pieces = [] →
    tokensOf off pieces = []
  | [], _, _ => rfl
  | .blank _ :: pieces, off, h => tokensOf_of_asked pieces (off + 1) h
  | .primitive _ :: _, _, h => absurd h (List.cons_ne_nil _ _)
  | .string _ :: _, _, h => absurd h (List.cons_ne_nil _ _)
  | .group _ _ :: _, _, h => absurd h (List.cons_ne_nil _ _)

/-- The commands decide on an answer, not on whether there is one to wait for. -/
theorem pieceAnswer_returns (piece : Piece) (dispatch : JsonDispatch) :
    ∃ answer, pieceAnswer piece dispatch = .ok answer := by
  unfold pieceAnswer requestAnswer
  split
  · split
    · split_ifs
      · exact ⟨_, rfl⟩
      · cases cmdlist.find? _ <;> exact ⟨_, rfl⟩
      · cases cmdlist.find? _ <;> exact ⟨_, rfl⟩
    · exact ⟨_, rfl⟩
  · exact ⟨_, rfl⟩

theorem pieceAnswer_other (hpiece : ∀ members, piece ≠ .group true members) :
    pieceAnswer piece dispatch = .ok none := by
  unfold pieceAnswer
  split
  · exact absurd rfl (hpiece _)
  · rfl

/-- `json_parse_input` of the beginning of pieces: some of the pieces, or it needs more. -/
theorem jsonParseInput_begun {len : Nat} (hle : len ≤ js.length) (htext : js.take len <+: textOf ps)
    (hok : PiecesOk none ps) (hescape : ¬ EndsInEscape (js.take len)) :
    (∃ qs rest, ps = qs ++ rest ∧ PiecesOk none qs ∧ textOf qs = js.take len ∧
      jsonParseInput js len = .ok (true, some (tokensOf 0 qs ++ [endToken]))) ∨
    (¬ Complete (js.take len) ∧ jsonParseInput js len = .ok (true, none)) := by
  have hahead := ahead_zero (l := js.take len) rfl hle
  have hnul : 0 ∉ js.take len := fun h0 => nul_notMem_textOf ps hok (htext.subset h0)
  rw [jsonParseInput_eq]
  rcases inputAnswer_cases hnul hescape hahead with
    ⟨qs, hqs, hsame, hanswer⟩ | ⟨hanswer, -⟩ | ⟨-, hnever⟩
  · obtain ⟨rest, rfl⟩ := prefix_of_complete hqs hok (hsame ▸ htext)
    exact .inl ⟨qs, rest, rfl, hqs, hsame, hanswer⟩
  · refine .inr ⟨?_, hanswer⟩
    rintro ⟨pieces, hpieces, hsame⟩
    rw [inputAnswer_pieces hpieces (hsame ▸ hahead)] at hanswer
    cases hanswer
  · obtain ⟨more, hmore⟩ := htext
    exact absurd ⟨ps, hok, hmore.symm⟩ (hnever more)

/-- `parse_request`, if the first of the pieces is that. -/
theorem parseRequest_first (dispatch : JsonDispatch) (hpiece : piece.tops = 1)
    (hblanks : ∀ b ∈ blanks, ∃ c, b = .blank c)
    (hok : PiecesOk next (blanks ++ piece :: rest))
    (hkeyed : ∀ members, piece = .group true members → Keyed false members)
    (htext : textOf (blanks ++ piece :: rest) <+: buffer) {toks : List JsmnTok}
    (htoks : toks = tokensOf 0 (blanks ++ piece :: rest) ++ [endToken]) :
    parseRequest buffer toks (fun cmd params => .ok (dispatch cmd params)) =
      pieceAnswer piece dispatch ∧
    ∀ members, piece = .group true members → ∃ tok, tokAt toks 0 = .ok tok ∧
      tok.stop = (textOf (blanks ++ [piece])).length := by
  rw [tokensOf_append, tokensOf_blanks hblanks, List.nil_append, Nat.zero_add, tokensOf,
    List.append_assoc] at htoks
  have hlies : piece.tokens (textOf blanks).length <+: toks := htoks ▸ List.prefix_append _ _
  have hhere : TextAt buffer (textOf blanks).length piece.text := by
    rw [textOf_append, textOf] at htext
    have hright := TextAt.right (show TextAt buffer 0 (textOf blanks ++ _) from htext)
    rw [Nat.zero_add] at hright
    exact hright.left
  have hother : ∀ {t l}, piece.tokens (textOf blanks).length = t :: l → t.type ≠ .object →
      parseRequest buffer toks (fun cmd params => .ok (dispatch cmd params)) = .ok none := by
    intro t l htokens htype
    have hfirst : t :: l <+: toks.drop 0 := htokens ▸ hlies
    rw [parseRequest, tokAt_of_lies hfirst, ok_bind, if_pos htype]
  cases piece with
  | blank c => cases hpiece
  | primitive text =>
    exact ⟨(hother rfl (by rintro ⟨⟩)).trans (pieceAnswer_other (by rintro _ ⟨⟩)).symm, by rintro _ ⟨⟩⟩
  | string text =>
    exact ⟨(hother rfl (by rintro ⟨⟩)).trans (pieceAnswer_other (by rintro _ ⟨⟩)).symm, by rintro _ ⟨⟩⟩
  | group object members =>
    cases object with
    | false =>
      exact ⟨(hother rfl (by rintro ⟨⟩)).trans (pieceAnswer_other (by rintro _ ⟨⟩)).symm,
        by rintro _ ⟨⟩⟩
    | true =>
      have hmembers : PiecesOk (some (closing true)) members := (piecesOk_append.mp hok).2.1
      refine ⟨parseRequest_pieces (hkeyed members rfl) hmembers hlies hhere, fun _ _ => ?_⟩
      have hfirst : ⟨.object, (textOf blanks).length,
          (textOf blanks).length + 1 + (textOf members).length + 1, topsOf members⟩ ::
            tokensOf ((textOf blanks).length + 1) members <+: toks.drop 0 := hlies
      refine ⟨_, tokAt_of_lies hfirst, ?_⟩
      rw [textOf_append, textOf, textOf, List.append_nil, List.length_append, Piece.text,
        List.length_cons, List.length_append, List.length_singleton]
      dsimp only
      omega

end Pieces

-- ---------------------------------------------------------------------------
-- A read
-- ---------------------------------------------------------------------------

section Read

variable {c c' : JsonConnection} {fresh : List UInt8} {dispatch : JsonDispatch} {ps : List Piece}

theorem take_grown (fresh : List UInt8) (h : c.used + c.lenRead ≤ c.buffer.length) :
    (grown c fresh).buffer.take (grown c fresh).used = c.buffer.take (c.used + c.lenRead) := by
  unfold grown
  dsimp only
  split_ifs with hfull
  · exact List.take_append_of_le_length h
  · rfl

/-- There is always room for more. -/
theorem used_lt_grown (h : c.used + c.lenRead ≤ c.buffer.length) (hpos : 0 < c.buffer.length)
    (hfresh : fresh.length = c.buffer.length) : (grown c fresh).used < (grown c fresh).buffer.length := by
  unfold grown
  dsimp only
  split_ifs with hfull
  · rw [List.length_append]
    omega
  · omega

/-- What `read_json` does with the beginning of pieces: it needs more, there are blanks only, or
there is a first request, which is answered or refused. -/
theorem readJson_cases (dispatch : JsonDispatch) (hconns : c.numConns = 2)
    (hroom : c.used + c.lenRead ≤ c.buffer.length)
    (hpos : 0 < c.buffer.length) (hfresh : fresh.length = c.buffer.length)
    (htext : c.buffer.take (c.used + c.lenRead) <+: textOf ps) (hok : PiecesOk none ps)
    (hkeyed : ∀ members, .group true members ∈ ps → Keyed false members)
    (hescape : ¬ EndsInEscape (c.buffer.take (c.used + c.lenRead))) :
    (¬ Complete (c.buffer.take (c.used + c.lenRead)) ∧
      readJson c fresh dispatch = .ok (readMore (grown c fresh))) ∨
    (∃ qs rest, ps = qs ++ rest ∧ PiecesOk none qs ∧
      textOf qs = c.buffer.take (c.used + c.lenRead) ∧ asked qs = [] ∧
      readJson c fresh dispatch = .ok (readMore { grown c fresh with used := 0 })) ∨
    ∃ blanks piece rest, ps = blanks ++ piece :: rest ∧ asked blanks = [] ∧ piece.tops = 1 ∧
      textOf (blanks ++ [piece]) <+: c.buffer.take (c.used + c.lenRead) ∧
      ((pieceAnswer piece dispatch = .ok none ∧
          readJson c fresh dispatch = .ok { grown c fresh with reader := .close }) ∨
        ∃ json cmd, pieceAnswer piece dispatch = .ok (some (json, cmd)) ∧
          PiecesOk none (blanks ++ [piece]) ∧
          readJson c fresh dispatch =
            .ok (queueAnswer (grown c fresh) (textOf (blanks ++ [piece])).length json cmd)) := by
  have hlt := used_lt_grown hroom hpos hfresh
  rw [← take_grown fresh hroom] at htext hescape ⊢
  have hread : readJson c fresh dispatch = (do
      let (valid, toks) ← jsonParseInput (grown c fresh).buffer (grown c fresh).used
      match toks with
      | none => .ok (if valid then readMore (grown c fresh) else { grown c fresh with reader := .close })
      | some toks =>
        if toks.length = 1 then .ok (readMore { grown c fresh with used := 0 })
        else do
          let answer ← parseRequest (grown c fresh).buffer toks
            fun cmd params => .ok (dispatch cmd params)
          match answer with
          | none => .ok { grown c fresh with reader := .close }
          | some (json, cmd) => do
            let tok ← tokAt toks 0
            .ok (queueAnswer (grown c fresh) tok.stop json cmd)) := by
    rw [readJson, if_neg (fun hne => hne hconns)]
  rcases jsonParseInput_begun (Nat.le_of_lt hlt) htext hok hescape with
    ⟨qs, rest, rfl, hqs, hsame, hinput⟩ | ⟨hmore, hinput⟩
  · rw [hinput, ok_bind] at hread
    dsimp only at hread
    rcases first_asked qs with hnone | ⟨blanks, piece, rest', rfl, hblanks, hpiece⟩
    · refine .inr (.inl ⟨qs, rest, rfl, hqs, hsame, hnone, ?_⟩)
      rw [hread, tokensOf_of_asked _ _ hnone]
      rfl
    · obtain ⟨hrequest, hstop⟩ := parseRequest_first dispatch hpiece hblanks hqs
        (fun members heq => hkeyed members (by rw [heq]; simp)) (hsame ▸ List.take_prefix _ _) rfl
      have hmany : (tokensOf 0 (blanks ++ piece :: rest') ++ [endToken]).length ≠ 1 := by
        rw [tokensOf_append, tokensOf_blanks hblanks, List.nil_append, tokensOf]
        cases piece with
        | blank c => cases hpiece
        | _ => simp [Piece.tokens]
      have hend : textOf (blanks ++ [piece]) <+: textOf (blanks ++ piece :: rest') := by
        rw [textOf_append, textOf_append, textOf, textOf, textOf, List.append_nil]
        exact (List.prefix_append_right_inj _).mpr (List.prefix_append _ _)
      refine .inr (.inr ⟨blanks, piece, rest' ++ rest, by simp, asked_blanks hblanks, hpiece,
        hsame ▸ hend, ?_⟩)
      rw [if_neg hmany, hrequest] at hread
      obtain ⟨answer, hanswer⟩ := pieceAnswer_returns piece dispatch
      rw [hanswer, ok_bind] at hread
      cases answer with
      | none => exact .inl ⟨hanswer, hread⟩
      | some answer =>
        obtain ⟨json, cmd⟩ := answer
        have hobject : ∃ members, piece = .group true members := by
          by_contra hno
          rw [pieceAnswer_other (fun members heq => hno ⟨members, heq⟩)] at hanswer
          cases hanswer
        obtain ⟨members, rfl⟩ := hobject
        obtain ⟨tok, htok, hat⟩ := hstop members rfl
        have hwhole : PiecesOk none (blanks ++ [.group true members]) := by
          obtain ⟨hfirst, hmembers, -⟩ := piecesOk_append.mp hqs
          exact piecesOk_append.mpr ⟨hfirst, hmembers, trivial⟩
        dsimp only at hread
        rw [htok, ok_bind, hat] at hread
        exact .inr ⟨json, cmd, hanswer, hwhole, hread⟩
  · rw [hinput, ok_bind] at hread
    exact .inl ⟨hmore, hread⟩

/-- What comes in is behind what is used. -/
theorem take_arrive {bytes : List UInt8} (h : c.used + bytes.length ≤ c.buffer.length) :
    (arrive c bytes).buffer.take ((arrive c bytes).used + (arrive c bytes).lenRead) =
      c.buffer.take c.used ++ bytes := by
  have hlen : (c.buffer.take c.used ++ bytes).length = c.used + bytes.length := by
    rw [List.length_append, List.length_take]
    omega
  rw [arrive, ← hlen, List.take_left]

theorem length_arrive {bytes : List UInt8} (h : c.used + bytes.length ≤ c.buffer.length) :
    (arrive c bytes).buffer.length = c.buffer.length := by
  rw [arrive, List.length_append, List.length_append, List.length_take, List.length_drop]
  omega

/-- What stands behind the first request is at the beginning. -/
theorem take_queueAnswer {stop : Nat} {json : List UInt8} {cmd : Option JsonCommand}
    (hstop : stop ≤ c.used) (hused : c.used ≤ c.buffer.length) :
    (queueAnswer c stop json cmd).buffer.take (queueAnswer c stop json cmd).used =
      (c.buffer.take c.used).drop stop := by
  have hle : c.used - stop ≤ (c.buffer.drop stop).length := by
    rw [List.length_drop]
    omega
  rw [queueAnswer, List.drop_take]
  exact List.take_append_of_le_length hle

theorem length_queueAnswer {stop : Nat} (json : List UInt8) (cmd : Option JsonCommand)
    (hstop : stop ≤ c.buffer.length) :
    (queueAnswer c stop json cmd).buffer.length = c.buffer.length := by
  rw [queueAnswer, List.length_append, List.length_drop, List.length_drop]
  omega

end Read

-- ---------------------------------------------------------------------------
-- What the runs keep
-- ---------------------------------------------------------------------------

/-- An answer to each of the pieces, in order. -/
def AnsweredTo (pieces : List Piece) (answers : List (JsonDispatch × List UInt8)) : Prop :=
  List.Forall₂ (fun piece answer => ∃ cmd, pieceAnswer piece answer.1 = .ok (some (answer.2, cmd)))
    pieces answers

/-- The bytes of the answers. -/
def answerText (answers : List (JsonDispatch × List UInt8)) : List UInt8 :=
  (answers.map Prod.snd).flatten

/-- The last of the pieces asked to stop. -/
def StopAsked (pieces : List Piece) : Prop :=
  ∃ piece dispatch json, pieces.getLast? = some piece ∧
    pieceAnswer piece dispatch = .ok (some (json, some .stop))

/-- Whose turn it is: the reader waits for bytes, it was woken, or the writer has something to
do. -/
inductive JconRun.Turn (r : JconRun) (qs rest : List Piece) : Prop
  | reading (hreader : r.conn.reader = .read) (hwriter : r.conn.writer = .wait)
      (houtput : r.conn.output = []) (hstop : r.conn.stop = false)
      (hsent : r.sent = answerText r.answers)
      (hquiet : ∀ more, more <+: rest → PiecesOk none more →
        textOf more = r.conn.buffer.take r.conn.used → asked more = [])
  | woken (hreader : r.conn.reader = .always) (hwriter : r.conn.writer = .wait)
      (houtput : r.conn.output = []) (hstop : r.conn.stop = false) (hlen : r.conn.lenRead = 0)
      (hsent : r.sent = answerText r.answers)
  | queued (hreader : r.conn.reader = .wait) (hwriter : r.conn.writer = .always)
      (hstop : r.conn.stop = true → StopAsked (asked qs)) (hlen : r.conn.lenRead = 0)
      (hsent : r.sent ++ r.conn.output.flatten = answerText r.answers)
      (hone : r.conn.output.length ≤ 1)
  | writing (hreader : r.conn.reader = .wait) (hwriter : r.conn.writer = .write r.conn.writer.unsent)
      (houtput : r.conn.output = [])
      (hstop : r.conn.stop = true → StopAsked (asked qs)) (hlen : r.conn.lenRead = 0)
      (hsent : r.sent ++ r.conn.writer.unsent = answerText r.answers)

/-- Both sides run, and the pieces `qs` are dealt with. -/
structure JconRun.Live (r : JconRun) (qs rest : List Piece) : Prop where
  conns : r.conn.numConns = 2
  whole : r.conn.broken = false
  room : r.conn.used + r.conn.lenRead ≤ r.conn.buffer.length
  pos : 0 < r.conn.buffer.length
  ok : PiecesOk none qs
  heard : r.heard = textOf qs ++ r.conn.buffer.take r.conn.used
  answers : AnsweredTo (asked qs) r.answers
  turn : r.Turn qs rest

/-- The first piece that is not answered was refused. -/
def JconRun.Refused (r : JconRun) (ps : List Piece) : Prop :=
  ∃ qs piece rest dispatch, ps = qs ++ piece :: rest ∧ textOf (qs ++ [piece]) <+: r.heard ∧
    AnsweredTo (asked qs) r.answers ∧ piece.tops = 1 ∧ pieceAnswer piece dispatch = .ok none

/-- A side counts until it is gone. -/
def ConnPlan.here : ConnPlan → Nat
  | .gone => 0
  | _ => 1

/-- Of the other side, only the last steps are to come: it waits to be woken, or sees that this
one has closed. -/
def ConnPlan.Idle (conns : Nat) (plan : ConnPlan) : Prop :=
  plan = .wait ∧ conns = 2 ∨ plan = .always ∧ conns ≠ 2 ∨ plan = .close ∨ plan = .gone

/-- A side has closed, and the other one will not read or write again. -/
structure JsonConnection.Closing (c : JsonConnection) : Prop where
  count : c.numConns = c.reader.here + c.writer.here
  sides : (c.reader = .close ∨ c.reader = .gone) ∧ c.output = [] ∧ c.stop = false ∧
      c.writer.Idle c.numConns ∨
    (c.writer = .close ∨ c.writer = .gone) ∧ c.reader.Idle c.numConns

/-- The connection is at its end, and why. -/
structure JconRun.Over (r : JconRun) (ps qs : List Piece) : Prop where
  heard : textOf qs <+: r.heard
  answers : AnsweredTo (asked qs) r.answers
  sent : r.sent <+: answerText r.answers
  why : r.failed = true ∨ r.Refused ps ∨ r.conn.broken = true
  stopped : r.conn.broken = true → r.sent = answerText r.answers ∧ StopAsked (asked qs)
  closing : r.conn.Closing

/-- Where a run is. -/
def JconRun.At (ps : List Piece) (r : JconRun) : Prop :=
  ∃ qs rest, ps = qs ++ rest ∧ (r.Live qs rest ∨ r.Over ps qs)

section Steps

variable {ps qs rest : List Piece} {c : JsonConnection} {r : JconRun} {heard sent : List UInt8}
  {answers : List (JsonDispatch × List UInt8)}

theorem eq_nil_of_textOf {next : Option UInt8} (hok : PiecesOk next ps) (h : textOf ps = []) :
    ps = [] := by
  cases ps with
  | nil => rfl
  | cons piece ps =>
    obtain ⟨b, bs, hhead, -⟩ := hok.1.head
    rw [textOf, hhead] at h
    cases h

theorem answerText_append (more : List (JsonDispatch × List UInt8)) :
    answerText (answers ++ more) = answerText answers ++ answerText more := by
  rw [answerText, List.map_append, List.flatten_append]
  rfl

/-- The reader runs: the writer waits, and everything is sent. -/
structure ReaderDue (ps qs rest : List Piece) (c : JsonConnection) (heard : List UInt8)
    (answers : List (JsonDispatch × List UInt8)) : Prop where
  split : ps = qs ++ rest
  conns : c.numConns = 2
  whole : c.broken = false
  room : c.used + c.lenRead ≤ c.buffer.length
  pos : 0 < c.buffer.length
  writer : c.writer = .wait
  output : c.output = []
  stop : c.stop = false
  ok : PiecesOk none qs
  heard : heard = textOf qs ++ c.buffer.take (c.used + c.lenRead)
  answers : AnsweredTo (asked qs) answers

/-- The run after the reader has made `c'` of the connection. -/
def readerRun (c' : JsonConnection) (heard : List UInt8) (cuts : List (List UInt8))
    (answers : List (JsonDispatch × List UInt8)) (dispatch : JsonDispatch) (failed : Bool) : JconRun :=
  ⟨c', heard, cuts, answers ++ [dispatch].zip c'.output, answerText answers, failed⟩

section ReaderDue

variable {blanks rest' : List Piece} {piece : Piece} {fresh : List UInt8} {dispatch : JsonDispatch}
  {cuts : List (List UInt8)} {failed : Bool}

/-- Where nothing is queued there is no other answer. -/
theorem readerRun_of_output (h : c.output = []) :
    readerRun c heard cuts answers dispatch failed
      = ⟨c, heard, cuts, answers, answerText answers, failed⟩ := by
  rw [readerRun, h, List.zip_nil_right, List.append_nil]

/-- More is needed. -/
theorem ReaderDue.more (h : ReaderDue ps qs rest c heard answers)
    (hfresh : fresh.length = c.buffer.length)
    (hmore : ¬ Complete (c.buffer.take (c.used + c.lenRead))) :
    (readerRun (readMore (grown c fresh)) heard cuts answers dispatch failed).Live qs rest := by
  have hlt := used_lt_grown h.room h.pos hfresh
  have htake := take_grown fresh h.room
  have hnone : (readMore (grown c fresh)).output = [] := h.output
  have hroom : (grown c fresh).buffer.length - (grown c fresh).used ≠ 0 := by omega
  rw [readerRun_of_output hnone]
  refine ⟨h.conns, h.whole, ?_, Nat.zero_lt_of_lt hlt, h.ok, ?_, h.answers,
    .reading (if_neg hroom) h.writer hnone h.stop rfl fun more _ hpieces hbegun => ?_⟩
  · show (grown c fresh).used + ((grown c fresh).buffer.length - (grown c fresh).used) ≤
      (grown c fresh).buffer.length
    omega
  · show heard = textOf qs ++ (grown c fresh).buffer.take (grown c fresh).used
    rw [h.heard, htake]
  · refine absurd ⟨more, hpieces, ?_⟩ hmore
    rw [hbegun, ← htake]
    rfl

/-- There are blanks only. -/
theorem ReaderDue.onlyBlanks (h : ReaderDue ps qs (blanks ++ rest') c heard answers)
    (hfresh : fresh.length = c.buffer.length) (hblanks : PiecesOk none blanks)
    (hsame : textOf blanks = c.buffer.take (c.used + c.lenRead)) (hnot : asked blanks = []) :
    (readerRun (readMore { grown c fresh with used := 0 }) heard cuts answers dispatch failed).Live
      (qs ++ blanks) rest' := by
  have hlt := used_lt_grown h.room h.pos hfresh
  have hnone : (readMore { grown c fresh with used := 0 }).output = [] := h.output
  have hroom : (grown c fresh).buffer.length - 0 ≠ 0 := by omega
  rw [readerRun_of_output hnone]
  refine ⟨h.conns, h.whole, ?_, Nat.zero_lt_of_lt hlt, piecesOk_append.mpr ⟨h.ok.mono, hblanks⟩, ?_,
    ?_, .reading (if_neg hroom) h.writer hnone h.stop rfl fun more _ hpieces hbegun => ?_⟩
  · show 0 + ((grown c fresh).buffer.length - 0) ≤ (grown c fresh).buffer.length
    omega
  · show heard = textOf (qs ++ blanks) ++ []
    rw [h.heard, textOf_append, hsame, List.append_nil]
  · rw [asked_append, hnot, List.append_nil]
    exact h.answers
  · rw [eq_nil_of_textOf hpieces hbegun]
    rfl

/-- The first request is refused. -/
theorem ReaderDue.refused (h : ReaderDue ps qs (blanks ++ piece :: rest') c heard answers)
    (hnot : asked blanks = []) (hpiece : piece.tops = 1)
    (hwhole : textOf (blanks ++ [piece]) <+: c.buffer.take (c.used + c.lenRead))
    (hrefused : pieceAnswer piece dispatch = .ok none) :
    (readerRun { grown c fresh with reader := .close } heard cuts answers dispatch failed).Over
      ps qs := by
  have hnone : ({ grown c fresh with reader := .close } : JsonConnection).output = [] := h.output
  have hin : textOf (qs ++ (blanks ++ [piece])) <+: heard := by
    rw [textOf_append, h.heard]
    exact (List.prefix_append_right_inj _).mpr hwhole
  rw [readerRun_of_output hnone]
  refine ⟨?_, h.answers, List.prefix_refl _,
    .inr (.inl ⟨qs ++ blanks, piece, rest', dispatch, ?_, ?_, ?_, hpiece, hrefused⟩),
    fun hbroken => absurd (h.whole.symm.trans hbroken) Bool.false_ne_true, ?_,
    .inl ⟨.inl rfl, h.output, h.stop, .inl ⟨h.writer, h.conns⟩⟩⟩
  · rw [textOf_append] at hin
    exact (List.prefix_append _ _).trans hin
  · rw [h.split, List.append_assoc]
  · rw [List.append_assoc]
    exact hin
  · rw [asked_append, hnot, List.append_nil]
    exact h.answers
  · show c.numConns = 1 + c.writer.here
    rw [h.conns, h.writer]
    rfl

/-- The first request is answered. -/
theorem ReaderDue.queued (h : ReaderDue ps qs (blanks ++ piece :: rest') c heard answers)
    (hfresh : fresh.length = c.buffer.length) (hnot : asked blanks = []) (hpiece : piece.tops = 1)
    (hwhole : textOf (blanks ++ [piece]) <+: c.buffer.take (c.used + c.lenRead))
    (hend : PiecesOk none (blanks ++ [piece])) {json : List UInt8} {cmd : Option JsonCommand}
    (hanswer : pieceAnswer piece dispatch = .ok (some (json, cmd))) :
    (readerRun (queueAnswer (grown c fresh) (textOf (blanks ++ [piece])).length json cmd) heard cuts
      answers dispatch failed).Live (qs ++ (blanks ++ [piece])) rest' := by
  have hlt := used_lt_grown h.room h.pos hfresh
  have htake := take_grown fresh h.room
  have hnone : (grown c fresh).output = [] := h.output
  have hstop : (textOf (blanks ++ [piece])).length ≤ (grown c fresh).used := by
    have hle := hwhole.length_le
    rw [← htake, List.length_take] at hle
    omega
  have hasked : asked (qs ++ (blanks ++ [piece])) = asked qs ++ [piece] := by
    rw [asked_append, asked_append, hnot, List.nil_append]
    exact congrArg (asked qs ++ ·) (List.filter_cons_of_pos (decide_eq_true hpiece))
  have hqueued : [dispatch].zip (queueAnswer (grown c fresh) (textOf (blanks ++ [piece])).length
      json cmd).output = [(dispatch, json)] := by
    rw [queueAnswer, hnone]
    rfl
  have hlen := length_queueAnswer json cmd (hstop.trans hlt.le)
  refine ⟨h.conns, h.whole, ?_, ?_, piecesOk_append.mpr ⟨h.ok.mono, hend⟩, ?_, ?_,
    .queued rfl ?_ (fun hset => ?_) rfl ?_ ?_⟩
  · show (queueAnswer _ _ json cmd).used + 0 ≤ (queueAnswer _ _ json cmd).buffer.length
    rw [hlen]
    show (grown c fresh).used - _ + 0 ≤ _
    omega
  · show 0 < (queueAnswer _ _ json cmd).buffer.length
    rw [hlen]
    exact Nat.zero_lt_of_lt hlt
  · obtain ⟨behind, hbehind⟩ := hwhole
    show heard = _ ++ (queueAnswer _ _ json cmd).buffer.take (queueAnswer _ _ json cmd).used
    rw [take_queueAnswer hstop hlt.le, htake, ← hbehind, List.drop_left, h.heard,
      (textOf_append : textOf (qs ++ (blanks ++ [piece])) = _), ← hbehind, List.append_assoc]
  · rw [hasked]
    show AnsweredTo _ (answers ++ [dispatch].zip (queueAnswer _ _ json cmd).output)
    rw [hqueued]
    exact List.rel_append h.answers (.cons ⟨cmd, hanswer⟩ .nil)
  · exact congrArg ConnPlan.wake h.writer
  · have hcmd : cmd = some .stop := by
      have hor : (c.stop || decide (cmd = some JsonCommand.stop)) = true := hset
      rw [h.stop, Bool.false_or] at hor
      exact of_decide_eq_true hor
    refine ⟨piece, dispatch, json, ?_, hcmd ▸ hanswer⟩
    rw [hasked, List.getLast?_concat]
  · show answerText answers ++ (queueAnswer _ _ json cmd).output.flatten
      = answerText (answers ++ [dispatch].zip (queueAnswer _ _ json cmd).output)
    rw [hqueued, answerText_append, queueAnswer, hnone]
    simp [answerText]
  · show ((grown c fresh).output ++ [json]).length ≤ 1
    rw [hnone]
    exact Nat.le_refl _

end ReaderDue

/-- What the reader makes of it. -/
theorem readJson_at (fresh : List UInt8) (dispatch : JsonDispatch)
    (h : ReaderDue ps qs rest c heard answers) (hok : PiecesOk none ps)
    (hkeyed : ∀ members, .group true members ∈ ps → Keyed false members)
    (hfresh : fresh.length = c.buffer.length) (hbegun : heard <+: textOf ps)
    (hescape : ¬ EndsInEscape heard) :
    ∃ c', readJson c fresh dispatch = .ok c' ∧ ∀ cuts failed,
      JconRun.At ps (readerRun c' heard cuts answers dispatch failed) := by
  have hrest : PiecesOk none rest := by
    rw [h.split] at hok
    exact (piecesOk_append.mp hok).2
  have htext : c.buffer.take (c.used + c.lenRead) <+: textOf rest := by
    rw [h.heard, h.split, textOf_append] at hbegun
    exact (List.prefix_append_right_inj _).mp hbegun
  rcases readJson_cases dispatch h.conns h.room h.pos hfresh htext hrest
      (fun members hmem => hkeyed members (h.split ▸ List.mem_append_right qs hmem))
      (fun hcut => hescape (h.heard ▸ hcut.behind h.ok)) with
    ⟨hmore, hread⟩ | ⟨blanks, rest', rfl, hblanks, hsame, hnot, hread⟩ |
    ⟨blanks, piece, rest', rfl, hnot, hpiece, hwhole,
      ⟨hrefused, hread⟩ | ⟨json, cmd, hanswer, hend, hread⟩⟩
  · exact ⟨_, hread, fun cuts failed => ⟨qs, rest, h.split, .inl (h.more hfresh hmore)⟩⟩
  · refine ⟨_, hread, fun cuts failed => ⟨qs ++ blanks, rest', ?_,
      .inl (h.onlyBlanks hfresh hblanks hsame hnot)⟩⟩
    rw [h.split, List.append_assoc]
  · exact ⟨_, hread, fun cuts failed => ⟨qs, _, h.split, .inr (h.refused hnot hpiece hwhole hrefused)⟩⟩
  · refine ⟨_, hread, fun cuts failed => ⟨qs ++ (blanks ++ [piece]), rest', ?_,
      .inl (h.queued hfresh hnot hpiece hwhole hend hanswer)⟩⟩
    rw [h.split, List.append_assoc, List.append_assoc, List.singleton_append]

/-- When the writer has done a write, the reader waits. -/
theorem writeJson_at {cuts : List (List UInt8)} {failed : Bool} (hps : ps = qs ++ rest)
    (hconns : c.numConns = 2) (hwhole : c.broken = false)
    (hroom : c.used + c.lenRead ≤ c.buffer.length) (hpos : 0 < c.buffer.length)
    (hreader : c.reader = .wait) (hstop : c.stop = true → StopAsked (asked qs))
    (hlen : c.lenRead = 0) (hone : c.output.length ≤ 1) (hqs : PiecesOk none qs)
    (hheard : heard = textOf qs ++ c.buffer.take c.used) (hanswers : AnsweredTo (asked qs) answers)
    (hsent : sent ++ c.output.flatten = answerText answers) :
    JconRun.At ps ⟨writeJson c, heard, cuts, answers, sent, failed⟩ := by
  refine ⟨qs, rest, hps, ?_⟩
  cases hout : c.output with
  | nil =>
    rw [hout, List.flatten_nil, List.append_nil] at hsent
    cases hset : c.stop with
    | true =>
      have hwrite : writeJson c = { c with writer := .close, broken := true } := by
        rw [writeJson, hout]
        exact if_pos hset
      rw [hwrite]
      exact .inr ⟨hheard ▸ List.prefix_append _ _, hanswers, hsent ▸ List.prefix_refl _,
        .inr (.inr rfl), fun _ => ⟨hsent, hstop hset⟩,
        ⟨by rw [hconns, hreader]; rfl, .inr ⟨.inl rfl, .inl ⟨hreader, hconns⟩⟩⟩⟩
    | false =>
      have hwrite : writeJson c = { c with reader := .always, writer := .wait } := by
        rw [writeJson, hout]
        dsimp only
        rw [hset, if_neg Bool.false_ne_true, if_neg (fun hne => hne hconns), hreader]
        rfl
      rw [hwrite]
      exact .inl ⟨hconns, hwhole, hroom, hpos, hqs, hheard, hanswers,
        .woken rfl rfl hout hset hlen hsent⟩
  | cons json output =>
    have hempty : output = [] := by
      rw [hout, List.length_cons] at hone
      exact List.length_eq_zero_iff.mp (by omega)
    rw [hout, hempty, List.flatten_cons, List.flatten_nil, List.append_nil] at hsent
    have hwrite : writeJson c = { c with output := [], writer := ioWrite json } := by
      rw [writeJson, hout, hempty]
    rw [hwrite]
    by_cases hjson : json = []
    · rw [ioWrite, if_pos hjson]
      rw [hjson, List.append_nil] at hsent
      exact .inl ⟨hconns, hwhole, hroom, hpos, hqs, hheard, hanswers,
        .queued hreader rfl hstop hlen (by rw [List.flatten_nil, List.append_nil]; exact hsent)
          (Nat.zero_le _)⟩
    · rw [ioWrite, if_neg hjson]
      exact .inl ⟨hconns, hwhole, hroom, hpos, hqs, hheard, hanswers,
        .writing hreader rfl rfl hstop hlen hsent⟩

/-- What does not read leaves what was heard and answered as it is. -/
theorem after_unread {e : JconEvent} (hbytes : e.bytes = []) (hdispatch : e.dispatch = []) :
    r.after e c = ⟨c, r.heard, r.cuts ++ [r.heard], r.answers,
      r.sent ++ e.taken r.conn.writer.unsent, r.failed || e.fails⟩ := by
  rw [JconRun.after, hbytes, hdispatch, List.append_nil, List.zip_nil_left, List.append_nil]

/-- And what does not write what was sent. -/
theorem after_quiet {e : JconEvent} (hbytes : e.bytes = []) (hdispatch : e.dispatch = [])
    (htaken : e.taken r.conn.writer.unsent = []) :
    r.after e c = ⟨c, r.heard, r.cuts ++ [r.heard], r.answers, r.sent, r.failed || e.fails⟩ := by
  rw [after_unread hbytes hdispatch, htaken, List.append_nil]

/-- The reader runs after these bytes have come in. -/
theorem JconRun.Live.readerDue (h : r.Live qs rest) (hps : ps = qs ++ rest)
    (hreader : r.conn.reader = .read) {bytes : List UInt8}
    (hbytes : r.conn.used + bytes.length ≤ r.conn.buffer.length) :
    ReaderDue ps qs rest (arrive r.conn bytes) (r.heard ++ bytes) r.answers := by
  have hlength := length_arrive hbytes
  cases h.turn with
  | reading hread hwriter houtput hstop hsent hquiet =>
    refine ⟨hps, h.conns, h.whole, hlength.symm ▸ hbytes, hlength.symm ▸ h.pos, hwriter, houtput, hstop,
      h.ok, ?_, h.answers⟩
    rw [take_arrive hbytes, ← List.append_assoc, ← h.heard]
  | woken hread | queued hread | writing hread => rw [hread] at hreader; cases hreader

/-- It runs once more for what it has, when it was woken. -/
theorem JconRun.Live.readerWoken (h : r.Live qs rest) (hps : ps = qs ++ rest)
    (hreader : r.conn.reader = .always) : ReaderDue ps qs rest r.conn (r.heard ++ []) r.answers := by
  cases h.turn with
  | woken hread hwriter houtput hstop hlen hsent =>
    refine ⟨hps, h.conns, h.whole, h.room, h.pos, hwriter, houtput, hstop, h.ok, ?_, h.answers⟩
    rw [hlen, Nat.add_zero, List.append_nil]
    exact h.heard
  | reading hread | queued hread | writing hread => rw [hread] at hreader; cases hreader

/-- Until the writer is woken, everything is sent. -/
theorem JconRun.Live.sent_of_wait (h : r.Live qs rest) (hwriter : r.conn.writer = .wait) :
    r.sent = answerText r.answers ∧ r.conn.output = [] := by
  cases h.turn with
  | reading _ _ houtput _ hsent | woken _ _ houtput _ _ hsent => exact ⟨hsent, houtput⟩
  | queued _ hwait | writing _ hwait => rw [hwait] at hwriter; cases hwriter

/-- A step of the reader, as a step of the run. -/
theorem JconRun.Live.after_read {e : JconEvent} {dispatch : JsonDispatch} {c' : JsonConnection}
    (h : r.Live qs rest) (hwriter : r.conn.writer = .wait) (hdispatch : e.dispatch = [dispatch])
    (htaken : e.taken r.conn.writer.unsent = []) :
    r.after e c' = readerRun c' (r.heard ++ e.bytes) (r.cuts ++ [r.heard ++ e.bytes]) r.answers
      dispatch (r.failed || e.fails) := by
  obtain ⟨hsent, houtput⟩ := h.sent_of_wait hwriter
  rw [JconRun.after, readerRun, hdispatch, htaken, houtput, hsent, List.append_nil]
  rfl

/-- The connection is lost while the reader waits for bytes. -/
theorem JconRun.Live.readFailed (h : r.Live qs rest) (hreader : r.conn.reader = .read) :
    (r.after .readFailed { r.conn with reader := .close }).Over ps qs := by
  rw [after_quiet rfl rfl rfl]
  cases h.turn with
  | reading hread hwriter houtput hstop hsent hquiet =>
    exact {
      heard := h.heard ▸ List.prefix_append _ _
      answers := h.answers
      sent := hsent ▸ List.prefix_refl _
      why := .inl (Bool.or_true _)
      stopped := fun hbroken => absurd (h.whole.symm.trans hbroken) Bool.false_ne_true
      closing := ⟨by rw [h.conns, hwriter]; rfl,
        .inl ⟨.inl rfl, houtput, hstop, .inl ⟨hwriter, h.conns⟩⟩⟩ }
  | woken hread | queued hread | writing hread => rw [hread] at hreader; cases hreader

/-- The writer goes on with what is left, or with the next answer. -/
theorem JconRun.Live.wrote (h : r.Live qs rest) (hps : ps = qs ++ rest) {n : Nat}
    (hunsent : r.conn.writer.unsent ≠ []) : (r.after (.wrote n) (wrote r.conn n)).At ps := by
  cases h.turn with
  | writing hread hwriter houtput hstop hlen hsent =>
    rw [after_unread rfl rfl, Pettycoin.wrote]
    split_ifs with hdone
    · refine writeJson_at hps h.conns h.whole h.room h.pos hread hstop hlen
        (by rw [houtput]; exact Nat.zero_le _) h.ok h.heard h.answers ?_
      have htake := List.take_append_drop n r.conn.writer.unsent
      rw [hdone, List.append_nil] at htake
      rw [JconEvent.taken, htake, houtput, List.flatten_nil, List.append_nil]
      exact hsent
    · refine ⟨qs, rest, hps, .inl ⟨h.conns, h.whole, h.room, h.pos, h.ok, h.heard, h.answers,
        .writing hread rfl houtput hstop hlen ?_⟩⟩
      show r.sent ++ r.conn.writer.unsent.take n ++ r.conn.writer.unsent.drop n = _
      rw [List.append_assoc, List.take_append_drop]
      exact hsent
  | reading _ hwriter | woken _ hwriter | queued _ hwriter =>
    rw [hwriter] at hunsent
    exact absurd rfl hunsent

/-- The connection is lost while an answer is sent. -/
theorem JconRun.Live.writeFailed (h : r.Live qs rest) (hunsent : r.conn.writer.unsent ≠ []) :
    (r.after .writeFailed { r.conn with writer := .close }).Over ps qs := by
  rw [after_quiet rfl rfl rfl]
  cases h.turn with
  | writing hread hwriter houtput hstop hlen hsent =>
    exact {
      heard := h.heard ▸ List.prefix_append _ _
      answers := h.answers
      sent := hsent ▸ List.prefix_append _ _
      why := .inl (Bool.or_true _)
      stopped := fun hbroken => absurd (h.whole.symm.trans hbroken) Bool.false_ne_true
      closing := ⟨by rw [h.conns, hread]; rfl, .inr ⟨.inl rfl, .inl ⟨hread, h.conns⟩⟩⟩ }
  | reading _ hwriter | woken _ hwriter | queued _ hwriter =>
    rw [hwriter] at hunsent
    exact absurd rfl hunsent

/-- The writer was woken for an answer. -/
theorem JconRun.Live.writeAgain (h : r.Live qs rest) (hps : ps = qs ++ rest)
    (halways : r.conn.writer = .always) : (r.after .writeAgain (writeJson r.conn)).At ps := by
  rw [after_quiet rfl rfl rfl]
  cases h.turn with
  | queued hread hwriter hstop hlen hsent hone =>
    exact writeJson_at hps h.conns h.whole h.room h.pos hread hstop hlen hone h.ok h.heard h.answers
      hsent
  | reading _ hwriter | woken _ hwriter | writing _ hwriter =>
    rw [hwriter] at halways
    cases halways

/-- Neither side has closed. -/
theorem JconRun.Live.not_closed (h : r.Live qs rest) :
    r.conn.reader ≠ .close ∧ r.conn.writer ≠ .close := by
  cases h.turn with
  | reading hread hwriter | woken hread hwriter | queued hread hwriter | writing hread hwriter =>
    rw [hread, hwriter]
    exact ⟨by rintro ⟨⟩, by rintro ⟨⟩⟩

/-- One step, while both sides run. -/
theorem JconRun.Live.step {e : JconEvent} (h : r.Live qs rest) (hps : ps = qs ++ rest)
    (hok : PiecesOk none ps) (hkeyed : ∀ members, .group true members ∈ ps → Keyed false members)
    (he : e.Possible r.conn) (hbegun : r.heard ++ e.bytes <+: textOf ps)
    (hescape : ¬ EndsInEscape (r.heard ++ e.bytes)) :
    ∃ c, jconStep r.conn e = .ok c ∧ (r.after e c).At ps := by
  cases e with
  | arrived bytes fresh dispatch =>
    obtain ⟨-, hreader, -, hbytes, hfresh⟩ := he
    have hroom := h.room
    have hin : r.conn.used + bytes.length ≤ r.conn.buffer.length := by omega
    have hdue := h.readerDue hps hreader hin
    obtain ⟨c, hc, hat⟩ := readJson_at fresh dispatch hdue hok hkeyed
      (hfresh.trans (length_arrive hin).symm) hbegun hescape
    refine ⟨c, hc, ?_⟩
    rw [h.after_read hdue.writer
      (rfl : (JconEvent.arrived bytes fresh dispatch).dispatch = [dispatch]) rfl]
    exact hat _ _
  | readFailed => exact ⟨_, rfl, qs, rest, hps, .inr (h.readFailed he.2)⟩
  | readAgain fresh dispatch =>
    obtain ⟨-, hreader, hfresh⟩ := he
    have hdue := h.readerWoken hps hreader
    obtain ⟨c, hc, hat⟩ := readJson_at fresh dispatch hdue hok hkeyed hfresh hbegun hescape
    refine ⟨c, hc, ?_⟩
    rw [h.after_read hdue.writer
      (rfl : (JconEvent.readAgain fresh dispatch).dispatch = [dispatch]) rfl]
    exact hat _ _
  | wrote n => exact ⟨_, rfl, h.wrote hps he.2.2⟩
  | writeFailed => exact ⟨_, rfl, qs, rest, hps, .inr (h.writeFailed he.2)⟩
  | writeAgain => exact ⟨_, rfl, h.writeAgain hps he.2⟩
  | readerClosed => exact absurd he.2 h.not_closed.1
  | writerClosed => exact absurd he.2 h.not_closed.2

/-- Of the side that goes on, only the last steps are to come. -/
theorem JsonConnection.Closing.idle (h : c.Closing) :
    c.reader ≠ .read ∧ c.writer.unsent = [] ∧
    (c.reader = .always → (c.writer = .close ∨ c.writer = .gone) ∧ c.numConns ≠ 2) ∧
    (c.writer = .always → (c.reader = .close ∨ c.reader = .gone) ∧ c.output = [] ∧ c.stop = false ∧
      c.numConns ≠ 2) := by
  obtain ⟨-, ⟨hreader, houtput, hstop, hwriter⟩ | ⟨hwriter, hreader⟩⟩ := h
  · rcases hreader with hreader | hreader <;>
    rcases hwriter with ⟨hwriter, hconns⟩ | ⟨hwriter, hconns⟩ | hwriter | hwriter <;>
    simp_all [ConnPlan.unsent]
  · rcases hwriter with hwriter | hwriter <;>
    rcases hreader with ⟨hreader, hconns⟩ | ⟨hreader, hconns⟩ | hreader | hreader <;>
    simp_all [ConnPlan.unsent]

/-- Neither side waits for one that is gone, or that waits itself. -/
theorem JsonConnection.Closing.awake (h : c.Closing) :
    (c.reader = .wait → c.writer ≠ .wait ∧ c.writer ≠ .gone) ∧
    (c.writer = .wait → c.reader ≠ .wait ∧ c.reader ≠ .gone) := by
  obtain ⟨hcount, ⟨hreader, houtput, hstop, hwriter⟩ | ⟨hwriter, hreader⟩⟩ := h
  · rcases hreader with hreader | hreader <;>
    rcases hwriter with ⟨hwriter, hconns⟩ | ⟨hwriter, hconns⟩ | hwriter | hwriter <;>
    simp_all [ConnPlan.here]
  · rcases hwriter with hwriter | hwriter <;>
    rcases hreader with ⟨hreader, hconns⟩ | ⟨hreader, hconns⟩ | hreader | hreader <;>
    simp_all [ConnPlan.here]

/-- The reader is gone, and the writer is woken to see it. -/
theorem JsonConnection.Closing.reader_gone (h : c.Closing) (hclose : c.reader = .close) :
    (freeJcon { c with reader := .gone }).Closing := by
  obtain ⟨hcount, ⟨hreader, houtput, hstop, hwriter⟩ | ⟨hwriter, hreader⟩⟩ := h
  · rcases hwriter with ⟨hwriter, hconns⟩ | ⟨hwriter, hconns⟩ | hwriter | hwriter <;>
    constructor <;> simp_all [freeJcon, ConnPlan.here, ConnPlan.wake, ConnPlan.Idle]
  · rcases hwriter with hwriter | hwriter <;>
    constructor <;> simp_all [freeJcon, ConnPlan.here, ConnPlan.wake, ConnPlan.Idle]

/-- And the other way round. -/
theorem JsonConnection.Closing.writer_gone (h : c.Closing) (hclose : c.writer = .close) :
    (freeJcon { c with writer := .gone }).Closing := by
  obtain ⟨hcount, ⟨hreader, houtput, hstop, hwriter⟩ | ⟨hwriter, hreader⟩⟩ := h
  · rcases hreader with hreader | hreader <;>
    constructor <;> simp_all [freeJcon, ConnPlan.here, ConnPlan.wake, ConnPlan.Idle]
  · rcases hreader with ⟨hreader, hconns⟩ | ⟨hreader, hconns⟩ | hreader | hreader <;>
    constructor <;> simp_all [freeJcon, ConnPlan.here, ConnPlan.wake, ConnPlan.Idle]

/-- What is over stays over. -/
theorem JconRun.Over.keep {e : JconEvent} (h : r.Over ps qs) (hbytes : e.bytes = [])
    (houtput : c.output = r.conn.output) (htaken : e.taken r.conn.writer.unsent = [])
    (hbroken : c.broken = r.conn.broken) (hclosing : c.Closing) : (r.after e c).Over ps qs := by
  have hafter : r.after e c =
      ⟨c, r.heard, r.cuts ++ [r.heard], r.answers, r.sent, r.failed || e.fails⟩ := by
    rw [JconRun.after, hbytes, htaken, houtput, List.append_nil, List.drop_length, List.zip_nil_right,
      List.append_nil, List.append_nil]
  rw [hafter]
  refine ⟨h.heard, h.answers, h.sent, ?_, fun hb => h.stopped (hbroken.symm.trans hb), hclosing⟩
  rcases h.why with hfailed | hrefused | hb
  · exact .inl (by rw [hfailed, Bool.true_or])
  · exact .inr (.inl hrefused)
  · exact .inr (.inr (hbroken.trans hb))

/-- One step, at the end. -/
theorem JconRun.Over.step {e : JconEvent} (h : r.Over ps qs) (he : e.Possible r.conn) :
    ∃ c, jconStep r.conn e = .ok c ∧ (r.after e c).Over ps qs := by
  obtain ⟨hread, hunsent, hreader, hwriter⟩ := h.closing.idle
  cases e with
  | arrived bytes fresh dispatch => exact absurd he.2.1 hread
  | readFailed => exact absurd he.2 hread
  | wrote n => exact absurd hunsent he.2.2
  | writeFailed => exact absurd hunsent he.2
  | readAgain fresh dispatch =>
    obtain ⟨hclosed, hconns⟩ := hreader he.2.1
    refine ⟨{ r.conn with reader := .close }, ?_, h.keep rfl rfl rfl rfl ?_⟩
    · rw [jconStep, readJson, if_pos hconns]
    · refine ⟨?_, .inr ⟨hclosed, .inr (.inr (.inl rfl))⟩⟩
      rw [h.closing.count, he.2.1]
      rfl
  | writeAgain =>
    obtain ⟨hclosed, houtput, hstop, hconns⟩ := hwriter he.2
    refine ⟨{ r.conn with writer := .close }, ?_, h.keep rfl rfl rfl rfl ?_⟩
    · rw [jconStep, writeJson, houtput]
      dsimp only
      rw [hstop, if_neg Bool.false_ne_true, if_pos hconns, houtput]
    · refine ⟨?_, .inl ⟨hclosed, houtput, hstop, .inr (.inr (.inl rfl))⟩⟩
      rw [h.closing.count, he.2]
      rfl
  | readerClosed =>
    refine ⟨_, rfl, h.keep rfl ?_ rfl ?_ (h.closing.reader_gone he.2)⟩
    · unfold freeJcon; split_ifs <;> rfl
    · unfold freeJcon; split_ifs <;> rfl
  | writerClosed =>
    refine ⟨_, rfl, h.keep rfl ?_ rfl ?_ (h.closing.writer_gone he.2)⟩
    · unfold freeJcon; split_ifs <;> rfl
    · unfold freeJcon; split_ifs <;> rfl

/-- One step. -/
theorem JconRun.At.step {e : JconEvent} (h : r.At ps) (hok : PiecesOk none ps)
    (hkeyed : ∀ members, .group true members ∈ ps → Keyed false members) (he : e.Possible r.conn)
    (hbegun : r.heard ++ e.bytes <+: textOf ps) (hescape : ¬ EndsInEscape (r.heard ++ e.bytes)) :
    ∃ c, jconStep r.conn e = .ok c ∧ (r.after e c).At ps := by
  obtain ⟨qs, rest, hps, hlive | hover⟩ := h
  · exact hlive.step hps hok hkeyed he hbegun hescape
  · obtain ⟨c, hc, hat⟩ := hover.step he
    exact ⟨c, hc, qs, rest, hps, .inr hat⟩

/-- Every run is somewhere. -/
theorem JconReach.at (hr : JconReach r) (hok : PiecesOk none ps)
    (hkeyed : ∀ members, .group true members ∈ ps → Keyed false members)
    (hbegun : r.heard <+: textOf ps) (hcuts : ∀ cut ∈ r.cuts, ¬ EndsInEscape cut) : r.At ps := by
  induction hr with
  | @init memory hlen =>
    refine ⟨[], ps, rfl, .inl ⟨rfl, rfl, ?_, ?_, trivial, rfl, .nil, .reading rfl rfl rfl rfl rfl ?_⟩⟩
    · show 0 + 64 ≤ memory.length
      omega
    · show 0 < memory.length
      omega
    · intro more _ hmore hnone
      rw [eq_nil_of_textOf hmore hnone]
      rfl
  | @step r e c hr he hc ih =>
    have hlast : ¬ EndsInEscape (r.heard ++ e.bytes) :=
      hcuts _ (List.mem_append_right _ (List.mem_singleton_self _))
    have hat := ih ((List.prefix_append _ _).trans hbegun)
      fun cut hcut => hcuts cut (List.mem_append_left _ hcut)
    obtain ⟨c', hc', hat'⟩ := hat.step hok hkeyed he hbegun hlast
    obtain rfl := Except.ok.inj (hc'.symm.trans hc)
    exact hat'

/-- A side that has its turn, or waits for it, has not closed. -/
theorem JconRun.Turn.not_closed (h : r.Turn qs rest) :
    r.conn.reader ≠ .close ∧ r.conn.writer ≠ .close := by
  cases h with
  | reading hreader hwriter | woken hreader hwriter | queued hreader hwriter
  | writing hreader hwriter => rw [hreader, hwriter]; exact ⟨(by rintro ⟨⟩), (by rintro ⟨⟩)⟩

end Steps

-- ---------------------------------------------------------------------------
-- The answers
-- ---------------------------------------------------------------------------

/-- **Every request is answered once, in order.** Let a client send a stream of JSON texts, in
whatever parts it comes in, over whatever the memory held before, with whatever the commands
give, as long as no part ends inside of an escape. Then no step reads what is not there; the
answers are those to the first of its texts, in order; what is sent is the beginning of them, and
all of them, when the reader waits for bytes. When it does, and what came in ends with a text,
every text of it is answered; where it ends inside of one, those before may wait as well. No side
waits for one that will not wake it. A side closes only if a read or write failed, if the text
at hand is refused, or behind the answer to a `stop`, the last one, which is sent before. -/
theorem jsonConnection_answers {r : JconRun} {ps : List Piece} (hr : JconReach r)
    (hok : PiecesOk none ps) (hkeyed : ∀ members, .group true members ∈ ps → Keyed false members)
    (hbegun : r.heard <+: textOf ps) (hcuts : ∀ cut ∈ r.cuts, ¬ EndsInEscape cut) :
    (∀ e : JconEvent, e.Possible r.conn → r.heard ++ e.bytes <+: textOf ps →
      ¬ EndsInEscape (r.heard ++ e.bytes) → ∃ c, jconStep r.conn e = .ok c) ∧
    ∃ qs rest, ps = qs ++ rest ∧ textOf qs <+: r.heard ∧ AnsweredTo (asked qs) r.answers ∧
      r.sent <+: answerText r.answers ∧
      (r.conn.reader = .read → r.sent = answerText r.answers ∧
        ∀ whole, whole <+: ps → PiecesOk none whole → textOf whole = r.heard →
          asked whole = asked qs) ∧
      (r.conn.reader = .wait → r.conn.writer ≠ .wait ∧ r.conn.writer ≠ .gone) ∧
      (r.conn.reader = .close ∨ r.conn.writer = .close →
        r.failed = true ∨ r.Refused ps ∨ r.conn.broken = true) ∧
      (r.conn.broken = true → r.sent = answerText r.answers ∧ StopAsked (asked qs)) := by
  have hat := hr.at hok hkeyed hbegun hcuts
  refine ⟨fun e he hmore hescape => ?_, ?_⟩
  · obtain ⟨c, hc, -⟩ := hat.step hok hkeyed he hmore hescape
    exact ⟨c, hc⟩
  obtain ⟨qs, rest, hps, hlive | hover⟩ := hat
  · obtain ⟨-, hwhole, -, -, hqs, hheard, hanswers, hturn⟩ := hlive
    have hunbroken : r.conn.broken = true → r.sent = answerText r.answers ∧ StopAsked (asked qs) :=
      fun hbroken => absurd (hwhole.symm.trans hbroken) Bool.false_ne_true
    have hopen := not_or.mpr hturn.not_closed
    refine ⟨qs, rest, hps, hheard ▸ List.prefix_append _ _, hanswers, ?_⟩
    cases hturn with
    | reading hread hwriter houtput hstop hsent hquiet =>
      refine ⟨hsent ▸ List.prefix_refl _, fun _ => ⟨hsent, fun whole hwhole' hpieces htext => ?_⟩,
        fun hwait => absurd (hread.symm.trans hwait) (by rintro ⟨⟩), fun hclose => absurd hclose hopen,
        hunbroken⟩
      · rcases List.prefix_or_prefix_of_prefix hwhole' (hps ▸ List.prefix_append qs rest) with
          ⟨more, hmore⟩ | ⟨more, hmore⟩
        · -- what is dealt with is all of it
          rw [← hmore, textOf_append, ← htext, List.append_assoc] at hheard
          have hnone := (List.append_eq_nil_iff.mp (List.append_cancel_left
            ((List.append_nil _).trans hheard)).symm).1
          rw [← hmore, asked_append,
            eq_nil_of_textOf (piecesOk_append.mp (hmore ▸ hqs)).2 hnone]
          exact (List.append_nil _).symm
        · rw [← hmore, asked_append, hquiet more ?_ (piecesOk_append.mp (hmore ▸ hpieces)).2 ?_,
            List.append_nil]
          · rw [← hmore, hps] at hwhole'
            exact (List.prefix_append_right_inj _).mp hwhole'
          · rw [← hmore, textOf_append, hheard] at htext
            exact List.append_cancel_left htext
    | woken hread hwriter houtput hstop hlen hsent =>
      exact ⟨hsent ▸ List.prefix_refl _,
        fun hreading => absurd (hread.symm.trans hreading) (by rintro ⟨⟩),
        fun hwait => absurd (hread.symm.trans hwait) (by rintro ⟨⟩),
        fun hclose => absurd hclose hopen, hunbroken⟩
    | queued hread hwriter hstop hlen hsent hone =>
      exact ⟨hsent ▸ List.prefix_append _ _,
        fun hreading => absurd (hread.symm.trans hreading) (by rintro ⟨⟩),
        fun _ => by rw [hwriter]; exact ⟨(by rintro ⟨⟩), (by rintro ⟨⟩)⟩,
        fun hclose => absurd hclose hopen, hunbroken⟩
    | writing hread hwriter houtput hstop hlen hsent =>
      exact ⟨hsent ▸ List.prefix_append _ _,
        fun hreading => absurd (hread.symm.trans hreading) (by rintro ⟨⟩),
        fun _ => by rw [hwriter]; exact ⟨(by rintro ⟨⟩), (by rintro ⟨⟩)⟩,
        fun hclose => absurd hclose hopen, hunbroken⟩
  · exact ⟨qs, rest, hps, hover.heard, hover.answers, hover.sent,
      fun hread => absurd hread hover.closing.idle.1, hover.closing.awake.1, fun _ => hover.why,
      hover.stopped⟩

/-- A request for a command that there is not. -/
def unknownRequest : Piece :=
  .group true [.string (cstr "id"), .blank 58, .string (cstr "1"), .blank 44,
    .string (cstr "method"), .blank 58, .string (cstr "x"), .blank 44, .string (cstr "params"),
    .blank 58, .group false []]

/-- The answer to a request for a command that there is not. -/
def unknownAnswer : List UInt8 :=
  errorAnswer (cstr "Unknown command 'x'") (cstr "\"1\"")

theorem stringText_plain : ∀ text : List UInt8,
    (∀ c ∈ text, c ≠ 0 ∧ c ≠ '"'.toUInt8 ∧ c ≠ '\\'.toUInt8) → StringText text
  | [], _ => .nil
  | c :: text, h => by
    obtain ⟨⟨hnul, hquote, hslash⟩, hrest⟩ := List.forall_mem_cons.mp h
    exact .char hnul hquote hslash (stringText_plain text hrest)

theorem unknownRequest_ok : PiecesOk none [unknownRequest] := by
  have hplain : ∀ s, (∀ c ∈ cstr s, c ≠ 0 ∧ c ≠ '"'.toUInt8 ∧ c ≠ '\\'.toUInt8) →
      StringText (cstr s) := fun s => stringText_plain _
  exact ⟨⟨hplain "id" (by decide +kernel), rfl, hplain "1" (by decide +kernel), rfl,
    hplain "method" (by decide +kernel), rfl, hplain "x" (by decide +kernel), rfl,
    hplain "params" (by decide +kernel), rfl, trivial, trivial⟩, trivial⟩

/-- The run behind an event, if its step returns. -/
def JconRun.next (r : JconRun) (e : JconEvent) : JconRun :=
  match jconStep r.conn e with
  | .ok c => r.after e c
  | .error _ => r

theorem JconReach.next {r : JconRun} (hr : JconReach r) {e : JconEvent} (he : e.Possible r.conn) :
    JconReach (r.next e) := by
  rw [JconRun.next]
  split
  · next c hc => exact hr.step he hc
  · exact hr

/-- The request comes in at once, and the answer goes out. -/
def unknownEvent : Nat → JconEvent
  | 0 => .arrived unknownRequest.text (List.replicate 64 0) fun _ _ => .ok []
  | 1 => .writeAgain
  | 2 => .wrote unknownAnswer.length
  | _ => .readAgain (List.replicate 64 0) fun _ _ => .ok []

/-- The run of the first events. -/
def unknownRun : Nat → JconRun
  | 0 => ⟨initRpc (List.replicate 64 0), [], [], [], [], false⟩
  | n + 1 => (unknownRun n).next (unknownEvent n)

theorem unknownRun_reach : JconReach (unknownRun 4) := by
  have h0 : JconReach (unknownRun 0) := .init rfl
  have h1 : JconReach (unknownRun 1) :=
    h0.next (e := unknownEvent 0) ⟨rfl, rfl, by decide +kernel, by decide +kernel, rfl⟩
  have h2 : JconReach (unknownRun 2) :=
    h1.next (e := unknownEvent 1) ⟨by decide +kernel, by decide +kernel⟩
  have h3 : JconReach (unknownRun 3) :=
    h2.next (e := unknownEvent 2) ⟨by decide +kernel, by decide +kernel, by decide +kernel⟩
  exact h3.next (e := unknownEvent 3) ⟨by decide +kernel, by decide +kernel, by decide +kernel⟩

/-- A client that sends that gets the answer, and the reader waits for the next request. -/
theorem jsonConnection_answers_unknown :
    AnsweredTo [unknownRequest] (unknownRun 4).answers ∧ (unknownRun 4).sent = unknownAnswer ∧
      unknownAnswer = answerText (unknownRun 4).answers := by
  have hheard : (unknownRun 4).heard = textOf [unknownRequest] := by decide +kernel
  have hcuts : (unknownRun 4).cuts = List.replicate 4 (textOf [unknownRequest]) := by decide +kernel
  have hreading : (unknownRun 4).conn.reader = .read := by decide +kernel
  obtain ⟨-, qs, rest, hps, -, hanswers, -, hquiet, -⟩ := jsonConnection_answers unknownRun_reach
    unknownRequest_ok
    (fun members hmem => by
      obtain rfl := (Piece.group.inj (List.mem_singleton.mp hmem)).2
      exact rfl)
    (hheard ▸ List.prefix_refl _)
    (fun cut hcut => by
      rw [hcuts] at hcut
      rw [List.eq_of_mem_replicate hcut]
      exact not_endsInEscape_textOf unknownRequest_ok)
  obtain ⟨hsent, hwhole⟩ := hquiet hreading
  have hasked := hwhole [unknownRequest] (List.prefix_refl _) unknownRequest_ok hheard.symm
  rw [← hasked] at hanswers
  have hanswer : (unknownRun 4).sent = unknownAnswer := by decide +kernel
  exact ⟨hanswers, hanswer, hanswer.symm.trans hsent⟩

/-- With the beginning of another one behind it the request is not answered yet. -/
example :
    (readJson (arrive (initRpc (List.replicate 64 0)) (unknownRequest.text ++ cstr "\x7b"))
      (List.replicate 64 0) fun _ _ => .ok []).toOption.map
        (fun c => (decide (c.reader = .read), c.output)) = some (true, []) := by
  decide +kernel

end Pettycoin
