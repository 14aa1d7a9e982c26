import Pettycoin.Jsmn

/-!
# Pettycoin — which texts the JSON interface reads

What `json_parse_input` answers depends on the text alone: it gives tokens exactly for the texts
that are pieces, asks for more exactly for the beginnings of such texts, and refuses all others
(`jsonParseInput_answers`). A text that ends inside of an escape is the exception, since there
the tokeniser reads on behind its end.

* `jsmnParse_nul`, `jsmnParse_room` — what lies behind the text, and how much room there is, are
  nothing to it;
* `text_cases` — the ways in which a text may go on behind what has been read;
* `pieces_unique` — of two rows of pieces in a text, one goes on where the other ends;
* `jsonParseInput_answers` — the answer to each of these.
-/

namespace Pettycoin

open ExceptRules Preorder

-- ---------------------------------------------------------------------------
-- Room for the tokens
-- ---------------------------------------------------------------------------

section Room

variable {js l : List UInt8} {len num num' pos fuel : Nat} {c : UInt8} {p p' : JsmnParser}
  {tok : JsmnFill}

theorem charAt_ne_nomem : charAt js pos ≠ .error .nomem := by
  unfold charAt
  cases js[pos]? <;> rintro ⟨⟩

/-- An error of the first call or one of the second. -/
theorem bind_ne {ε α β : Type} {e : ε} {x : Except ε α} {f : α → Except ε β}
    (hx : x ≠ .error e) (hf : ∀ a, f a ≠ .error e) : (x >>= f) ≠ .error e := by
  cases x with
  | error e' => exact fun h => hx (congrArg Except.error (Except.error.inj h))
  | ok a => exact hf a

theorem jsmnPrimitiveLoop_ne_nomem : jsmnPrimitiveLoop js len fuel pos ≠ .error .nomem := by
  induction fuel generalizing pos with
  | zero => rintro ⟨⟩
  | succ fuel ih =>
    rw [jsmnPrimitiveLoop]
    split_ifs
    · refine bind_ne charAt_ne_nomem fun c => ?_
      split_ifs
      · rintro ⟨⟩
      · rintro ⟨⟩
      · rintro ⟨⟩
      · exact ih
    · rintro ⟨⟩

theorem jsmnHexLoop_ne_nomem {i : Nat} : jsmnHexLoop js i pos ≠ .error .nomem := by
  induction i generalizing pos with
  | zero => rintro ⟨⟩
  | succ i ih =>
    rw [jsmnHexLoop]
    refine bind_ne charAt_ne_nomem fun c => ?_
    split_ifs
    · rintro ⟨⟩
    · exact ih
    · rintro ⟨⟩

theorem jsmnStringLoop_ne_nomem : jsmnStringLoop js len fuel pos ≠ .error .nomem := by
  induction fuel generalizing pos with
  | zero => rintro ⟨⟩
  | succ fuel ih =>
    rw [jsmnStringLoop]
    split_ifs
    · refine bind_ne charAt_ne_nomem fun c => ?_
      split_ifs
      · rintro ⟨⟩
      · rintro ⟨⟩
      · refine bind_ne charAt_ne_nomem fun c => ?_
        split_ifs
        · exact ih
        · exact bind_ne jsmnHexLoop_ne_nomem fun _ => ih
        · rintro ⟨⟩
      · exact ih
    · rintro ⟨⟩

/-- More tokens change nothing, unless there were too few. -/
theorem jsmnAllocToken_num (h : num ≤ num') :
    jsmnAllocToken num p tok = jsmnAllocToken num' p tok ∨
      num ≤ p.toks.length ∧ jsmnAllocToken num p tok = .error .nomem := by
  unfold jsmnAllocToken
  by_cases hnum : num ≤ p.toks.length
  · exact .inr ⟨hnum, if_pos hnum⟩
  · rw [if_neg hnum, if_neg fun hnum' => hnum (h.trans hnum')]
    exact .inl rfl

theorem jsmnChar_num (h : num ≤ num') :
    jsmnChar js len num p c = jsmnChar js len num' p c ∨
      num ≤ p.toks.length ∧ jsmnChar js len num p c = .error .nomem := by
  unfold jsmnChar
  split_ifs
  · unfold jsmnOpen
    rcases jsmnAllocToken_num (p := p) h with heq | ⟨hnum, herr⟩
    · exact .inl (by rw [heq])
    · exact .inr ⟨hnum, by rw [herr]; rfl⟩
  · unfold jsmnOpen
    rcases jsmnAllocToken_num (p := p) h with heq | ⟨hnum, herr⟩
    · exact .inl (by rw [heq])
    · exact .inr ⟨hnum, by rw [herr]; rfl⟩
  · exact .inl rfl
  · exact .inl rfl
  · unfold jsmnParseString
    cases jsmnStringLoop js len (len + 1) (p.pos + 1) with
    | error e => exact .inl rfl
    | ok stop =>
      rw [ok_bind, ok_bind]
      rcases jsmnAllocToken_num (p := p) h with heq | ⟨hnum, herr⟩
      · exact .inl (by rw [heq])
      · exact .inr ⟨hnum, by rw [herr]; rfl⟩
  · exact .inl rfl
  · unfold jsmnParsePrimitive
    cases jsmnPrimitiveLoop js len (len + 1) p.pos with
    | error e => exact .inl rfl
    | ok stop =>
      rw [ok_bind, ok_bind]
      rcases jsmnAllocToken_num (p := p) h with heq | ⟨hnum, herr⟩
      · exact .inl (by rw [heq])
      · exact .inr ⟨hnum, by rw [herr]; rfl⟩
  · exact .inl rfl

theorem jsmnLoop_num (h : num ≤ num') :
    jsmnLoop js len num fuel p = jsmnLoop js len num' fuel p ∨
      jsmnLoop js len num fuel p = .error .nomem := by
  induction fuel generalizing p with
  | zero => exact .inl rfl
  | succ fuel ih =>
    rw [jsmnLoop, jsmnLoop]
    split_ifs
    · cases charAt js p.pos with
      | error e => exact .inl rfl
      | ok c =>
        rw [ok_bind, ok_bind]
        split_ifs
        · exact .inl rfl
        · rcases (jsmnChar_num h : jsmnChar js len num p c = _ ∨ _) with heq | ⟨-, herr⟩
          · rw [heq]
            cases jsmnChar js len num' p c with
            | error e => exact .inl rfl
            | ok p' => exact ih
          · exact .inr (by rw [herr]; rfl)
    · exact .inl rfl

/-- With a larger array the result is the same, or there was no room. -/
theorem jsmnParse_num (h : num ≤ num') :
    jsmnParse js len num = jsmnParse js len num' ∨ jsmnParse js len num = .error .nomem := by
  unfold jsmnParse
  rcases (jsmnLoop_num h : jsmnLoop js len num (len + 1) jsmnInit = _ ∨ _) with heq | herr
  · exact .inl (by rw [heq])
  · exact .inr (by rw [herr]; rfl)

/-- A character makes one token at most, and there is room for it. -/
theorem jsmnChar_room (hroom : p.toks.length < num) :
    jsmnChar js len num p c ≠ .error .nomem ∧
      ∀ p', jsmnChar js len num p c = .ok p' → p'.toks.length ≤ p.toks.length + 1 := by
  have hopen : ∀ type, jsmnOpen num p type ≠ .error .nomem ∧
      ∀ p', jsmnOpen num p type = .ok p' → p'.toks.length ≤ p.toks.length + 1 := by
    intro type
    unfold jsmnOpen
    rw [jsmnAllocToken_ok hroom, ok_bind, counted_eq]
    refine ⟨(by rintro ⟨⟩), fun p' hp' => ?_⟩
    rw [← Except.ok.inj hp']
    dsimp only
    rw [length_addChildren, List.length_append, List.length_singleton]
  have hclose : ∀ type, jsmnClose p type ≠ .error .nomem ∧
      ∀ p', jsmnClose p type = .ok p' → p'.toks.length ≤ p.toks.length + 1 := by
    intro type
    unfold jsmnClose
    cases lastOpen p.toks p.toks.length with
    | none => exact ⟨(by rintro ⟨⟩), (by rintro _ ⟨⟩)⟩
    | some i =>
      dsimp only
      split_ifs
      · exact ⟨(by rintro ⟨⟩), (by rintro _ ⟨⟩)⟩
      · refine ⟨(by rintro ⟨⟩), fun p' hp' => ?_⟩
        rw [← Except.ok.inj hp']
        dsimp only
        rw [List.length_modify]
        omega
  have hleaf : ∀ (x : Except JsmnErr Nat) (tok : Nat → JsmnFill) (next : Nat → Nat),
      x ≠ .error .nomem →
      (x >>= fun stop => jsmnAllocToken num p (tok stop) >>= fun p' =>
        (.ok { p' with pos := next stop } : Except JsmnErr JsmnParser)).map JsmnParser.counted ≠
          .error .nomem ∧
      ∀ p', (x >>= fun stop => jsmnAllocToken num p (tok stop) >>= fun p' =>
        (.ok { p' with pos := next stop } : Except JsmnErr JsmnParser)).map JsmnParser.counted =
          .ok p' → p'.toks.length ≤ p.toks.length + 1 := by
    intro x tok next hx
    cases x with
    | error e => exact ⟨fun h => hx (congrArg Except.error (Except.error.inj h)), (by rintro _ ⟨⟩)⟩
    | ok stop =>
      rw [ok_bind, jsmnAllocToken_ok hroom, ok_bind]
      refine ⟨(by rintro ⟨⟩), fun p' hp' => ?_⟩
      rw [← Except.ok.inj hp', counted_eq]
      dsimp only
      rw [length_addChildren, List.length_append, List.length_singleton]
  unfold jsmnChar
  split_ifs
  · exact hopen _
  · exact hopen _
  · exact hclose _
  · exact hclose _
  · exact hleaf _ (fun stop => ⟨.string, p.pos + 1, stop, 0⟩) id jsmnStringLoop_ne_nomem
  · exact ⟨(by rintro ⟨⟩), fun p' hp' => by rw [← Except.ok.inj hp']; exact Nat.le_succ _⟩
  · exact hleaf _ (fun stop => ⟨.primitive, p.pos, stop, 0⟩) (· - 1) jsmnPrimitiveLoop_ne_nomem
  · exact ⟨(by rintro ⟨⟩), (by rintro _ ⟨⟩)⟩

/-- As many tokens as bytes are always enough. -/
theorem jsmnLoop_room (hlen : len ≤ num) (htoks : p.toks.length ≤ p.pos) :
    jsmnLoop js len num fuel p ≠ .error .nomem := by
  induction fuel generalizing p with
  | zero => rintro ⟨⟩
  | succ fuel ih =>
    rw [jsmnLoop]
    split_ifs with hpos
    · cases hc : charAt js p.pos with
      | error e => exact fun h => charAt_ne_nomem (hc.trans (congrArg Except.error (Except.error.inj h)))
      | ok c =>
        rw [ok_bind]
        split_ifs
        · rintro ⟨⟩
        · obtain ⟨hne, hle⟩ : jsmnChar js len num p c ≠ _ ∧ _ :=
            jsmnChar_room (Nat.lt_of_le_of_lt htoks (Nat.lt_of_lt_of_le hpos hlen))
          cases hp : jsmnChar js len num p c with
          | error e => exact fun h => hne (hp.trans (congrArg Except.error (Except.error.inj h)))
          | ok p' =>
            have hp' := hle p' hp
            have hpos' := pos_le_of_jsmnChar hc hp
            rw [ok_bind]
            exact ih (by dsimp only; omega)
    · rintro ⟨⟩

theorem jsmnParse_room : jsmnParse js len len ≠ .error .nomem := by
  unfold jsmnParse
  refine bind_ne (jsmnLoop_room (Nat.le_refl _) (Nat.le_refl _)) fun p => ?_
  split_ifs <;> rintro ⟨⟩

/-- What `json_parse_input` makes of the result. -/
def inputAnswer : Except JsmnErr (Nat × List JsmnFill) →
    Except JsonFault (Bool × Option (List JsmnTok))
  | .error .inval => .ok (false, none)
  | .error .part => .ok (true, none)
  | .error .nomem => .error .diverges
  | .error (.fault f) => .error f
  | .ok (ret, toks) => .ok (true, some ((toks.take ret).map JsmnFill.tok ++ [endToken]))

theorem jsonParseInputLoop_eq {count : Nat} (hfuel : 1 ≤ fuel) (hcount : 2 ≤ count)
    (henough : len + 2 ≤ fuel + count) :
    jsonParseInputLoop js len fuel count = inputAnswer (jsmnParse js len len) := by
  induction fuel generalizing count with
  | zero => exact absurd hfuel (by omega)
  | succ fuel ih =>
    rw [jsonParseInputLoop]
    -- either the tokens had room, or there are more bytes than tokens
    have hcase : jsmnParse js len (count - 1) = jsmnParse js len len ∨
        jsmnParse js len (count - 1) = .error .nomem ∧ count ≤ len := by
      by_cases hle : count - 1 ≤ len
      · rcases (jsmnParse_num hle : jsmnParse js len (count - 1) = _ ∨ _) with heq | herr
        · exact .inl heq
        · refine .inr ⟨herr, ?_⟩
          by_contra hgt
          have hsame : count - 1 = len := by omega
          rw [hsame] at herr
          exact jsmnParse_room herr
      · rcases (jsmnParse_num (Nat.le_of_not_le hle) : jsmnParse js len len = _ ∨ _) with heq | herr
        · exact .inl heq.symm
        · exact absurd herr jsmnParse_room
    rcases hcase with heq | ⟨herr, hlen⟩
    · rw [heq]
      cases hr : jsmnParse js len len with
      | error e =>
        cases e with
        | nomem => exact absurd hr jsmnParse_room
        | _ => rfl
      | ok r => rfl
    · rw [herr]
      exact ih (by omega) (by omega) (by omega)

/-- The array becomes large enough. -/
theorem jsonParseInput_eq : jsonParseInput js len = inputAnswer (jsmnParse js len len) :=
  jsonParseInputLoop_eq (Nat.le_add_left 1 len) (by decide) (by omega)

end Room

-- ---------------------------------------------------------------------------
-- A nul ends the text
-- ---------------------------------------------------------------------------

section Nul

variable {js : List UInt8} {len num k pos stop fuel fuel' : Nat} {c : UInt8} {p p' : JsmnParser}

theorem jsmnPrimitiveLoop_nul (hnul : charAt js k = .ok 0) (hk : k < len) (hpos : pos ≤ k)
    (hfuel : len < fuel + pos) (hfuel' : k < fuel' + pos) :
    jsmnPrimitiveLoop js len fuel pos = jsmnPrimitiveLoop js k fuel' pos := by
  induction fuel generalizing fuel' pos with
  | zero => omega
  | succ fuel ih =>
    obtain ⟨fuel', rfl⟩ : ∃ f, fuel' = f + 1 := ⟨fuel' - 1, by omega⟩
    rw [jsmnPrimitiveLoop, jsmnPrimitiveLoop, if_pos (by omega)]
    by_cases hlt : pos < k
    · rw [if_pos hlt]
      cases charAt js pos with
      | error e => rfl
      | ok c =>
        rw [ok_bind, ok_bind]
        split_ifs
        · rfl
        · rfl
        · rfl
        · exact ih (by omega) (by omega) (by omega)
    · obtain rfl : pos = k := by omega
      rw [if_neg hlt, hnul]
      rfl

theorem le_nul_of_jsmnHexLoop (hnul : charAt js k = .ok 0) {i : Nat} (hpos : pos ≤ k)
    (h : jsmnHexLoop js i pos = .ok stop) : stop ≤ k := by
  induction i generalizing pos with
  | zero => exact Except.ok.inj h ▸ hpos
  | succ i ih =>
    rw [jsmnHexLoop] at h
    obtain ⟨c, hc, h⟩ := of_bind_eq_ok h
    split_ifs at h with hzero
    · exact Except.ok.inj h ▸ hpos
    · refine ih (Nat.lt_of_le_of_ne hpos ?_) h
      rintro rfl
      exact hzero (Except.ok.inj (hc.symm.trans hnul))

theorem jsmnStringLoop_nul (hnul : charAt js k = .ok 0) (hk : k < len) (hpos : pos ≤ k)
    (hfuel : len < fuel + pos) (hfuel' : k < fuel' + pos) :
    jsmnStringLoop js len fuel pos = jsmnStringLoop js k fuel' pos := by
  induction fuel generalizing fuel' pos with
  | zero => omega
  | succ fuel ih =>
    obtain ⟨fuel', rfl⟩ : ∃ f, fuel' = f + 1 := ⟨fuel' - 1, by omega⟩
    rw [jsmnStringLoop, jsmnStringLoop, if_pos (by omega)]
    by_cases hlt : pos < k
    · rw [if_pos hlt]
      cases charAt js pos with
      | error e => rfl
      | ok c =>
        rw [ok_bind, ok_bind]
        split_ifs
        · rfl
        · rfl
        · cases he : charAt js (pos + 1) with
          | error e => rfl
          | ok e =>
            -- the nul is no escape
            have hne : e ≠ 0 → pos + 1 < k := by
              intro he0
              refine Nat.lt_of_le_of_ne hlt ?_
              rintro rfl
              exact he0 (Except.ok.inj (he.symm.trans hnul))
            rw [ok_bind, ok_bind]
            split_ifs with hescape hunicode
            · have hin := hne (by rintro rfl; exact absurd hescape (by decide))
              exact ih (by omega) (by omega) (by omega)
            · have hin := hne (by rintro rfl; exact absurd hunicode (by decide))
              cases hx : jsmnHexLoop js 4 (pos + 2) with
              | error e => rfl
              | ok next =>
                have hle := le_of_jsmnHexLoop hx
                have hle' := le_nul_of_jsmnHexLoop hnul (Nat.succ_le_of_lt hin) hx
                exact ih hle' (by omega) (by omega)
            · rfl
        · exact ih (by omega) (by omega) (by omega)
    · obtain rfl : pos = k := by omega
      rw [if_neg hlt, hnul]
      rfl

theorem lt_of_jsmnPrimitiveLoop (h : jsmnPrimitiveLoop js len fuel pos = .ok stop) : stop < len := by
  induction fuel generalizing pos with
  | zero => cases h
  | succ fuel ih =>
    rw [jsmnPrimitiveLoop] at h
    split_ifs at h with hlt
    obtain ⟨c, -, h⟩ := of_bind_eq_ok h
    split_ifs at h
    · exact Except.ok.inj h ▸ hlt
    · exact ih h

theorem lt_of_jsmnStringLoop (h : jsmnStringLoop js len fuel pos = .ok stop) : stop < len := by
  induction fuel generalizing pos with
  | zero => cases h
  | succ fuel ih =>
    rw [jsmnStringLoop] at h
    split_ifs at h with hlt
    obtain ⟨c, -, h⟩ := of_bind_eq_ok h
    split_ifs at h
    · exact Except.ok.inj h ▸ hlt
    · obtain ⟨e, -, h⟩ := of_bind_eq_ok h
      split_ifs at h
      · exact ih h
      · obtain ⟨next, -, h⟩ := of_bind_eq_ok h
        exact ih h
    · exact ih h

/-- A character read in the text leaves the parser in it. -/
theorem pos_lt_of_jsmnChar (hpos : p.pos < len) (h : jsmnChar js len num p c = .ok p') :
    p'.pos < len := by
  unfold jsmnChar at h
  split_ifs at h
  · unfold jsmnOpen at h
    obtain ⟨q, hq, h⟩ := of_bind_eq_ok h
    obtain ⟨-, rfl⟩ := of_jsmnAllocToken hq
    rw [← Except.ok.inj h, counted_eq]
    exact hpos
  · unfold jsmnOpen at h
    obtain ⟨q, hq, h⟩ := of_bind_eq_ok h
    obtain ⟨-, rfl⟩ := of_jsmnAllocToken hq
    rw [← Except.ok.inj h, counted_eq]
    exact hpos
  · unfold jsmnClose at h
    cases hlast : lastOpen p.toks p.toks.length with
    | none => rw [hlast] at h; cases h
    | some i =>
      rw [hlast] at h
      dsimp only at h
      split_ifs at h
      exact Except.ok.inj h ▸ hpos
  · unfold jsmnClose at h
    cases hlast : lastOpen p.toks p.toks.length with
    | none => rw [hlast] at h; cases h
    | some i =>
      rw [hlast] at h
      dsimp only at h
      split_ifs at h
      exact Except.ok.inj h ▸ hpos
  · cases hs : jsmnParseString js len num p with
    | error e => rw [hs] at h; cases h
    | ok q =>
      rw [hs] at h
      unfold jsmnParseString at hs
      obtain ⟨stop, hstop, hs⟩ := of_bind_eq_ok hs
      obtain ⟨q', hq', hs⟩ := of_bind_eq_ok hs
      rw [← Except.ok.inj h, counted_eq, ← Except.ok.inj hs]
      exact lt_of_jsmnStringLoop hstop
  · exact Except.ok.inj h ▸ hpos
  · cases hs : jsmnParsePrimitive js len num p with
    | error e => rw [hs] at h; cases h
    | ok q =>
      rw [hs] at h
      unfold jsmnParsePrimitive at hs
      obtain ⟨stop, hstop, hs⟩ := of_bind_eq_ok hs
      obtain ⟨q', hq', hs⟩ := of_bind_eq_ok hs
      rw [← Except.ok.inj h, counted_eq, ← Except.ok.inj hs]
      exact Nat.lt_of_le_of_lt (Nat.sub_le _ _) (lt_of_jsmnPrimitiveLoop hstop)

theorem jsmnChar_nul (hnul : charAt js k = .ok 0) (hk : k < len) (hpos : p.pos < k) :
    jsmnChar js len num p c = jsmnChar js k num p c := by
  unfold jsmnChar jsmnParseString jsmnParsePrimitive
  rw [jsmnStringLoop_nul hnul hk hpos (by omega) (by omega : k < k + 1 + (p.pos + 1)),
    jsmnPrimitiveLoop_nul hnul hk (Nat.le_of_lt hpos) (by omega) (by omega : k < k + 1 + p.pos)]

theorem jsmnLoop_nul (hnul : charAt js k = .ok 0) (hk : k < len) (hpos : p.pos ≤ k)
    (hfuel : len < fuel + p.pos) (hfuel' : k < fuel' + p.pos) :
    jsmnLoop js len num fuel p = jsmnLoop js k num fuel' p := by
  induction fuel generalizing fuel' p with
  | zero => omega
  | succ fuel ih =>
    obtain ⟨fuel', rfl⟩ : ∃ f, fuel' = f + 1 := ⟨fuel' - 1, by omega⟩
    rw [jsmnLoop, jsmnLoop, if_pos (by omega)]
    by_cases hlt : p.pos < k
    · rw [if_pos hlt]
      cases hc : charAt js p.pos with
      | error e => rfl
      | ok c =>
        rw [ok_bind, ok_bind]
        split_ifs
        · rfl
        · rw [jsmnChar_nul hnul hk hlt]
          cases hp : jsmnChar js k num p c with
          | error e => rfl
          | ok p' =>
            have hle := pos_le_of_jsmnChar hc hp
            have hlt' := pos_lt_of_jsmnChar hlt hp
            rw [ok_bind, ok_bind]
            exact ih (by dsimp only; omega) (by dsimp only; omega) (by dsimp only; omega)
    · obtain rfl : p.pos = k := by omega
      rw [if_neg hlt, hnul]
      rfl

theorem jsmnParse_nul (hnul : charAt js k = .ok 0) (hk : k < len) :
    jsmnParse js len num = jsmnParse js k num := by
  unfold jsmnParse
  rw [jsmnLoop_nul (p := jsmnInit) hnul hk (Nat.zero_le k) (Nat.lt_succ_self len)
    (Nat.lt_succ_self k : k < k + 1 + 0)]

/-- What jsmn takes for the text: all before the first nul. -/
def inputText (js : List UInt8) (len : Nat) : List UInt8 := (js.take len).takeWhile (· ≠ 0)

/-- It may as well be told of that text only. -/
theorem jsmnParse_inputText (hlen : len ≤ js.length) :
    jsmnParse js len num = jsmnParse js (inputText js len).length num := by
  have hle : (inputText js len).length ≤ len := by
    refine (List.takeWhile_prefix _).length_le.trans ?_
    rw [List.length_take]
    exact Nat.min_le_left _ _
  rcases Nat.lt_or_ge (inputText js len).length len with hlt | hge
  · refine jsmnParse_nul ?_ hlt
    have hsplit : js.take len = inputText js len ++ (js.take len).dropWhile (· ≠ 0) :=
      List.takeWhile_append_dropWhile.symm
    cases hrest : (js.take len).dropWhile (· ≠ 0) with
    | nil =>
      have hsame := congrArg List.length hsplit
      rw [hrest, List.append_nil, List.length_take] at hsame
      omega
    | cons c rest =>
      have hc : c = 0 := by
        have hnot := List.head?_dropWhile_not (· ≠ (0 : UInt8)) (js.take len)
        rw [hrest] at hnot
        simpa using hnot
      subst hc
      rw [hrest] at hsplit
      have hahead : Ahead js len (inputText js len).length (0 :: rest) :=
        ⟨by rw [hsplit, List.drop_left], Nat.le_of_lt hlt, hlen⟩
      exact hahead.charAt
  · rw [Nat.le_antisymm hle hge]

end Nul

-- ---------------------------------------------------------------------------
-- What is held
-- ---------------------------------------------------------------------------

/-- A text that is read to its end. -/
def Complete (text : List UInt8) : Prop := ∃ pieces, PiecesOk none pieces ∧ textOf pieces = text

/-- The text so far: the innermost pieces stand behind the brackets that are open, the
innermost of which comes first, each with the pieces before it. -/
def heldText : List (Bool × List Piece) → List Piece → List UInt8
  | [], cur => textOf cur
  | (object, before) :: stack, cur => heldText stack before ++ opening object :: textOf cur

/-- The parser behind it. -/
def heldState : List (Bool × List Piece) → List Piece → JsmnParser
  | [], cur => jsmnInit.past (tokensOf 0 cur) (textOf cur).length (topsOf cur)
  | (object, before) :: stack, cur =>
    ((heldState stack before).opened object).past
      (tokensOf ((heldState stack before).pos + 1) cur) (textOf cur).length (topsOf cur)

/-- All of the pieces are as jsmn takes them, if `next` comes. -/
def HeldOk (next : Option UInt8) : List (Bool × List Piece) → List Piece → Prop
  | [], cur => PiecesOk next cur
  | (object, before) :: stack, cur => HeldOk (some (opening object)) stack before ∧ PiecesOk next cur

/-- The pieces there are when all brackets are closed. -/
def closeAll : List (Bool × List Piece) → List Piece → List Piece
  | [], cur => cur
  | (object, before) :: stack, cur => closeAll stack (before ++ [.group object cur])

/-- The brackets that close them. -/
def closers (stack : List (Bool × List Piece)) : List UInt8 := stack.map fun top => closing top.1

section Held

variable {js l : List UInt8} {len num off : Nat} {next next' : Option UInt8} {ps qs cur : List Piece}
  {stack : List (Bool × List Piece)} {piece : Piece}

theorem textOf_append : textOf (ps ++ qs) = textOf ps ++ textOf qs := by
  induction ps with
  | nil => rfl
  | cons p ps ih => rw [List.cons_append, textOf, textOf, ih, List.append_assoc]

theorem piecesOk_append :
    PiecesOk next (ps ++ qs) ↔ PiecesOk ((textOf qs).head?.or next) ps ∧ PiecesOk next qs := by
  induction ps with
  | nil => exact ⟨fun h => ⟨trivial, h⟩, fun h => h.2⟩
  | cons p ps ih =>
    rw [List.cons_append, PiecesOk, PiecesOk, ih, textOf_append, List.head?_append, Option.or_assoc,
      and_assoc]

/-- What nothing needs to follow, anything may follow. -/
theorem Piece.Ok.mono (h : piece.Ok none) : piece.Ok next := by
  cases piece with
  | blank c => exact h
  | primitive text => exact absurd h.2 Bool.false_ne_true
  | string text => exact h
  | group object pieces => exact h

theorem PiecesOk.mono (h : PiecesOk none ps) : PiecesOk next ps := by
  induction ps with
  | nil => trivial
  | cons p ps ih =>
    refine ⟨?_, ih h.2⟩
    have hp := h.1
    cases hhead : (textOf ps).head? with
    | none =>
      rw [hhead] at hp
      exact hp.mono
    | some c =>
      rw [hhead] at hp
      exact hp

mutual

/-- Every token has a byte of its own. -/
theorem length_tokens_le : ∀ (piece : Piece) (off : Nat), (piece.Ok none ∨ ∃ c, piece.Ok (some c)) →
    (piece.tokens off).length ≤ piece.text.length
  | .blank c, off, _ => Nat.zero_le _
  | .primitive text, off, h => by
    have htext : PrimitiveText text := by
      rcases h with h | ⟨c, h⟩ <;> exact h.1
    obtain ⟨c, cs, rfl, -⟩ := htext
    exact Nat.succ_le_succ (Nat.zero_le _)
  | .string text, off, _ => Nat.succ_le_succ (Nat.zero_le _)
  | .group object pieces, off, h => by
    have hpieces : PiecesOk (some (closing object)) pieces := by
      rcases h with h | ⟨c, h⟩ <;> exact h
    have hle := length_tokensOf_le pieces (off + 1) hpieces
    rw [Piece.tokens, Piece.text, List.length_cons, List.length_cons, List.length_append]
    omega

theorem length_tokensOf_le : ∀ (ps : List Piece) (off : Nat) {next : Option UInt8},
    PiecesOk next ps → (tokensOf off ps).length ≤ (textOf ps).length
  | [], _, _, _ => Nat.le_refl _
  | p :: ps, off, next, h => by
    have hp : p.Ok none ∨ ∃ c, p.Ok (some c) := by
      cases hhead : (textOf ps).head?.or next with
      | none => exact .inl (hhead ▸ h.1)
      | some c => exact .inr ⟨c, hhead ▸ h.1⟩
    have hle := length_tokens_le p off hp
    have hle' := length_tokensOf_le ps (off + p.text.length) h.2
    rw [tokensOf, textOf, List.length_append, List.length_append]
    omega

end

theorem pos_heldState : (heldState stack cur).pos = (heldText stack cur).length := by
  induction stack generalizing cur with
  | nil => exact Nat.zero_add _
  | cons top stack ih =>
    obtain ⟨object, before⟩ := top
    have hpos := @ih before
    show (heldState stack before).pos + 1 + (textOf cur).length = _
    rw [heldText, List.length_append, List.length_cons, hpos]
    omega

theorem wired_heldState : (heldState stack cur).Wired := by
  cases stack with
  | nil => exact wired_init.past _ _ _
  | cons top stack => exact (JsmnParser.opened_wired _ _).past _ _ _

theorem length_past (p : JsmnParser) (toks : List JsmnTok) (n k : Nat) :
    (p.past toks n k).toks.length = p.toks.length + toks.length := by
  unfold JsmnParser.past
  rw [List.length_append, length_addChildren, List.length_map]

theorem length_opened (p : JsmnParser) (object : Bool) :
    (p.opened object).toks.length = p.toks.length + 1 := by
  unfold JsmnParser.opened
  rw [List.length_append, length_addChildren, List.length_singleton]

theorem HeldOk.inner (h : HeldOk next stack cur) : PiecesOk next cur := by
  cases stack with
  | nil => exact h
  | cons top stack => exact h.2

theorem HeldOk.withCur (h : HeldOk next stack cur) (hps : PiecesOk next' ps) :
    HeldOk next' stack ps := by
  cases stack with
  | nil => exact hps
  | cons top stack => exact ⟨h.1, hps⟩

theorem length_toks_heldState (h : HeldOk next stack cur) :
    (heldState stack cur).toks.length ≤ (heldState stack cur).pos := by
  induction stack generalizing cur next with
  | nil =>
    have hle := length_tokensOf_le cur 0 h
    show (jsmnInit.past _ _ _).toks.length ≤ 0 + _
    rw [length_past]
    exact Nat.add_le_add_left hle 0
  | cons top stack ih =>
    obtain ⟨object, before⟩ := top
    have hle := length_tokensOf_le cur ((heldState stack before).pos + 1) h.2
    have hbefore := ih h.1
    show (JsmnParser.past _ _ _ _).toks.length ≤ (heldState stack before).pos + 1 + _
    rw [length_past, length_opened]
    omega

/-- The parser gets there. -/
theorem jsmnRun_held (h : HeldOk l.head? stack cur) (hl : Ahead js len 0 (heldText stack cur ++ l))
    (hlen : len ≤ num) :
    jsmnRun js len num jsmnInit = jsmnRun js len num (heldState stack cur) := by
  induction stack generalizing cur l with
  | nil =>
    have hlength := hl.length_eq
    have hle := length_tokensOf_le cur 0 h
    rw [List.length_append, heldText] at hlength
    refine jsmnRun_pieces cur wired_init h hl ?_
    show 0 + (tokensOf 0 cur).length ≤ num
    omega
  | cons top stack ih =>
    obtain ⟨object, before⟩ := top
    have hl' : Ahead js len 0 (heldText stack before ++ opening object :: (textOf cur ++ l)) := by
      rw [heldText, List.append_assoc] at hl
      exact hl
    have hlength := hl'.length_eq
    rw [List.length_append, List.length_cons, List.length_append] at hlength
    have hpos := @pos_heldState before stack
    have hroom := length_toks_heldState h.1
    have hle := length_tokensOf_le cur ((heldState stack before).pos + 1) h.2
    have hahead : Ahead js len (heldState stack before).pos (opening object :: (textOf cur ++ l)) := by
      have happend := hl'.append
      rwa [Nat.zero_add, ← hpos] at happend
    rw [ih (l := opening object :: (textOf cur ++ l)) h.1 hl',
      jsmnRun_open wired_heldState hahead (by omega)]
    refine jsmnRun_pieces cur (JsmnParser.opened_wired _ _) h.2 hahead.tail ?_
    rw [length_opened]
    show _ + (tokensOf ((heldState stack before).pos + 1) cur).length ≤ num
    omega

/-- A bracket is open exactly if there is one in the stack. -/
theorem lastOpen_heldState :
    (lastOpen (heldState stack cur).toks (heldState stack cur).toks.length).isSome =
      !stack.isEmpty := by
  have hw : (heldState stack cur).toksuper = _ := wired_heldState
  rw [← hw]
  cases stack <;> rfl

theorem heldText_push : heldText stack (cur ++ [piece]) = heldText stack cur ++ piece.text := by
  have hpiece : textOf [piece] = piece.text := List.append_nil _
  cases stack with
  | nil => rw [heldText, heldText, textOf_append, hpiece]
  | cons top stack => rw [heldText, heldText, textOf_append, hpiece, List.append_assoc, List.cons_append]

/-- One more piece is held. -/
theorem HeldOk.push (piece : Piece) (h : HeldOk (piece.text.head?.or next) stack cur)
    (hpiece : piece.Ok next) :
    HeldOk next stack (cur ++ [piece]) := by
  refine h.withCur (piecesOk_append.mpr ⟨?_, hpiece, trivial⟩)
  have htext : textOf [piece] = piece.text := List.append_nil _
  rw [htext]
  exact h.inner

theorem textOf_closeAll : textOf (closeAll stack cur) = heldText stack cur ++ closers stack := by
  induction stack generalizing cur with
  | nil => rw [closers, List.map_nil, List.append_nil]; rfl
  | cons top stack ih =>
    obtain ⟨object, before⟩ := top
    rw [closeAll, ih, heldText_push, Piece.text, heldText, closers, closers, List.map_cons]
    simp only [List.append_assoc, List.cons_append, List.nil_append]

theorem piecesOk_closeAll (h : HeldOk none stack cur) : PiecesOk none (closeAll stack cur) := by
  induction stack generalizing cur with
  | nil => exact h
  | cons top stack ih =>
    obtain ⟨object, before⟩ := top
    exact ih (HeldOk.push (.group object cur) h.1 h.2.mono)

/-- What is held can be completed. -/
theorem complete_closeAll (h : HeldOk none stack cur) :
    Complete (heldText stack cur ++ closers stack) :=
  ⟨_, piecesOk_closeAll h, textOf_closeAll⟩

end Held

-- ---------------------------------------------------------------------------
-- How a text can end
-- ---------------------------------------------------------------------------

/-- The escape behind a backslash is not there, or not all of it. -/
inductive CutEscape : List UInt8 → Prop
  | none : CutEscape []
  | unicode {digits : List UInt8} : digits.length < 4 → (∀ c ∈ digits, isHexDigit c = true) →
      CutEscape ('u'.toUInt8 :: digits)

/-- It is none that jsmn knows. -/
inductive BadEscape : List UInt8 → Prop
  | char {c : UInt8} {l : List UInt8} : isEscape c = false → c ≠ 'u'.toUInt8 → BadEscape (c :: l)
  | digit {digits l : List UInt8} {c : UInt8} : digits.length < 4 →
      (∀ c ∈ digits, isHexDigit c = true) → isHexDigit c = false → c ≠ 0 →
      BadEscape ('u'.toUInt8 :: (digits ++ c :: l))

/-- How it goes on behind an opening quote. -/
inductive StringCase : List UInt8 → Prop
  | closed {text l : List UInt8} : StringText text → StringCase (text ++ '"'.toUInt8 :: l)
  | ended {text : List UInt8} : StringText text → StringCase text
  | cut {text x : List UInt8} : StringText text → CutEscape x →
      StringCase (text ++ '\\'.toUInt8 :: x)
  | bad {text x : List UInt8} : StringText text → BadEscape x →
      StringCase (text ++ '\\'.toUInt8 :: x)

/-- Where the parser stops, behind brackets that are open. -/
inductive Refused (stack : List (Bool × List Piece)) : List UInt8 → Prop
  | char {c : UInt8} {l : List UInt8} : c ≠ 0 → (∀ object, c ≠ opening object) →
      (∀ object, c ≠ closing object) → c ≠ '"'.toUInt8 → isBlank c = false →
      startsPrimitive c = false → Refused stack (c :: l)
  | bracket {object : Bool} {l : List UInt8} : (∀ top ∈ stack.head?, top.1 ≠ object) →
      Refused stack (closing object :: l)
  | primitive {c b : UInt8} {cs l : List UInt8} : startsPrimitive c = true →
      (∀ x ∈ cs, withinPrimitive x = true) → withinPrimitive b = false → endsPrimitive b = false →
      b ≠ 0 → Refused stack (c :: (cs ++ b :: l))
  | escape {text x : List UInt8} : StringText text → BadEscape x →
      Refused stack ('"'.toUInt8 :: (text ++ '\\'.toUInt8 :: x))

/-- A text ends between two pieces, or in a string, in a primitive or in an escape, or the parser
stops before. -/
inductive TextCase : List UInt8 → Prop
  | held {stack : List (Bool × List Piece)} {cur : List Piece} : HeldOk none stack cur →
      TextCase (heldText stack cur)
  | inString {stack : List (Bool × List Piece)} {cur : List Piece} {text : List UInt8} :
      HeldOk (some '"'.toUInt8) stack cur → StringText text →
      TextCase (heldText stack cur ++ '"'.toUInt8 :: text)
  | inPrimitive {stack : List (Bool × List Piece)} {cur : List Piece} {c : UInt8}
      {cs : List UInt8} : HeldOk (some c) stack cur → startsPrimitive c = true →
      (∀ x ∈ cs, withinPrimitive x = true) → TextCase (heldText stack cur ++ c :: cs)
  | inEscape {stack : List (Bool × List Piece)} {cur : List Piece} {text x : List UInt8} :
      HeldOk (some '"'.toUInt8) stack cur → StringText text → CutEscape x →
      TextCase (heldText stack cur ++ '"'.toUInt8 :: (text ++ '\\'.toUInt8 :: x))
  | refused {stack : List (Bool × List Piece)} {cur : List Piece} {l : List UInt8} :
      HeldOk l.head? stack cur → Refused stack l → TextCase (heldText stack cur ++ l)

section Cases

variable {l : List UInt8}

theorem StringCase.append (begun : List UInt8)
    (hbegun : ∀ text, StringText text → StringText (begun ++ text)) (h : StringCase l) :
    StringCase (begun ++ l) := by
  cases h with
  | closed htext => rw [← List.append_assoc]; exact .closed (hbegun _ htext)
  | ended htext => exact .ended (hbegun _ htext)
  | cut htext hcut => rw [← List.append_assoc]; exact .cut (hbegun _ htext) hcut
  | bad htext hbad => rw [← List.append_assoc]; exact .bad (hbegun _ htext) hbad

/-- The digits at the start of a text are four, or they end too soon. -/
theorem hexDigits_cases (l : List UInt8) :
    (∃ digits rest, l = digits ++ rest ∧ digits.length = 4 ∧ ∀ c ∈ digits, isHexDigit c = true) ∨
      (l.length < 4 ∧ ∀ c ∈ l, isHexDigit c = true) ∨
      ∃ digits c rest, l = digits ++ c :: rest ∧ digits.length < 4 ∧
        (∀ c ∈ digits, isHexDigit c = true) ∧ isHexDigit c = false := by
  have hsplit : l = l.takeWhile isHexDigit ++ l.dropWhile isHexDigit :=
    List.takeWhile_append_dropWhile.symm
  have hhex : ∀ c ∈ l.takeWhile isHexDigit, isHexDigit c = true := fun c => List.mem_takeWhile_imp
  by_cases hfour : 4 ≤ (l.takeWhile isHexDigit).length
  · refine .inl ⟨(l.takeWhile isHexDigit).take 4,
      (l.takeWhile isHexDigit).drop 4 ++ l.dropWhile isHexDigit, ?_, ?_, ?_⟩
    · rw [← List.append_assoc, List.take_append_drop, List.takeWhile_append_dropWhile]
    · rw [List.length_take]
      omega
    · exact fun c hc => hhex c (List.mem_of_mem_take hc)
  · cases hrest : l.dropWhile isHexDigit with
    | nil =>
      rw [hrest, List.append_nil] at hsplit
      rw [← hsplit] at hfour hhex
      exact .inr (.inl ⟨by omega, hhex⟩)
    | cons c rest =>
      rw [hrest] at hsplit
      have hnot := List.head?_dropWhile_not isHexDigit l
      rw [hrest] at hnot
      exact .inr (.inr ⟨_, c, rest, hsplit, by omega, hhex, hnot⟩)

/-- There is no other way to go on in a string. -/
theorem string_cases : ∀ (n : Nat) (l : List UInt8), l.length ≤ n → 0 ∉ l → StringCase l
  | _, [], _, _ => .ended .nil
  | n + 1, c :: l, hlen, hnul => by
    obtain ⟨hc0, hl0⟩ := not_or.mp (mt List.mem_cons.mpr hnul)
    rw [List.length_cons] at hlen
    by_cases hquote : c = '"'.toUInt8
    · subst hquote
      exact @StringCase.closed [] l .nil
    by_cases hslash : c = '\\'.toUInt8
    · subst hslash
      cases l with
      | nil => exact @StringCase.cut [] [] .nil .none
      | cons e l =>
        obtain ⟨he0, hrest0⟩ := not_or.mp (mt List.mem_cons.mpr hl0)
        rw [List.length_cons] at hlen
        by_cases hescape : isEscape e = true
        · exact (string_cases n l (by omega) hrest0).append ['\\'.toUInt8, e]
            fun _ htext => .escape hescape htext
        by_cases hunicode : e = 'u'.toUInt8
        · subst hunicode
          rcases hexDigits_cases l with ⟨digits, rest, rfl, hfour, hhex⟩ | ⟨hshort, hhex⟩ |
            ⟨digits, b, rest, rfl, hshort, hhex, hb⟩
          · rw [List.length_append] at hlen
            refine (string_cases n rest (by omega) fun h0 => hrest0 (List.mem_append_right _ h0)).append
              ('\\'.toUInt8 :: 'u'.toUInt8 :: digits) fun _ htext => ?_
            exact .unicode hfour hhex htext
          · exact @StringCase.cut [] _ .nil (.unicode hshort hhex)
          · refine @StringCase.bad [] _ .nil (.digit hshort hhex hb ?_)
            rintro rfl
            exact hrest0 (List.mem_append_right _ List.mem_cons_self)
        · exact @StringCase.bad [] _ .nil (.char (Bool.not_eq_true _ ▸ hescape) hunicode)
    · exact (string_cases n l (by omega) hl0).append [c]
        fun _ htext => .char (fun h => hc0 h.symm) hquote hslash htext

/-- Nor to go on in a primitive. -/
theorem primitive_cases (cs : List UInt8) : (∀ x ∈ cs, withinPrimitive x = true) ∨
    ∃ ds b rest, cs = ds ++ b :: rest ∧ (∀ x ∈ ds, withinPrimitive x = true) ∧
      withinPrimitive b = false := by
  have hsplit : cs = cs.takeWhile withinPrimitive ++ cs.dropWhile withinPrimitive :=
    List.takeWhile_append_dropWhile.symm
  have hin : ∀ x ∈ cs.takeWhile withinPrimitive, withinPrimitive x = true :=
    fun x => List.mem_takeWhile_imp
  cases hrest : cs.dropWhile withinPrimitive with
  | nil =>
    rw [hrest, List.append_nil] at hsplit
    rw [← hsplit] at hin
    exact .inl hin
  | cons b rest =>
    rw [hrest] at hsplit
    have hnot := List.head?_dropWhile_not withinPrimitive cs
    rw [hrest] at hnot
    exact .inr ⟨_, b, rest, hsplit, hin, hnot⟩

/-- Behind what is held a text goes on in one of these ways. -/
theorem text_cases : ∀ (n : Nat) (l : List UInt8) (stack : List (Bool × List Piece))
    (cur : List Piece), l.length ≤ n → 0 ∉ l → HeldOk l.head? stack cur →
    TextCase (heldText stack cur ++ l)
  | _, [], stack, cur, _, _, h => by
    rw [List.append_nil]
    exact .held h
  | n + 1, c :: l, stack, cur, hlen, hnul, h => by
    obtain ⟨hc0, hl0⟩ := not_or.mp (mt List.mem_cons.mpr hnul)
    rw [List.length_cons] at hlen
    -- a piece is read, and one goes on behind it
    have hpush : ∀ (piece : Piece) (rest : List UInt8), c :: l = piece.text ++ rest →
        piece.text.head? = some c → rest.length ≤ n → 0 ∉ rest → piece.Ok rest.head? →
        TextCase (heldText stack cur ++ c :: l) := by
      intro piece rest hsplit hhead hrest hrest0 hpiece
      have hheld : HeldOk rest.head? stack (cur ++ [piece]) :=
        HeldOk.push piece (by rw [hhead]; exact h) hpiece
      have hcase := text_cases n rest stack (cur ++ [piece]) hrest hrest0 hheld
      rwa [heldText_push, List.append_assoc, ← hsplit] at hcase
    by_cases hopen : ∃ object, c = opening object
    · obtain ⟨object, rfl⟩ := hopen
      have hcase := text_cases n l ((object, cur) :: stack) [] (by omega) hl0 ⟨h, trivial⟩
      rwa [heldText, textOf, List.append_assoc] at hcase
    by_cases hclose : ∃ object, c = closing object
    · obtain ⟨object, rfl⟩ := hclose
      cases stack with
      | nil => exact .refused h (.bracket (by rintro _ ⟨⟩))
      | cons top stack =>
        obtain ⟨object', before⟩ := top
        by_cases hsame : object' = object
        · subst hsame
          have hheld : HeldOk l.head? stack (before ++ [.group object' cur]) :=
            HeldOk.push (.group object' cur) h.1 h.2
          have hcase := text_cases n l stack (before ++ [.group object' cur]) (by omega) hl0 hheld
          rw [heldText_push, Piece.text, List.append_assoc, List.cons_append, List.append_assoc]
            at hcase
          rw [heldText, List.append_assoc]
          exact hcase
        · refine .refused h (.bracket fun top htop => ?_)
          obtain rfl := Option.some.inj htop
          exact hsame
    by_cases hquote : c = '"'.toUInt8
    · subst hquote
      cases string_cases l.length l (Nat.le_refl _) hl0 with
      | @closed text rest htext =>
        rw [List.length_append, List.length_cons] at hlen
        refine hpush (.string text) rest ?_ rfl (by omega) (fun h0 => hl0 ?_) htext
        · rw [Piece.text, List.cons_append, List.append_assoc]
          rfl
        · exact List.mem_append_right _ (List.mem_cons_of_mem _ h0)
      | ended htext => exact .inString h htext
      | cut htext hcut => exact .inEscape h htext hcut
      | bad htext hbad => exact .refused h (.escape htext hbad)
    by_cases hblank : isBlank c = true
    · exact hpush (.blank c) l rfl rfl (by omega) hl0 hblank
    by_cases hstarts : startsPrimitive c = true
    · rcases primitive_cases l with hin | ⟨cs, b, rest, rfl, hin, hb⟩
      · exact .inPrimitive h hstarts hin
      · rw [List.length_append, List.length_cons] at hlen
        by_cases hends : endsPrimitive b = true
        · refine hpush (.primitive (c :: cs)) (b :: rest) rfl rfl ?_ (fun h0 => hl0 ?_)
            ⟨⟨c, cs, rfl, hstarts, hin⟩, hends⟩
          · rw [List.length_cons]
            omega
          · exact List.mem_append_right _ h0
        · refine .refused h (.primitive hstarts hin hb (Bool.not_eq_true _ ▸ hends) ?_)
          rintro rfl
          exact hl0 (List.mem_append_right _ List.mem_cons_self)
    · exact .refused h (.char (fun h => hc0 h.symm) (fun object h => hopen ⟨object, h⟩)
        (fun object h => hclose ⟨object, h⟩) hquote (Bool.not_eq_true _ ▸ hblank)
        (Bool.not_eq_true _ ▸ hstarts))

end Cases

-- ---------------------------------------------------------------------------
-- What the parser answers
-- ---------------------------------------------------------------------------

section Answers

variable {js l text x : List UInt8} {len num pos fuel : Nat} {stack : List (Bool × List Piece)}
  {cur pieces : List Piece} {c : UInt8}

theorem jsmnStringLoop_ended (htext : StringText text) (h : Ahead js len pos text)
    (hfuel : len < fuel + pos) : jsmnStringLoop js len fuel pos = .error .part := by
  have h' : Ahead js len pos (text ++ []) := by rwa [List.append_nil]
  obtain ⟨fuel', hfuel', heq⟩ := jsmnStringLoop_skip htext h' hfuel
  have hlen := h.length_eq
  obtain ⟨fuel', rfl⟩ : ∃ f, fuel' = f + 1 := ⟨fuel' - 1, by omega⟩
  rw [heq, jsmnStringLoop, if_neg (by omega)]

theorem jsmnStringLoop_bad (htext : StringText text) (hbad : BadEscape x)
    (h : Ahead js len pos (text ++ '\\'.toUInt8 :: x)) (hfuel : len < fuel + pos) :
    jsmnStringLoop js len fuel pos = .error .inval := by
  obtain ⟨fuel', hfuel', heq⟩ := jsmnStringLoop_skip htext h hfuel
  have hslash := h.append
  have hlt := hslash.lt
  obtain ⟨fuel', rfl⟩ : ∃ f, fuel' = f + 1 := ⟨fuel' - 1, by omega⟩
  rw [heq, jsmnStringLoop, if_pos hlt, hslash.charAt, ok_bind, if_neg (by decide),
    if_neg (by decide), if_pos rfl]
  cases hbad with
  | @char c l hescape hunicode =>
    rw [hslash.tail.charAt, ok_bind, if_neg (by rw [hescape]; decide), if_neg hunicode]
  | @digit digits l c hshort hhex hc hc0 =>
    have hdigits : Ahead js len (pos + text.length + 2) (digits ++ c :: l) := hslash.tail.tail
    have hloop := jsmnHexLoop_skip (i := 4 - digits.length) hhex hdigits
    obtain ⟨i, hi⟩ : ∃ i, 4 - digits.length = i + 1 := ⟨3 - digits.length, by omega⟩
    have hfour : digits.length + (i + 1) = 4 := by omega
    rw [hi, jsmnHexLoop, hdigits.append.charAt, ok_bind, if_neg hc0, if_neg (by rw [hc]; decide),
      hfour] at hloop
    rw [hslash.tail.charAt, ok_bind, if_neg (by decide), if_pos rfl, hloop, error_bind]

/-- A cut escape is as good as what is read behind the text: nothing, or a letter that is no
escape and no digit. -/
theorem jsmnStringLoop_cut {e : JsmnErr} (htext : StringText text) (hcut : CutEscape x)
    (h : Ahead js len pos (text ++ '\\'.toUInt8 :: x)) (hfuel : len < fuel + pos)
    (hbehind : charAt js len = .error e ∨ charAt js len = .ok 'g'.toUInt8 ∧ e = .inval) :
    jsmnStringLoop js len fuel pos = .error e := by
  obtain ⟨fuel', hfuel', heq⟩ := jsmnStringLoop_skip htext h hfuel
  have hslash := h.append
  have hlt := hslash.lt
  have hlen := hslash.length_eq
  obtain ⟨fuel', rfl⟩ : ∃ f, fuel' = f + 1 := ⟨fuel' - 1, by omega⟩
  rw [heq, jsmnStringLoop, if_pos hlt, hslash.charAt, ok_bind, if_neg (by decide),
    if_neg (by decide), if_pos rfl]
  cases hcut with
  | none =>
    rw [List.length_singleton] at hlen
    rw [hlen]
    rcases hbehind with herr | ⟨hg, rfl⟩
    · rw [herr, error_bind]
    · rw [hg, ok_bind, if_neg (by decide), if_neg (by decide)]
  | @unicode digits hshort hhex =>
    have hdigits : Ahead js len (pos + text.length + 2) (digits ++ []) := by
      rw [List.append_nil]
      exact hslash.tail.tail
    have hend := hdigits.append.length_eq
    rw [List.length_nil, Nat.add_zero] at hend
    have hloop := jsmnHexLoop_skip (i := 4 - digits.length) hhex hdigits
    obtain ⟨i, hi⟩ : ∃ i, 4 - digits.length = i + 1 := ⟨3 - digits.length, by omega⟩
    have hfour : digits.length + (i + 1) = 4 := by omega
    have herr : jsmnHexLoop js (i + 1) (pos + text.length + 2 + digits.length) = .error e := by
      rw [hend, jsmnHexLoop]
      rcases hbehind with herr | ⟨hg, rfl⟩
      · rw [herr, error_bind]
      · rw [hg, ok_bind, if_neg (by decide), if_neg (by decide)]
    rw [hi, herr, hfour] at hloop
    rw [hslash.tail.charAt, ok_bind, if_neg (by decide), if_pos rfl, hloop, error_bind]

/-- It never closes the string. -/
theorem jsmnStringLoop_cut_ne (htext : StringText text) (hcut : CutEscape x)
    (h : Ahead js len pos (text ++ '\\'.toUInt8 :: x)) (hfuel : len < fuel + pos) (stop : Nat) :
    jsmnStringLoop js len fuel pos ≠ .ok stop := by
  -- behind the text the loop ends
  have hover : ∀ {fuel pos : Nat}, len ≤ pos → jsmnStringLoop js len fuel pos ≠ .ok stop := by
    intro fuel pos hle
    cases fuel with
    | zero => rintro ⟨⟩
    | succ fuel =>
      rw [jsmnStringLoop, if_neg (Nat.not_lt.mpr hle)]
      rintro ⟨⟩
  obtain ⟨fuel', hfuel', heq⟩ := jsmnStringLoop_skip htext h hfuel
  have hslash := h.append
  have hlt := hslash.lt
  have hlen := hslash.length_eq
  obtain ⟨fuel', rfl⟩ : ∃ f, fuel' = f + 1 := ⟨fuel' - 1, by omega⟩
  rw [heq, jsmnStringLoop, if_pos hlt, hslash.charAt, ok_bind, if_neg (by decide),
    if_neg (by decide), if_pos rfl]
  cases hcut with
  | none =>
    rw [List.length_singleton] at hlen
    cases charAt js (pos + text.length + 1) with
    | error e => rintro ⟨⟩
    | ok c =>
      rw [ok_bind]
      split_ifs
      · exact hover (by omega)
      · cases hx : jsmnHexLoop js 4 (pos + text.length + 2) with
        | error e => rintro ⟨⟩
        | ok next =>
          have hle := le_of_jsmnHexLoop hx
          exact hover (by omega)
      · rintro ⟨⟩
  | @unicode digits hshort hhex =>
    have hdigits : Ahead js len (pos + text.length + 2) (digits ++ []) := by
      rw [List.append_nil]
      exact hslash.tail.tail
    have hend := hdigits.append.length_eq
    rw [List.length_nil, Nat.add_zero] at hend
    have hloop := jsmnHexLoop_skip (i := 4 - digits.length) hhex hdigits
    have hfour : digits.length + (4 - digits.length) = 4 := by omega
    rw [hfour] at hloop
    rw [hslash.tail.charAt, ok_bind, if_neg (by decide), if_pos rfl, hloop]
    cases hx : jsmnHexLoop js (4 - digits.length) (pos + text.length + 2 + digits.length) with
    | error e => rintro ⟨⟩
    | ok next =>
      have hle := le_of_jsmnHexLoop hx
      exact hover (by omega)

theorem jsmnPrimitiveLoop_within (htext : ∀ x ∈ text, withinPrimitive x = true)
    (h : Ahead js len pos text) (hfuel : len < fuel + pos) :
    jsmnPrimitiveLoop js len fuel pos = .error .part := by
  have h' : Ahead js len pos (text ++ []) := by rwa [List.append_nil]
  obtain ⟨fuel', hfuel', heq⟩ := jsmnPrimitiveLoop_skip htext h' hfuel
  have hlen := h.length_eq
  obtain ⟨fuel', rfl⟩ : ∃ f, fuel' = f + 1 := ⟨fuel' - 1, by omega⟩
  rw [heq, jsmnPrimitiveLoop, if_neg (by omega)]

theorem jsmnPrimitiveLoop_bad (htext : ∀ x ∈ text, withinPrimitive x = true)
    (hc : withinPrimitive c = false) (hends : endsPrimitive c = false) (hc0 : c ≠ 0)
    (h : Ahead js len pos (text ++ c :: l)) (hfuel : len < fuel + pos) :
    jsmnPrimitiveLoop js len fuel pos = .error .inval := by
  obtain ⟨fuel', hfuel', heq⟩ := jsmnPrimitiveLoop_skip htext h hfuel
  have hlt := h.append.lt
  obtain ⟨fuel', rfl⟩ : ∃ f, fuel' = f + 1 := ⟨fuel' - 1, by omega⟩
  have hout : c < 32 ∨ 127 ≤ c := by
    unfold withinPrimitive at hc
    rw [hends, Bool.not_false, Bool.true_and, Bool.and_eq_false_iff, decide_eq_false_iff_not,
      decide_eq_false_iff_not, UInt8.not_le, UInt8.not_lt] at hc
    exact hc
  rw [heq, jsmnPrimitiveLoop, if_pos hlt, h.append.charAt, ok_bind, if_neg hc0,
    if_neg (by rw [hends]; decide), if_pos hout]

/-- The text is the whole of what is read. -/
theorem ahead_zero (h : js.take len = l) (hlen : len ≤ js.length) : Ahead js len 0 l :=
  ⟨by rw [List.drop_zero]; exact h, Nat.zero_le _, hlen⟩

/-- What is ahead behind what is held. -/
theorem Ahead.behind (h : Ahead js len 0 (heldText stack cur ++ l)) :
    Ahead js len (heldState stack cur).pos l := by
  have happend := h.append
  rwa [Nat.zero_add, ← pos_heldState] at happend

/-- An error behind what is held is the answer. -/
theorem jsmnParse_error {e : JsmnErr} (hheld : HeldOk (some c) stack cur)
    (h : Ahead js len 0 (heldText stack cur ++ c :: l)) (hc : c ≠ 0)
    (herr : jsmnChar js len len (heldState stack cur) c = .error e) :
    jsmnParse js len len = .error e := by
  have hrun := jsmnRun_held (l := c :: l) hheld h (Nat.le_refl len)
  rw [jsmnRun_step h.behind hc, herr, error_bind] at hrun
  unfold jsmnParse
  rw [← jsmnRun, hrun, error_bind]

/-- The tokens of pieces. -/
theorem jsmnParse_pieces (hok : PiecesOk none pieces) (h : Ahead js len 0 (textOf pieces)) :
    jsmnParse js len len =
      .ok ((tokensOf 0 pieces).length, (tokensOf 0 pieces).map JsmnTok.fill) := by
  have h' : Ahead js len 0 (textOf pieces ++ []) := by rwa [List.append_nil]
  have hlen := h.length_eq
  have hroom := length_tokensOf_le pieces 0 hok
  have hrun : jsmnRun js len len jsmnInit =
      .ok (jsmnInit.past (tokensOf 0 pieces) (textOf pieces).length (topsOf pieces)) := by
    have hpieces := jsmnRun_pieces (l := []) pieces wired_init hok h'
      (by omega : 0 + (tokensOf 0 pieces).length ≤ len)
    rw [hpieces]
    refine jsmnRun_end ?_
    show ¬ 0 + (textOf pieces).length < len
    omega
  unfold jsmnParse
  rw [← jsmnRun, hrun, ok_bind]
  have hclosed := lastOpen_append (l := []) (@isOpen_map_fill (tokensOf 0 pieces))
  show (if (lastOpen ([] ++ _) ([] ++ _).length).isSome = true then _ else _) = _
  rw [hclosed]
  show Except.ok _ = _
  rw [show (jsmnInit.past (tokensOf 0 pieces) (textOf pieces).length (topsOf pieces)).count =
    0 + (tokensOf 0 pieces).length from rfl, Nat.zero_add]
  rfl

/-- Where brackets are open, more is needed. -/
theorem jsmnParse_open (hheld : HeldOk none stack cur) (hstack : stack ≠ [])
    (h : Ahead js len 0 (heldText stack cur)) : jsmnParse js len len = .error .part := by
  have h' : Ahead js len 0 (heldText stack cur ++ []) := by rwa [List.append_nil]
  have hrun := jsmnRun_held (l := []) hheld h' (Nat.le_refl len)
  rw [jsmnRun_end h'.behind.not_lt] at hrun
  have hopen : (!stack.isEmpty) = true := by
    cases stack with
    | nil => exact absurd rfl hstack
    | cons top stack => rfl
  unfold jsmnParse
  rw [← jsmnRun, hrun, ok_bind, lastOpen_heldState, hopen, if_pos rfl]

theorem jsmnParse_inString (hheld : HeldOk (some '"'.toUInt8) stack cur) (htext : StringText text)
    (h : Ahead js len 0 (heldText stack cur ++ '"'.toUInt8 :: text)) :
    jsmnParse js len len = .error .part := by
  refine jsmnParse_error hheld h (by decide) ?_
  rw [jsmnChar, if_neg (by decide), if_neg (by decide), if_pos rfl, jsmnParseString,
    jsmnStringLoop_ended htext h.behind.tail (by omega)]
  rfl

theorem jsmnParse_inPrimitive {cs : List UInt8} (hheld : HeldOk (some c) stack cur)
    (hc : startsPrimitive c = true) (hcs : ∀ x ∈ cs, withinPrimitive x = true)
    (h : Ahead js len 0 (heldText stack cur ++ c :: cs)) :
    jsmnParse js len len = .error .part := by
  obtain ⟨hc0, hopen, hclose, hquote, hblank, hwithin⟩ := of_startsPrimitive c hc
  refine jsmnParse_error hheld h hc0 ?_
  rw [jsmnChar, if_neg hopen, if_neg hclose, if_neg hquote, if_neg (by rw [hblank]; decide),
    if_pos hc, jsmnParsePrimitive,
    jsmnPrimitiveLoop_within (List.forall_mem_cons.mpr ⟨hwithin, hcs⟩) h.behind (by omega)]
  rfl

/-- In an escape the parser reads behind the text. -/
theorem jsmnParse_inEscape {e : JsmnErr} (hheld : HeldOk (some '"'.toUInt8) stack cur)
    (htext : StringText text) (hcut : CutEscape x)
    (h : Ahead js len 0 (heldText stack cur ++ '"'.toUInt8 :: (text ++ '\\'.toUInt8 :: x)))
    (hbehind : charAt js len = .error e ∨ charAt js len = .ok 'g'.toUInt8 ∧ e = .inval) :
    jsmnParse js len len = .error e := by
  refine jsmnParse_error hheld h (by decide) ?_
  rw [jsmnChar, if_neg (by decide), if_neg (by decide), if_pos rfl, jsmnParseString,
    jsmnStringLoop_cut htext hcut h.behind.tail (by omega) hbehind]
  rfl

/-- So that there are no tokens then. -/
theorem jsmnParse_inEscape_ne (hheld : HeldOk (some '"'.toUInt8) stack cur)
    (htext : StringText text) (hcut : CutEscape x)
    (h : Ahead js len 0 (heldText stack cur ++ '"'.toUInt8 :: (text ++ '\\'.toUInt8 :: x)))
    (r : Nat × List JsmnFill) : jsmnParse js len len ≠ .ok r := by
  have hstring : ∃ e, jsmnStringLoop js len (len + 1) ((heldState stack cur).pos + 1) =
      .error e := by
    have hne := jsmnStringLoop_cut_ne htext hcut h.behind.tail
      (by omega : len < len + 1 + ((heldState stack cur).pos + 1))
    cases hloop : jsmnStringLoop js len (len + 1) ((heldState stack cur).pos + 1) with
    | error e => exact ⟨e, rfl⟩
    | ok stop => exact absurd hloop (hne stop)
  obtain ⟨e, he⟩ := hstring
  have herr : jsmnParse js len len = .error e := by
    refine jsmnParse_error hheld h (by decide) ?_
    rw [jsmnChar, if_neg (by decide), if_neg (by decide), if_pos rfl, jsmnParseString, he]
    rfl
  rw [herr]
  rintro ⟨⟩

/-- A closing bracket that fits no open one. -/
theorem jsmnClose_refused {object : Bool} (hstack : ∀ top ∈ stack.head?, top.1 ≠ object) :
    jsmnClose (heldState stack cur) (groupType object) = .error .inval := by
  have hw : (heldState stack cur).toksuper = _ := wired_heldState
  unfold jsmnClose
  rw [← hw]
  cases stack with
  | nil => rfl
  | cons top stack =>
    obtain ⟨object', before⟩ := top
    have hne : object' ≠ object := hstack _ rfl
    have hsuper : (heldState ((object', before) :: stack) cur).toksuper =
        some (heldState stack before).toks.length := rfl
    have hget : (heldState ((object', before) :: stack) cur).toks[(heldState stack before).toks.length]? =
        some ⟨groupType object', ((heldState stack before).pos : Int), -1, topsOf cur⟩ := by
      rw [heldState, JsmnParser.toks_opened]
      have hlen : (addChildren (heldState stack before).toksuper 1 (heldState stack before).toks).length =
          _ := length_addChildren
      rw [← hlen, List.getElem?_append_right (Nat.le_refl _), Nat.sub_self]
      rfl
    rw [hsuper]
    dsimp only
    rw [hget, if_pos]
    intro htype
    have hsame : groupType object' = groupType object := Option.some.inj htype
    cases object' <;> cases object <;> first | exact hne rfl | cases hsame

theorem jsmnParse_refused (hheld : HeldOk l.head? stack cur) (hl : Refused stack l)
    (h : Ahead js len 0 (heldText stack cur ++ l)) : jsmnParse js len len = .error .inval := by
  cases hl with
  | @char c l hc0 hopen hclose hquote hblank hstarts =>
    refine jsmnParse_error hheld h hc0 ?_
    rw [jsmnChar, if_neg, if_neg, if_neg hquote, if_neg (by rw [hblank]; decide),
      if_neg (by rw [hstarts]; decide)]
    · rintro (hbrace | hbracket)
      · exact hclose true hbrace
      · exact hclose false hbracket
    · rintro (hbrace | hbracket)
      · exact hopen true hbrace
      · exact hopen false hbracket
  | @bracket object l hstack =>
    have hclose : closing object ≠ 0 ∧
        ¬ (closing object = '\x7b'.toUInt8 ∨ closing object = '['.toUInt8) ∧
        (closing object = '\x7d'.toUInt8 ∨ closing object = ']'.toUInt8) ∧
        (if closing object = '\x7d'.toUInt8 then JsmnType.object else .array) =
          groupType object := by
      cases object <;> decide
    obtain ⟨hc0, hnot, hbracket, htype⟩ := hclose
    refine jsmnParse_error hheld h hc0 ?_
    rw [jsmnChar, if_neg hnot, if_pos hbracket, htype, jsmnClose_refused hstack]
  | @primitive c b cs l hstarts hcs hb hends hb0 =>
    obtain ⟨hc0, hopen, hclose, hquote, hblank, hwithin⟩ := of_startsPrimitive c hstarts
    refine jsmnParse_error hheld h hc0 ?_
    rw [jsmnChar, if_neg hopen, if_neg hclose, if_neg hquote, if_neg (by rw [hblank]; decide),
      if_pos hstarts, jsmnParsePrimitive,
      jsmnPrimitiveLoop_bad (List.forall_mem_cons.mpr ⟨hwithin, hcs⟩) hb hends hb0
        h.behind (by omega)]
    rfl
  | @escape text x htext hbad =>
    refine jsmnParse_error hheld h (by decide) ?_
    rw [jsmnChar, if_neg (by decide), if_neg (by decide), if_pos rfl, jsmnParseString,
      jsmnStringLoop_bad htext hbad h.behind.tail (by omega)]
    rfl

/-- Whatever comes behind it, it is refused. -/
theorem Refused.append (h : Refused stack l) (more : List UInt8) :
    Refused stack (l ++ more) ∧ (l ++ more).head? = l.head? := by
  cases h with
  | char hc0 hopen hclose hquote hblank hstarts =>
    exact ⟨.char hc0 hopen hclose hquote hblank hstarts, rfl⟩
  | bracket hstack => exact ⟨.bracket hstack, rfl⟩
  | primitive hstarts hcs hb hends hb0 =>
    refine ⟨?_, rfl⟩
    rw [List.cons_append, List.append_assoc, List.cons_append]
    exact .primitive hstarts hcs hb hends hb0
  | @escape text x htext hbad =>
    refine ⟨?_, rfl⟩
    rw [List.cons_append, List.append_assoc, List.cons_append]
    refine .escape htext ?_
    cases hbad with
    | char hescape hunicode => exact .char hescape hunicode
    | digit hshort hhex hc hc0 =>
      rw [List.cons_append, List.append_assoc, List.cons_append]
      exact .digit hshort hhex hc hc0

theorem not_complete_of_refused (hheld : HeldOk l.head? stack cur) (hl : Refused stack l)
    (more : List UInt8) : ¬ Complete (heldText stack cur ++ l ++ more) := by
  rintro ⟨pieces, hok, htext⟩
  obtain ⟨hrefused, hhead⟩ := hl.append more
  rw [List.append_assoc] at htext
  have hahead := ahead_zero (List.take_length (l := textOf pieces)) (Nat.le_refl _)
  have hparse := jsmnParse_pieces hok hahead
  rw [jsmnParse_refused (hhead ▸ hheld) hrefused (htext ▸ hahead)] at hparse
  cases hparse

/-- A text that ends inside of an escape, in a string. -/
def EndsInEscape (text : List UInt8) : Prop :=
  ∃ stack cur begun x, HeldOk (some '"'.toUInt8) stack cur ∧ StringText begun ∧ CutEscape x ∧
    text = heldText stack cur ++ '"'.toUInt8 :: (begun ++ '\\'.toUInt8 :: x)

/-- A string that is closed can be completed. -/
theorem complete_inString (hheld : HeldOk (some '"'.toUInt8) stack cur) (htext : StringText text) :
    Complete (heldText stack cur ++ '"'.toUInt8 :: text ++ ('"'.toUInt8 :: closers stack)) := by
  have hpush : HeldOk none stack (cur ++ [.string text]) :=
    HeldOk.push (.string text) hheld htext
  have hcomplete := complete_closeAll hpush
  rw [heldText_push, Piece.text] at hcomplete
  simpa using hcomplete

/-- So can a primitive. -/
theorem complete_inPrimitive {cs : List UInt8} (hheld : HeldOk (some c) stack cur)
    (hc : startsPrimitive c = true) (hcs : ∀ x ∈ cs, withinPrimitive x = true) :
    Complete (heldText stack cur ++ c :: cs ++ (' '.toUInt8 :: closers stack)) := by
  have hpush : HeldOk (some ' '.toUInt8) stack (cur ++ [.primitive (c :: cs)]) :=
    HeldOk.push (.primitive (c :: cs)) hheld ⟨⟨c, cs, rfl, hc, hcs⟩, rfl⟩
  have hblank : HeldOk none stack (cur ++ [.primitive (c :: cs)] ++ [.blank ' '.toUInt8]) :=
    HeldOk.push (.blank ' '.toUInt8) hpush rfl
  have hcomplete := complete_closeAll hblank
  rw [heldText_push, heldText_push, Piece.text, Piece.text] at hcomplete
  simpa using hcomplete

/-- And an escape. -/
theorem EndsInEscape.complete (h : EndsInEscape text) : ∃ more, Complete (text ++ more) := by
  obtain ⟨stack, cur, begun, x, hheld, hbegun, hcut, rfl⟩ := h
  have happend : ∀ {a b : List UInt8}, StringText a → StringText b → StringText (a ++ b) := by
    intro a b ha hb
    induction ha with
    | nil => exact hb
    | char hc0 hquote hslash _ ih => exact .char hc0 hquote hslash ih
    | escape hc _ ih => exact .escape hc ih
    | unicode hfour hhex _ ih =>
      rw [List.cons_append, List.cons_append, List.append_assoc]
      exact .unicode hfour hhex ih
  -- what is missing of the escape
  obtain ⟨rest, hrest⟩ : ∃ rest, StringText ('\\'.toUInt8 :: x ++ rest) := by
    cases hcut with
    | none => exact ⟨['n'.toUInt8], .escape (by decide) .nil⟩
    | @unicode digits hshort hhex =>
      refine ⟨List.replicate (4 - digits.length) '0'.toUInt8, ?_⟩
      have hunicode := @StringText.unicode (digits ++ List.replicate (4 - digits.length)
        '0'.toUInt8) [] (by rw [List.length_append, List.length_replicate]; omega) (fun c hc => by
          rcases List.mem_append.mp hc with hin | hin
          · exact hhex c hin
          · rw [(List.mem_replicate.mp hin).2]
            rfl) .nil
      rwa [List.append_nil] at hunicode
  refine ⟨rest ++ ('"'.toUInt8 :: closers stack), ?_⟩
  have hcomplete := complete_inString hheld (happend hbegun hrest)
  simpa using hcomplete

/-- The tokens of a complete text. -/
theorem inputAnswer_pieces (hok : PiecesOk none pieces) (h : Ahead js len 0 (textOf pieces)) :
    inputAnswer (jsmnParse js len len) = .ok (true, some (tokensOf 0 pieces ++ [endToken])) := by
  rw [jsmnParse_pieces hok h, inputAnswer, List.take_of_length_le (by rw [List.length_map]),
    List.map_map]
  have hsame : JsmnFill.tok ∘ JsmnTok.fill = id := funext tok_fill
  rw [hsame, List.map_id]

/-- The answer, one of three. -/
theorem inputAnswer_cases (hnul : 0 ∉ text) (hescape : ¬ EndsInEscape text)
    (h : Ahead js len 0 text) :
    (∃ pieces, PiecesOk none pieces ∧ textOf pieces = text ∧
      inputAnswer (jsmnParse js len len) = .ok (true, some (tokensOf 0 pieces ++ [endToken]))) ∨
    (inputAnswer (jsmnParse js len len) = .ok (true, none) ∧ ∃ more, Complete (text ++ more)) ∨
    (inputAnswer (jsmnParse js len len) = .ok (false, none) ∧
      ∀ more, ¬ Complete (text ++ more)) := by
  have hcase : TextCase text := text_cases text.length text [] [] (Nat.le_refl _) hnul trivial
  cases hcase with
  | @held stack cur hheld =>
    cases stack with
    | nil => exact .inl ⟨cur, hheld, rfl, inputAnswer_pieces hheld h⟩
    | cons top stack =>
      refine .inr (.inl ⟨?_, _, complete_closeAll hheld⟩)
      rw [jsmnParse_open hheld (List.cons_ne_nil _ _) h]
      rfl
  | inString hheld htext =>
    refine .inr (.inl ⟨?_, _, complete_inString hheld htext⟩)
    rw [jsmnParse_inString hheld htext h]
    rfl
  | inPrimitive hheld hc hcs =>
    refine .inr (.inl ⟨?_, _, complete_inPrimitive hheld hc hcs⟩)
    rw [jsmnParse_inPrimitive hheld hc hcs h]
    rfl
  | inEscape hheld htext hcut => exact absurd ⟨_, _, _, _, hheld, htext, hcut, rfl⟩ hescape
  | refused hheld hl =>
    refine .inr (.inr ⟨?_, not_complete_of_refused hheld hl⟩)
    rw [jsmnParse_refused hheld hl h]
    rfl

/-- The memory decides on the text only. -/
theorem jsonParseInput_text (hlen : len ≤ js.length) :
    jsonParseInput js len = inputAnswer
      (jsmnParse js (inputText js len).length (inputText js len).length) := by
  have hle : (inputText js len).length ≤ len := by
    refine (List.takeWhile_prefix _).length_le.trans ?_
    rw [List.length_take]
    exact Nat.min_le_left _ _
  rw [jsonParseInput_eq, jsmnParse_inputText hlen]
  rcases (jsmnParse_num hle : jsmnParse js (inputText js len).length _ = _ ∨ _) with heq | herr
  · rw [heq]
  · exact absurd herr jsmnParse_room

theorem ahead_inputText :
    Ahead js (inputText js len).length 0 (inputText js len) := by
  have hprefix : inputText js len <+: js :=
    (List.takeWhile_prefix _).trans (List.take_prefix _ _)
  exact ahead_zero (List.prefix_iff_eq_take.mp hprefix).symm hprefix.length_le

theorem nul_notMem_inputText : 0 ∉ inputText js len := by
  intro h
  have hne := List.mem_takeWhile_imp h
  simp at hne

/-- Tokens come from pieces. -/
theorem pieces_of_jsonParseInput {valid : Bool} {toks : List JsmnTok} (hlen : len ≤ js.length)
    (h : jsonParseInput js len = .ok (valid, some toks)) :
    ∃ pieces, PiecesOk none pieces ∧ textOf pieces = inputText js len ∧
      toks = tokensOf 0 pieces ++ [endToken] := by
  have hahead := @ahead_inputText js len
  rw [jsonParseInput_text hlen] at h
  by_cases hescape : EndsInEscape (inputText js len)
  · obtain ⟨stack, cur, begun, x, hheld, hbegun, hcut, htext⟩ := hescape
    have hahead' : Ahead js (inputText js len).length 0
        (heldText stack cur ++ '"'.toUInt8 :: (begun ++ '\\'.toUInt8 :: x)) := by
      rw [← htext]
      exact hahead
    have hne := jsmnParse_inEscape_ne hheld hbegun hcut hahead'
    cases hr : jsmnParse js (inputText js len).length (inputText js len).length with
    | error e => rw [hr] at h; cases e <;> cases h
    | ok r => exact absurd hr (hne r)
  · rcases inputAnswer_cases nul_notMem_inputText hescape hahead with
      ⟨pieces, hok, htext, hanswer⟩ | ⟨hanswer, -⟩ | ⟨hanswer, -⟩
    · rw [hanswer] at h
      exact ⟨pieces, hok, htext, (Option.some.inj (Prod.mk.inj (Except.ok.inj h)).2).symm⟩
    · rw [hanswer] at h
      cases h
    · rw [hanswer] at h
      cases h

end Answers

-- ---------------------------------------------------------------------------
-- One reading only
-- ---------------------------------------------------------------------------

section Unique

variable {a b : List UInt8} {next next' : Option UInt8} {ps qs : List Piece}

/-- A string ends at one place only. -/
theorem stringText_unique {text text' : List UInt8} (h : StringText text) (h' : StringText text')
    (heq : text ++ '"'.toUInt8 :: a = text' ++ '"'.toUInt8 :: b) : text = text' ∧ a = b := by
  have hahead := ahead_zero (List.take_length (l := text ++ '"'.toUInt8 :: a)) (Nat.le_refl _)
  have hloop := jsmnStringLoop_closed h hahead (Nat.lt_succ_self _)
  have hahead' := hahead
  rw [heq] at hahead'
  rw [heq] at hloop
  have hloop' := jsmnStringLoop_closed h' hahead' (Nat.lt_succ_self _)
  have hlen : text.length = text'.length := by
    have hsame := Except.ok.inj (hloop.symm.trans hloop')
    omega
  obtain ⟨htext, hrest⟩ := List.append_inj heq hlen
  exact ⟨htext, (List.cons.inj hrest).2⟩

/-- So does a primitive. -/
theorem primitiveText_unique {text text' : List UInt8} (h : ∀ x ∈ text, withinPrimitive x = true)
    (h' : ∀ x ∈ text', withinPrimitive x = true) (ha : a.head?.any endsPrimitive = true)
    (hb : b.head?.any endsPrimitive = true) (heq : text ++ a = text' ++ b) :
    text = text' ∧ a = b := by
  cases a with
  | nil => cases ha
  | cons e a =>
    cases b with
    | nil => cases hb
    | cons e' b =>
      have hahead := ahead_zero (List.take_length (l := text ++ e :: a)) (Nat.le_refl _)
      have hloop := jsmnPrimitiveLoop_ended ha
        (ne_zero_of_endsPrimitive e ha) h hahead (Nat.lt_succ_self _)
      have hahead' := hahead
      rw [heq] at hahead'
      rw [heq] at hloop
      have hloop' := jsmnPrimitiveLoop_ended hb
        (ne_zero_of_endsPrimitive e' hb) h' hahead' (Nat.lt_succ_self _)
      have hlen : text.length = text'.length := by
        have hsame := Except.ok.inj (hloop.symm.trans hloop')
        omega
      exact List.append_inj heq hlen

theorem PrimitiveText.within {text : List UInt8} (h : PrimitiveText text) :
    ∀ x ∈ text, withinPrimitive x = true := by
  obtain ⟨c, cs, rfl, hc, hcs⟩ := h
  exact List.forall_mem_cons.mpr ⟨(of_startsPrimitive c hc).2.2.2.2.2, hcs⟩

/-- The kinds of characters with which a piece begins. -/
inductive HeadKind
  | blank
  | primitive
  | quote
  | opening
  | other
deriving DecidableEq

/-- Which kind a character is. -/
def headKind (c : UInt8) : HeadKind :=
  if c = '"'.toUInt8 then .quote
  else if c = opening true ∨ c = opening false then .opening
  else if isBlank c then .blank
  else if startsPrimitive c then .primitive
  else .other

/-- The kind with which a piece begins. -/
def Piece.kind : Piece → HeadKind
  | .blank _ => .blank
  | .primitive _ => .primitive
  | .string _ => .quote
  | .group _ _ => .opening

theorem headKind_of_isBlank (c : UInt8) : isBlank c = true → headKind c = .blank :=
  forall_byte (P := fun c => isBlank c = true → headKind c = .blank) (by decide +kernel) c

theorem headKind_of_startsPrimitive (c : UInt8) : startsPrimitive c = true → headKind c = .primitive :=
  forall_byte (P := fun c => startsPrimitive c = true → headKind c = .primitive)
    (by decide +kernel) c

/-- The first character of a piece tells its kind. -/
theorem Piece.Ok.head {piece : Piece} (h : piece.Ok next) :
    ∃ c rest, piece.text = c :: rest ∧ headKind c = piece.kind := by
  cases piece with
  | blank c => exact ⟨c, [], rfl, headKind_of_isBlank c h⟩
  | primitive text =>
    obtain ⟨⟨c, cs, rfl, hc, -⟩, -⟩ := h
    exact ⟨c, cs, rfl, headKind_of_startsPrimitive c hc⟩
  | string text => exact ⟨_, _, rfl, rfl⟩
  | group object pieces => exact ⟨_, _, rfl, by cases object <;> rfl⟩

/-- No piece begins with a closing bracket. -/
theorem Piece.Ok.not_closing {piece : Piece} (h : piece.Ok next) (object : Bool) {rest : List UInt8} :
    piece.text ++ a ≠ closing object :: rest := by
  obtain ⟨c, tail, htext, hkind⟩ := h.head
  intro heq
  rw [htext] at heq
  obtain ⟨rfl, -⟩ := List.cons.inj heq
  cases piece <;> cases object <;> cases hkind

mutual

/-- A text begins with one piece only. -/
theorem Piece.unique : ∀ (p q : Piece) {a b : List UInt8}, p.Ok a.head? → q.Ok b.head? →
    p.text ++ a = q.text ++ b → p = q ∧ a = b
  | p, q, a, b, hp, hq, heq => by
    obtain ⟨c, rest, hc, hkind⟩ := hp.head
    obtain ⟨c', rest', hc', hkind'⟩ := hq.head
    have hsame : p.kind = q.kind := by
      rw [← hkind, ← hkind']
      have hcons := heq
      rw [hc, hc'] at hcons
      rw [(List.cons.inj hcons).1]
    match p, q, hsame with
    | .blank c, .blank c', _ =>
      obtain ⟨rfl, rfl⟩ := List.cons.inj heq
      exact ⟨rfl, rfl⟩
    | .primitive text, .primitive text', _ =>
      obtain ⟨rfl, rfl⟩ := primitiveText_unique hp.1.within hq.1.within hp.2 hq.2 heq
      exact ⟨rfl, rfl⟩
    | .string text, .string text', _ =>
      rw [Piece.text, Piece.text, List.cons_append, List.cons_append, List.append_assoc,
        List.append_assoc] at heq
      obtain ⟨rfl, rfl⟩ := stringText_unique hp hq (List.cons.inj heq).2
      exact ⟨rfl, rfl⟩
    | .group object ps, .group object' qs, _ =>
      rw [Piece.text, Piece.text, List.cons_append, List.cons_append, List.append_assoc,
        List.append_assoc] at heq
      obtain ⟨hopening, heq⟩ := List.cons.inj heq
      have hobject : object = object' := by
        cases object <;> cases object' <;> first | rfl | exact absurd hopening (by decide)
      subst hobject
      rcases pieces_unique ps qs (a := closing object :: a) (b := closing object :: b) hp hq heq with
        ⟨rs, rfl, hrs, hrest⟩ | ⟨rs, rfl, hrs, hrest⟩
      · cases rs with
        | nil =>
          rw [List.append_nil]
          exact ⟨rfl, (List.cons.inj hrest).2⟩
        | cons r rs =>
          rw [textOf, List.append_assoc] at hrest
          exact absurd hrest.symm (hrs.1.not_closing object)
      · cases rs with
        | nil =>
          rw [List.append_nil]
          exact ⟨rfl, (List.cons.inj hrest).2.symm⟩
        | cons r rs =>
          rw [textOf, List.append_assoc] at hrest
          exact absurd hrest.symm (hrs.1.not_closing object)

/-- Of two rows of pieces with which a text begins one goes on where the other ends. -/
theorem pieces_unique : ∀ (ps qs : List Piece) {a b : List UInt8}, PiecesOk a.head? ps →
    PiecesOk b.head? qs → textOf ps ++ a = textOf qs ++ b →
    (∃ rs, qs = ps ++ rs ∧ PiecesOk b.head? rs ∧ a = textOf rs ++ b) ∨
      ∃ rs, ps = qs ++ rs ∧ PiecesOk a.head? rs ∧ b = textOf rs ++ a
  | [], qs, a, b, _, hqs, heq => .inl ⟨qs, rfl, hqs, heq⟩
  | p :: ps, [], a, b, hps, _, heq => .inr ⟨p :: ps, rfl, hps, heq.symm⟩
  | p :: ps, q :: qs, a, b, hps, hqs, heq => by
    rw [textOf, textOf, List.append_assoc, List.append_assoc] at heq
    have hp : p.Ok (textOf ps ++ a).head? := by
      rw [List.head?_append]
      exact hps.1
    have hq : q.Ok (textOf qs ++ b).head? := by
      rw [List.head?_append]
      exact hqs.1
    obtain ⟨rfl, hrest⟩ := Piece.unique p q hp hq heq
    rcases pieces_unique ps qs hps.2 hqs.2 hrest with ⟨rs, rfl, hrs, hend⟩ | ⟨rs, rfl, hrs, hend⟩
    · exact .inl ⟨rs, rfl, hrs, hend⟩
    · exact .inr ⟨rs, rfl, hrs, hend⟩

end

/-- What is complete and begins a complete text is some of its pieces. -/
theorem prefix_of_complete (hps : PiecesOk none ps) (hqs : PiecesOk none qs)
    (h : textOf ps <+: textOf qs) : ps <+: qs := by
  obtain ⟨a, ha⟩ := h
  have heq : textOf ps ++ a = textOf qs ++ [] := by rw [List.append_nil, ha]
  rcases pieces_unique ps qs (b := []) hps.mono hqs heq with ⟨rs, rfl, -, -⟩ | ⟨rs, rfl, hrs, hend⟩
  · exact List.prefix_append _ _
  · cases rs with
    | nil => rw [List.append_nil]
    | cons r rs =>
      obtain ⟨c, rest, hc, -⟩ := hrs.1.head
      rw [textOf, hc] at hend
      cases hend

end Unique

/-- **What the JSON interface reads.** Of the text before the first nul, if it does not end
inside of an escape, `json_parse_input` gives the tokens exactly if the text is pieces; it asks
for more exactly if it is not, but some text that begins with it is; and it refuses it exactly
if no such text is. A text that ends inside of an escape begins one that is read, and yet the
call reads past the end of the memory, if that is where the text ends, and there is something
behind the text for which it is refused. -/
theorem jsonParseInput_answers (input : List UInt8) (len : Nat) (hlen : len ≤ input.length) :
    (¬ EndsInEscape (inputText input len) →
      (∀ toks, jsonParseInput input len = .ok (true, some toks) ↔
        ∃ pieces, PiecesOk none pieces ∧ textOf pieces = inputText input len ∧
          toks = tokensOf 0 pieces ++ [endToken]) ∧
      (jsonParseInput input len = .ok (true, none) ↔
        ¬ Complete (inputText input len) ∧ ∃ more, Complete (inputText input len ++ more)) ∧
      (jsonParseInput input len = .ok (false, none) ↔
        ∀ more, ¬ Complete (inputText input len ++ more))) ∧
    ∀ text, 0 ∉ text → EndsInEscape text →
      (∃ more, Complete (text ++ more)) ∧
      jsonParseInput text text.length = .error .bounds ∧
      ∃ behind, jsonParseInput (text ++ behind) text.length = .ok (false, none) := by
  constructor
  · intro hescape
    have hahead := @ahead_inputText input len
    rw [jsonParseInput_text hlen]
    -- a complete text has one answer, so that the three exclude each other
    have hcomplete : ∀ pieces, PiecesOk none pieces → textOf pieces = inputText input len →
        inputAnswer (jsmnParse input (inputText input len).length (inputText input len).length) =
          .ok (true, some (tokensOf 0 pieces ++ [endToken])) :=
      fun pieces hok htext => inputAnswer_pieces hok (htext ▸ hahead)
    rcases inputAnswer_cases nul_notMem_inputText hescape hahead with
      ⟨pieces, hok, htext, hanswer⟩ | ⟨hanswer, hmore⟩ | ⟨hanswer, hnone⟩
    · rw [hanswer]
      refine ⟨fun toks => ⟨fun h => ?_, ?_⟩, ⟨(by rintro ⟨⟩), ?_⟩, ⟨(by rintro ⟨⟩), fun h => ?_⟩⟩
      · exact ⟨pieces, hok, htext, (Option.some.inj (Prod.mk.inj (Except.ok.inj h)).2).symm⟩
      · rintro ⟨pieces', hok', htext', rfl⟩
        rw [← hcomplete pieces' hok' htext', hanswer]
      · exact fun h => absurd ⟨pieces, hok, htext⟩ h.1
      · exact absurd ⟨pieces, hok, by rw [List.append_nil, htext]⟩ (h [])
    · rw [hanswer]
      refine ⟨fun toks => ⟨(by rintro ⟨⟩), ?_⟩, ⟨fun _ => ⟨?_, hmore⟩, fun _ => rfl⟩,
        ⟨(by rintro ⟨⟩), fun h => ?_⟩⟩
      · rintro ⟨pieces, hok, htext, -⟩
        rw [hcomplete pieces hok htext] at hanswer
        cases hanswer
      · rintro ⟨pieces, hok, htext⟩
        rw [hcomplete pieces hok htext] at hanswer
        cases hanswer
      · obtain ⟨more, hmore⟩ := hmore
        exact absurd hmore (h more)
    · rw [hanswer]
      refine ⟨fun toks => ⟨(by rintro ⟨⟩), ?_⟩, ⟨(by rintro ⟨⟩), fun h => ?_⟩,
        ⟨fun _ => hnone, fun _ => rfl⟩⟩
      · rintro ⟨pieces, hok, htext, -⟩
        exact absurd ⟨pieces, hok, by rw [List.append_nil, htext]⟩ (hnone [])
      · obtain ⟨more, hmore⟩ := h.2
        exact absurd hmore (hnone more)
  · intro text hnul hescape
    have hwhole : inputText text text.length = text := by
      rw [inputText, List.take_length]
      exact List.takeWhile_eq_self_iff.mpr fun x hx => decide_eq_true (by rintro rfl; exact hnul hx)
    have hbehind : inputText (text ++ ['g'.toUInt8]) text.length = text := by
      rw [inputText, List.take_left]
      exact List.takeWhile_eq_self_iff.mpr fun x hx => decide_eq_true (by rintro rfl; exact hnul hx)
    refine ⟨hescape.complete, ?_, ['g'.toUInt8], ?_⟩
    · obtain ⟨stack, cur, begun, x, hheld, hbegun, hcut, htext⟩ := hescape
      have hahead := ahead_zero (List.take_length (l := text)) (Nat.le_refl _)
      rw [jsonParseInput_text (Nat.le_refl _), hwhole,
        jsmnParse_inEscape (e := .fault .bounds) hheld hbegun hcut (htext ▸ hahead) (.inl ?_)]
      · rfl
      · rw [charAt, List.getElem?_eq_none (Nat.le_refl _)]
    · obtain ⟨stack, cur, begun, x, hheld, hbegun, hcut, htext⟩ := hescape
      have hle : text.length ≤ (text ++ ['g'.toUInt8]).length := by
        rw [List.length_append]
        exact Nat.le_add_right _ _
      have hahead := ahead_zero (List.take_left : (text ++ ['g'.toUInt8]).take text.length = text) hle
      rw [jsonParseInput_text hle, hbehind,
        jsmnParse_inEscape hheld hbegun hcut (htext ▸ hahead) (.inr ⟨?_, rfl⟩)]
      · rfl
      · rw [charAt, List.getElem?_append_right (Nat.le_refl _), Nat.sub_self]
        rfl

/-- The text `{"a":[1,2]}` ends in no escape, and so its tokens come from pieces. -/
theorem jsonParseInput_answers_small :
    ∃ pieces, PiecesOk none pieces ∧ textOf pieces = smallText ∧
      smallTree.tokens = tokensOf 0 pieces := by
  obtain ⟨hread, hcut⟩ := jsonParseInput_answers smallText 11 (by decide)
  have htoks : jsonParseInput smallText 11 = .ok (true, some (smallTree.tokens ++ [endToken])) := by
    decide +kernel
  have hescape : ¬ EndsInEscape (inputText smallText 11) := by
    intro h
    have hbounds := (hcut smallText (by decide) h).2.1
    rw [show smallText.length = 11 from rfl, htoks] at hbounds
    cases hbounds
  obtain ⟨pieces, hok, htext, hsame⟩ := ((hread hescape).1 _).mp htoks
  exact ⟨pieces, hok, htext, List.append_cancel_right hsame⟩

end Pettycoin
