import Zl.Lexer.Spelling

namespace zl.lexer

/-- A token in a text, with the text before it that belongs to no token. -/
structure Piece where
  gap : List Char
  span : List Char
  scan : Scan

def textOf : List Piece → List Char → List Char
  | [], last => last
  | piece :: pieces, last => piece.gap ++ (piece.span ++ textOf pieces last)

/-- A text that begins with tokens, with whitespace and comments before each of them. -/
inductive Laid : List Piece → List Char → Prop where
  | nil {last} : Laid [] last
  | cons {piece pieces last} (hgap : Blank false piece.gap false)
      (hstarts : StartsToken (piece.span ++ textOf pieces last))
      (hscans : Scans (piece.span ++ textOf pieces last) piece.scan piece.span (textOf pieces last))
      (hrescans : Rescans piece.scan piece.span (textOf pieces last)) (h : Laid pieces last) :
      Laid (piece :: pieces) last

/-- The line and the column of the character that comes after a text. -/
def placeLine (before : List Char) : Nat := before.count '\n' + 1

def placeColumn (before : List Char) : Nat := (before.reverse.takeWhile (· ≠ '\n')).length + 1

/-- The tokens of a text, each at the place of its first character. -/
def tokensOf (before : List Char) : List Piece → List Token
  | [] => []
  | piece :: pieces =>
    ⟨piece.scan.type, String.ofList piece.scan.lexeme, placeLine (before ++ piece.gap),
      placeColumn (before ++ piece.gap)⟩ :: tokensOf (before ++ piece.gap ++ piece.span) pieces

/-- Other whitespace in place of a gap. -/
def Respaces (gap gap' : List Char) : Prop := gap' = gap ∨ gap' ≠ [] ∧ ∀ c ∈ gap', isWhitespace c = true

/-- The same tokens, with whitespace in place of some of the gaps. -/
def Respaced (pieces pieces' : List Piece) : Prop :=
  List.Forall₂ (fun piece piece' => Respaces piece.gap piece'.gap ∧ piece'.span = piece.span ∧
    piece'.scan = piece.scan) pieces pieces'

def cursorAt (before rest : List Char) : Cursor :=
  ⟨rest, before.length, placeLine before, placeColumn before⟩

section
variable {before front rest : List Char}

@[simp] theorem cursorAt_rest : (cursorAt before rest).rest = rest := rfl

theorem advance_cursorAt (before : List Char) (c : Char) (rest : List Char) :
    (cursorAt before (c :: rest)).advance = cursorAt (before ++ [c]) rest := by
  by_cases hc : c = '\n'
  · simp [cursorAt, Cursor.advance, hc, placeLine, placeColumn]
  · simp [cursorAt, Cursor.advance, hc, placeLine, placeColumn]

theorem advanceBy_cursorAt (before front rest : List Char) :
    (cursorAt before (front ++ rest)).advanceBy front.length = cursorAt (before ++ front) rest := by
  induction front generalizing before with
  | nil => rw [List.append_nil]; rfl
  | cons c front ih =>
    rw [List.cons_append, List.length_cons, Cursor.advanceBy, advance_cursorAt, ih, List.append_assoc,
      List.singleton_append]

end

section
variable {before rest gap span after : List Char} {fuel : Nat} {scan : Scan}

theorem scanTokens_blank {ends : Bool} (h : Blank false rest ends) :
    scanTokens (fuel + 1) (cursorAt before rest) = .ok ([], cursorAt (before ++ rest) []) := by
  have hskip := skip_gap h (.inl rfl)
  rw [List.append_nil] at hskip
  have hmoved := advanceBy_cursorAt before rest []
  rw [List.append_nil] at hmoved
  simp only [scanTokens, cursorAt_rest, hskip, hmoved]

/-- One round of the loop: a gap, and the token after it. -/
theorem scanTokens_token (hgap : Blank false gap false) (hstarts : StartsToken (span ++ after))
    (hlength : scan.length = span.length)
    (hscan : ∀ c rest, span ++ after = c :: rest → scanToken c rest = .ok scan) :
    scanTokens (fuel + 1) (cursorAt before (gap ++ (span ++ after))) =
      (scanTokens fuel (cursorAt (before ++ gap ++ span) after)).map
        fun (scanned, stop) => (⟨cursorAt (before ++ gap) (span ++ after), scan⟩ :: scanned, stop) := by
  obtain ⟨c, rest, htext, -⟩ := id hstarts
  have hskip := skip_gap hgap (.inr ⟨rfl, hstarts⟩)
  have hmoved := advanceBy_cursorAt (before ++ gap) span after
  rw [htext] at hmoved
  rw [scanTokens, cursorAt_rest, hskip, advanceBy_cursorAt, htext]
  simp only [cursorAt_rest, hscan c rest htext]
  change (scanTokens fuel ((cursorAt (before ++ gap) (c :: rest)).advanceBy scan.length)).bind _ = _
  rw [hlength, hmoved]
  cases scanTokens fuel (cursorAt (before ++ gap ++ span) after) <;> rfl

theorem scanTokens_unterminated {message : String} {c : Char} (hgap : Blank false gap false)
    (hstarts : StartsToken (c :: rest)) (hscan : scanToken c rest = .error message) :
    scanTokens (fuel + 1) (cursorAt before (gap ++ c :: rest)) = .error message := by
  have hskip := skip_gap hgap (.inr ⟨rfl, hstarts⟩)
  rw [scanTokens, cursorAt_rest, hskip, advanceBy_cursorAt]
  simp only [cursorAt_rest, hscan]
  rfl

/-- A text is one of tokens, or it has a literal without an end behind some tokens. -/
theorem scanTokens_spec (fuel : Nat) (before text : List Char) (hfuel : text.length < fuel) :
    (∃ pieces last ends, text = textOf pieces last ∧ Laid pieces last ∧ Blank false last ends) ∨
      ∃ pieces gap c rest message, text = textOf pieces (gap ++ c :: rest) ∧
        Laid pieces (gap ++ c :: rest) ∧ Blank false gap false ∧ Unterminated c rest message ∧
        scanTokens fuel (cursorAt before text) = .error message := by
  induction fuel generalizing before text with
  | zero => exact absurd hfuel (Nat.not_lt_zero _)
  | succ fuel ih =>
    obtain ⟨gap, after, ends, rfl, -, hblank, hafter⟩ := skip_spec text false
    rcases hafter with rfl | ⟨rfl, hstarts⟩
    · exact .inl ⟨[], gap, ends, List.append_nil gap, .nil, hblank⟩
    obtain ⟨c, rest, rfl, -⟩ := id hstarts
    rcases scanToken_spec c rest with ⟨scan, span, after, hscan, hscans, hrescans⟩ | ⟨message,
      hmessage, hscan⟩
    · have htext := hscans.text_eq
      have hpos := List.length_pos_of_ne_nil hscans.ne_nil
      rw [htext] at hstarts hscans hfuel ⊢
      simp only [List.length_append] at hfuel
      have hround := @scanTokens_token before _ _ _ fuel _ hblank hstarts hscans.length
        fun d rest' heq => by
          obtain ⟨rfl, rfl⟩ := List.cons.inj (htext.trans heq)
          exact hscan
      rcases ih (before ++ gap ++ span) after (by omega) with ⟨pieces, last, ends, rfl, hlaid, hlast⟩ |
        ⟨pieces, gap', d, rest', message, rfl, hlaid, hgap, hmessage, herror⟩
      · exact .inl ⟨⟨gap, span, scan⟩ :: pieces, last, ends, rfl,
          .cons hblank hstarts hscans hrescans hlaid, hlast⟩
      · exact .inr ⟨⟨gap, span, scan⟩ :: pieces, gap', d, rest', message, rfl,
          .cons hblank hstarts hscans hrescans hlaid, hgap, hmessage, by rw [hround, herror]; rfl⟩
    · exact .inr ⟨[], gap, c, rest, message, rfl, .nil, hblank, hmessage,
        scanTokens_unterminated hblank hstarts hscan⟩

theorem Rescans.self (h : Rescans scan span after) : ∀ c rest, span ++ after = c :: rest →
    scanToken c rest = .ok scan := by
  refine h after ?_
  cases after with
  | nil => exact .inl nofun
  | cons d after => exact .inr ⟨d, after, after, rfl, rfl, .inr rfl⟩

/-- The tokens of a text that is laid out. -/
theorem scanTokens_laid {pieces : List Piece} {last : List Char} (h : Laid pieces last) {ends : Bool}
    (hlast : Blank false last ends) : ∀ fuel before, (textOf pieces last).length < fuel → ∃ scanned,
      scanTokens fuel (cursorAt before (textOf pieces last)) =
        .ok (scanned, cursorAt (before ++ textOf pieces last) []) ∧
      scanned.map Scanned.token = tokensOf before pieces := by
  induction h with
  | nil =>
    intro fuel before hfuel
    obtain ⟨fuel, rfl⟩ := Nat.exists_eq_succ_of_ne_zero (Nat.ne_of_gt (Nat.zero_lt_of_lt hfuel))
    exact ⟨[], scanTokens_blank hlast, rfl⟩
  | @cons piece pieces last hgap hstarts hscans hrescans _ ih =>
    intro fuel before hfuel
    obtain ⟨fuel, rfl⟩ := Nat.exists_eq_succ_of_ne_zero (Nat.ne_of_gt (Nat.zero_lt_of_lt hfuel))
    have hpos := List.length_pos_of_ne_nil hscans.ne_nil
    simp only [textOf, List.length_append] at hfuel
    obtain ⟨scanned, hscanned, htokens⟩ := ih hlast fuel (before ++ piece.gap ++ piece.span) (by omega)
    refine ⟨⟨cursorAt (before ++ piece.gap) (piece.span ++ textOf pieces last), piece.scan⟩ ::
      scanned, ?_, ?_⟩
    · rw [textOf, scanTokens_token hgap hstarts hscans.length hrescans.self, hscanned]
      simp only [Except.map, List.append_assoc]
    · rw [List.map_cons, htokens]
      rfl

end

section
variable {front after after' gap gap' span last last' : List Char} {scan : Scan}
  {pieces pieces' : List Piece}

theorem Blunter.append (h : Blunter after' after) (front : List Char) :
    Blunter (front ++ after') (front ++ after) := by
  induction front with
  | nil => exact h
  | cons d front ih =>
    refine .inr ⟨d, front ++ after, front ++ after', rfl, rfl, ?_⟩
    rcases ih with hspace | ⟨e, t, t', hold, hnew, -⟩
    · exact .inl hspace
    · exact .inr (by rw [hold, hnew]; rfl)

theorem Respaces.blunter (h : Respaces gap gap') (hafter : Blunter after' after) :
    Blunter (gap' ++ after') (gap ++ after) := by
  rcases h with rfl | ⟨hne, hspace⟩
  · exact hafter.append gap'
  · obtain ⟨c, gap', rfl⟩ := List.exists_cons_of_ne_nil hne
    refine .inl fun d hd => ?_
    obtain rfl : c = d := Option.some.inj hd
    exact hspace c List.mem_cons_self

theorem Respaces.blank {ends : Bool} (h : Respaces gap gap') (hgap : Blank false gap ends) :
    Blank false gap' ends ∨ Blank false gap' false := by
  rcases h with rfl | ⟨-, hspace⟩
  · exact .inl hgap
  · exact .inr (blank_of_whitespace hspace)

theorem StartsToken.blunter (h : StartsToken (span ++ after)) (hne : span ≠ [])
    (hblunter : Blunter after' after) :
    StartsToken (span ++ after') := by
  obtain ⟨c, rest, htext, hspace, hcomment⟩ := h
  obtain ⟨d, span, rfl⟩ := List.exists_cons_of_ne_nil hne
  obtain ⟨rfl, rfl⟩ := List.cons.inj htext
  refine ⟨d, span ++ after', rfl, hspace, fun ⟨hd, hnext⟩ => hcomment ⟨hd, ?_⟩⟩
  cases span with
  | cons e span => exact hnext
  | nil =>
    rcases hblunter with hblank | ⟨e, t, t', rfl, rfl, -⟩
    · exact absurd (hblank '/' hnext) (by decide)
    · exact hnext

/-- What is scanned at the front of a text is a token of it. -/
theorem scans_of_scanToken (hne : span ≠ []) (hlength : scan.length = span.length)
    (h : ∀ c rest, span ++ after = c :: rest → scanToken c rest = .ok scan) :
    Scans (span ++ after) scan span after ∧ Rescans scan span after := by
  obtain ⟨c, span, rfl⟩ := List.exists_cons_of_ne_nil hne
  have hscan := h c (span ++ after) rfl
  rcases scanToken_spec c (span ++ after) with ⟨scan', span', after', hscan', hscans,
    hrescans⟩ | ⟨_, -, herror⟩
  · obtain rfl := Except.ok.inj (hscan.symm.trans hscan')
    have htext : c :: span ++ after = span' ++ after' := hscans.text_eq
    obtain ⟨rfl, rfl⟩ := List.append_inj htext (hlength.symm.trans hscans.length)
    exact ⟨hscans, hrescans⟩
  · rw [hscan] at herror
    exact nomatch herror

theorem Laid.respaced (h : Laid pieces last) (hpieces : Respaced pieces pieces')
    (hlast : Respaces last last') :
    Laid pieces' last' ∧ Blunter (textOf pieces' last') (textOf pieces last) := by
  induction h generalizing pieces' with
  | nil =>
    cases hpieces
    have hnil : Blunter [] [] := .inl nofun
    have hblunter := hlast.blunter hnil
    simp only [List.append_nil] at hblunter
    exact ⟨.nil, hblunter⟩
  | @cons piece pieces last hgap hstarts hscans hrescans _ ih =>
    obtain _ | ⟨⟨hspaces, hspan, hscan⟩, hpieces⟩ := hpieces
    obtain ⟨hlaid, hblunter⟩ := ih hpieces hlast
    rename_i piece' pieces'
    obtain ⟨gap', span', scan'⟩ := piece'
    obtain rfl : span' = piece.span := hspan
    obtain rfl : scan' = piece.scan := hscan
    obtain ⟨hscans', hrescans'⟩ := scans_of_scanToken hscans.ne_nil hscans.length (hrescans _ hblunter)
    refine ⟨.cons ?_ (hstarts.blunter hscans.ne_nil hblunter) hscans' hrescans' hlaid, ?_⟩
    · exact (hspaces.blank hgap).elim id id
    · exact hspaces.blunter (hblunter.append piece.span)

/-- What the parser sees of a token. -/
def Token.kind (token : Token) : TokenType × String := (token.type, token.lexeme)

theorem kinds_respaced (h : Respaced pieces pieces') (before before' : List Char) :
    (tokensOf before' pieces').map Token.kind = (tokensOf before pieces).map Token.kind := by
  induction h generalizing before before' with
  | nil => rfl
  | cons hpiece _ ih =>
    simp only [tokensOf, List.map_cons, Token.kind, hpiece.2.2]
    rw [ih]

end

def endOfFile (source : List Char) : Token := ⟨.END_OF_FILE, "", placeLine source, placeColumn source⟩

theorem tokenize_laid {pieces : List Piece} {last : List Char} (h : Laid pieces last) {ends : Bool}
    (hlast : Blank false last ends) : tokenize (textOf pieces last) =
      .ok (tokensOf [] pieces ++ [endOfFile (textOf pieces last)]) := by
  obtain ⟨scanned, hscanned, htokens⟩ := scanTokens_laid h hlast _ [] (Nat.lt_succ_self _)
  change ((scanTokens _ (cursorAt [] _)).bind _) = _
  rw [hscanned]
  change Except.ok _ = _
  rw [htokens]
  rfl

end zl.lexer
