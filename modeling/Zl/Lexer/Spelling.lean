import Mathlib
import Zl.Collections.Basic
import Zl.Lexer.Lexer

open zl.collections

namespace zl.lexer

/-- Whitespace and comments, each up to the end of its line. The flags say whether the text starts
    and ends within a comment. -/
inductive Blank : Bool → List Char → Bool → Prop where
  | nil {inComment} : Blank inComment [] inComment
  | space {c gap ends} (hc : isWhitespace c = true) (h : Blank false gap ends) :
      Blank false (c :: gap) ends
  | comment {gap ends} (h : Blank true gap ends) : Blank false ('/' :: '/' :: gap) ends
  | inside {c gap ends} (hc : c ≠ '\n') (h : Blank true gap ends) : Blank true (c :: gap) ends
  | newline {gap ends} (h : Blank false gap ends) : Blank true ('\n' :: gap) ends

/-- A text that does not start with whitespace or a comment. -/
def StartsToken (text : List Char) : Prop :=
  ∃ c rest, text = c :: rest ∧ isWhitespace c = false ∧ ¬ (c = '/' ∧ rest.head? = some '/')

section
variable {c : Char} {rest gap after : List Char}

theorem skip_space (hc : isWhitespace c = true) :
    skipWhitespaceAndComments false (c :: rest) = skipWhitespaceAndComments false rest + 1 := by
  simp [skipWhitespaceAndComments, hc]

theorem skip_inside (hc : c ≠ '\n') :
    skipWhitespaceAndComments true (c :: rest) = skipWhitespaceAndComments true rest + 1 := by
  simp [skipWhitespaceAndComments, hc]

theorem skip_newline :
    skipWhitespaceAndComments true ('\n' :: rest) = skipWhitespaceAndComments false rest + 1 := by
  simp [skipWhitespaceAndComments, isWhitespace]

theorem skip_comment :
    skipWhitespaceAndComments false ('/' :: '/' :: rest) = skipWhitespaceAndComments true rest + 2 := by
  rw [skipWhitespaceAndComments, skip_inside (by decide)]
  rfl

theorem skip_token {text : List Char} (h : StartsToken text) :
    skipWhitespaceAndComments false text = 0 := by
  obtain ⟨c, rest, rfl, hspace, hcomment⟩ := h
  simp [skipWhitespaceAndComments, hspace, hcomment]

/-- What is skipped is the whitespace and the comments ahead, up to a token or the end. -/
theorem skip_spec (text : List Char) : ∀ inComment, ∃ gap after ends, text = gap ++ after ∧
    skipWhitespaceAndComments inComment text = gap.length ∧ Blank inComment gap ends ∧
      (after = [] ∨ ends = false ∧ StartsToken after) := by
  induction text with
  | nil => exact fun inComment => ⟨[], [], inComment, rfl, rfl, .nil, .inl rfl⟩
  | cons c rest ih =>
    intro inComment
    cases inComment with
    | true =>
      by_cases hc : c = '\n'
      · subst hc
        obtain ⟨gap, after, ends, htext, hskip, hblank, hafter⟩ := ih false
        exact ⟨'\n' :: gap, after, ends,
          congrArg _ htext, by rw [skip_newline, hskip]; rfl, .newline hblank, hafter⟩
      · obtain ⟨gap, after, ends, htext, hskip, hblank, hafter⟩ := ih true
        exact ⟨c :: gap, after, ends, congrArg _
          htext, by rw [skip_inside hc, hskip]; rfl, .inside hc hblank, hafter⟩
    | false =>
      by_cases hspace : isWhitespace c = true
      · obtain ⟨gap, after, ends, htext, hskip, hblank, hafter⟩ := ih false
        exact ⟨c :: gap, after, ends, congrArg _ htext, by rw [skip_space hspace, hskip]; rfl,
          .space hspace hblank, hafter⟩
      · by_cases hcomment : c = '/' ∧ rest.head? = some '/'
        · obtain ⟨rfl, hhead⟩ := hcomment
          obtain ⟨rest', rfl⟩ := List.head?_eq_some_iff.mp hhead
          obtain ⟨gap, after, ends, htext, hskip, hblank, hafter⟩ := ih true
          cases hblank with
          | nil =>
            rw [skip_inside (by decide)] at hskip
            exact absurd hskip (by simp)
          | newline => exact absurd htext (by simp)
          | inside hc hblank =>
            obtain ⟨rfl, htext⟩ := List.cons.inj htext
            rw [skip_inside (by decide)] at hskip
            refine ⟨'/' :: '/' :: _, after, ends, by rw [htext]; rfl, ?_, .comment hblank, hafter⟩
            rw [skip_comment, Nat.succ.inj hskip]
            rfl
        · have hstarts : StartsToken (c :: rest) := ⟨c, rest, rfl, Bool.eq_false_iff.mpr hspace, hcomment⟩
          exact ⟨[], c :: rest, false, rfl, skip_token hstarts, .nil, .inr ⟨rfl, hstarts⟩⟩

theorem skip_gap {inComment ends : Bool} (hgap : Blank inComment gap ends)
    (hafter : after = [] ∨ ends = false ∧ StartsToken after) :
    skipWhitespaceAndComments inComment (gap ++ after) = gap.length := by
  induction hgap with
  | nil =>
    rcases hafter with rfl | ⟨rfl, hstarts⟩
    · rfl
    · exact skip_token hstarts
  | space hc _ ih => rw [List.cons_append, skip_space hc, ih hafter, List.length_cons]
  | comment _ ih => rw [List.cons_append, List.cons_append, skip_comment, ih hafter,
      List.length_cons, List.length_cons]
  | inside hc _ ih => rw [List.cons_append, skip_inside hc, ih hafter, List.length_cons]
  | newline _ ih => rw [List.cons_append, skip_newline, ih hafter, List.length_cons]

theorem blank_of_whitespace (h : ∀ c ∈ gap, isWhitespace c = true) : Blank false gap false := by
  induction gap with
  | nil => exact .nil
  | cons c gap ih =>
    obtain ⟨hc, hgap⟩ := List.forall_mem_cons.mp h
    exact .space hc (ih hgap)

end

def operators : List (List Char × TokenType) :=
  [(['('], .LPAREN), ([')'], .RPAREN), (['{'], .LBRACE), (['}'], .RBRACE), ([','], .COMMA),
    (['+'], .PLUS), (['-'], .MINUS), (['*'], .STAR), (['/'], .SLASH), (['%'], .PERCENT),
    (['^', '^'], .POW), (['^'], .BIT_XOR), (['['], .LBRACKET), ([']'], .RBRACKET),
    ([';'], .SEMICOLON), ([':'], .COLON), (['@'], .AT), (['&', '&'], .AND), (['&'], .BIT_AND),
    (['|', '|'], .OR), (['|'], .BIT_OR), (['~'], .BIT_NOT), (['.', '.'], .DOT_DOT), (['.'], .DOT),
    (['=', '='], .EQ), (['=', '>'], .FAT_ARROW), (['='], .ASSIGN), (['!', '='], .NEQ),
    (['!'], .NOT), (['<', '<'], .SHL), (['<', '='], .LTE), (['<'], .LT), (['>', '>', '>'], .USHR),
    (['>', '>'], .SHR), (['>', '='], .GTE), (['>'], .GT)]

/-- The words, the numbers and the operators. -/
inductive Spells : List Char → TokenType → Prop where
  | word {c w} (hstart : isWordStart c = true) (hchars : ∀ d ∈ w, isWordChar d = true) :
      Spells (c :: w) (wordType (c :: w))
  | integer {w} (hne : w ≠ []) (hdigits : ∀ d ∈ w, d.isDigit = true) : Spells w .INT_LITERAL
  | decimal {whole fraction} (hne : fraction ≠ []) (hwhole : ∀ d ∈ whole, d.isDigit = true)
      (hfraction : ∀ d ∈ fraction, d.isDigit = true) : Spells (whole ++ '.' :: fraction) .FLOAT_LITERAL
  | operator {w type} (h : (w, type) ∈ operators) : Spells w type

section
variable {A : Type} {test : A → Bool} {w front rest : List A}

/-- A prefix of elements that all pass a test ends before the first that does not. -/
theorem length_le_of_prefix (hw : ∀ a ∈ w, test a = true) (hrest : ∀ a ∈ rest.head?, test a = false)
    (h : w <+: front ++ rest) : w.length ≤ front.length := by
  by_contra hlong
  obtain ⟨a, rest', rfl⟩ : ∃ a rest', rest = a :: rest' := by
    cases rest with
    | nil => exact absurd h.length_le (by simpa using hlong)
    | cons a rest' => exact ⟨a, rest', rfl⟩
  have hlt : front.length < w.length := by omega
  have hget : w[front.length] = a := by
    rw [h.getElem]
    simp
  have hpass := hw _ (List.getElem_mem hlt)
  rw [hget, hrest a rfl] at hpass
  exact nomatch hpass

end

section
variable {whole fraction after : List Char}

theorem scanNumber_decimal (hwhole : ∀ d ∈ whole, d.isDigit = true)
    (hfraction : ∀ d ∈ fraction, d.isDigit = true)
    (hne : fraction ≠ []) (hafter : ∀ d ∈ after.head?, d.isDigit = false) :
    scanNumber (whole ++ '.' :: (fraction ++ after)) = makeToken .FLOAT_LITERAL
      (whole ++ '.' :: fraction) := by
  have hhead : (fraction ++ after).head?.any Char.isDigit = true := by
    obtain ⟨d, fraction, rfl⟩ := List.exists_cons_of_ne_nil hne
    exact hfraction d List.mem_cons_self
  have hdot : ∀ d ∈ ('.' :: (fraction ++ after)).head?, d.isDigit = false := by simp
  cases whole with
  | nil => simp only [List.nil_append, scanNumber, takeWhile_front hfraction hafter]
  | cons d whole =>
    have hd : d ≠ '.' := by
      rintro rfl
      exact absurd (hwhole '.' List.mem_cons_self) (by decide)
    unfold scanNumber
    split
    case h_1 heq => exact absurd (List.cons.inj heq).1 hd
    case h_2 =>
      simp only [takeWhile_front hwhole hdot, dropWhile_front hwhole hdot, hhead, if_true,
        takeWhile_front hfraction hafter]

theorem scanNumber_integer (hwhole : ∀ d ∈ whole, d.isDigit = true) (hne : whole ≠ [])
    (hafter : ∀ d ∈ after.head?, d.isDigit = false)
    (hdot : ∀ rest, after = '.' :: rest → rest.head?.any Char.isDigit = false) :
    scanNumber (whole ++ after) = makeToken .INT_LITERAL whole := by
  obtain ⟨d, whole, rfl⟩ := List.exists_cons_of_ne_nil hne
  have hd : d ≠ '.' := by
    rintro rfl
    exact absurd (hwhole '.' List.mem_cons_self) (by decide)
  unfold scanNumber
  split
  case h_1 heq => exact absurd (List.cons.inj heq).1 hd
  case h_2 =>
    simp only [takeWhile_front hwhole hafter, dropWhile_front hwhole hafter]
    cases after with
    | nil => rfl
    | cons e rest =>
      by_cases he : e = '.'
      · subst he
        simp [hdot rest rfl]
      · split
        case h_1 heq => exact absurd (List.cons.inj heq).1 he
        case h_2 => rfl

end

/-- What follows a token begins with the same two characters as before, or there is whitespace or the
    end in place of the first that differs. -/
def Blunter (after' after : List Char) : Prop :=
  (∀ d ∈ after'.head?, isWhitespace d = true) ∨ ∃ d t t', after = d :: t ∧ after' = d :: t' ∧
    ((∀ e ∈ t'.head?, isWhitespace e = true) ∨ t'.head? = t.head?)

theorem Blunter.head {after' after : List Char} {test : Char → Bool} (h : Blunter after' after)
    (hspace : ∀ d, isWhitespace d = true → test d = false) (hafter : ∀ d ∈ after.head?, test d = false) :
    ∀ d ∈ after'.head?, test d = false := by
  rcases h with h | ⟨d, t, t', rfl, rfl, -⟩
  · exact fun d hd => hspace d (h d hd)
  · exact hafter

/-- The tokens whose text is a word, a number or an operator. -/
def isPlain (type : TokenType) : Bool := type ∉ [.STRING_LITERAL, .REGEX_LITERAL, .UNKNOWN]

/-- A token of a text, and what follows it. A word, a number or an operator is spelled as it stands
    and is the longest that starts there, and no such text starts at an unknown character. -/
structure Scans (text : List Char) (scan : Scan) (span after : List Char) : Prop where
  text_eq : text = span ++ after
  ne_nil : span ≠ []
  length : scan.length = span.length
  plain : isPlain scan.type = true → scan.lexeme = span ∧ Spells span scan.type
  longest : isPlain scan.type = true → ∀ w type, Spells w type → w <+: text → w.length ≤ span.length
  unknown : scan.type = .UNKNOWN → ∀ w type, Spells w type → ¬ w <+: text

theorem isDigit_of_isWhitespace {d : Char} (h : isWhitespace d = true) : d.isDigit = false := by
  simp only [isWhitespace, Bool.or_eq_true, decide_eq_true_eq] at h
  rcases h with ((rfl | rfl) | rfl) | rfl <;> rfl

theorem isWordChar_of_isWhitespace {d : Char} (h : isWhitespace d = true) : isWordChar d = false := by
  simp only [isWhitespace, Bool.or_eq_true, decide_eq_true_eq] at h
  rcases h with ((rfl | rfl) | rfl) | rfl <;> rfl

theorem isWordChar_of_isWordStart {c : Char} (h : isWordStart c = true) : isWordChar c = true := by
  simp only [isWordStart, isWordChar, Bool.or_eq_true, Char.isAlphanum] at h ⊢
  tauto

theorem isWordStart_of_isDigit {c : Char} (h : c.isDigit = true) : isWordStart c = false := by
  rw [Bool.eq_false_iff]
  intro hstart
  simp only [isWordStart, Char.isAlpha, Char.isUpper, Char.isLower, Bool.or_eq_true, decide_eq_true_eq,
    Bool.and_eq_true] at hstart
  simp only [Char.isDigit, Bool.and_eq_true, decide_eq_true_eq] at h
  rcases hstart with (hupper | hlower) | rfl
  · grind
  · grind
  · exact absurd h.2 (by decide)

/-- No operator begins like a word or a number, but for `.` and `..`. -/
theorem operator_head {w : List Char} {type : TokenType} (h : (w, type) ∈ operators) :
    ∃ c rest, w = c :: rest ∧ isWordStart c = false ∧ c.isDigit = false ∧ (c = '.' → w.length ≤ 2) := by
  have hall : operators.all (fun entry => entry.1.head?.any fun c =>
      !isWordStart c && !c.isDigit && (c ≠ '.' || entry.1.length ≤ 2)) = true := by decide
  have hentry := List.all_eq_true.mp hall _ h
  cases w with
  | nil => exact nomatch hentry
  | cons c rest =>
    simp only [List.head?_cons, Option.any_some, Bool.and_eq_true, Bool.not_eq_true', Bool.or_eq_true,
      decide_eq_true_eq] at hentry
    exact ⟨c, rest, rfl, hentry.1.1, hentry.1.2, fun hc => hentry.2.resolve_left fun hne => hne hc⟩

/-- However what follows is replaced by something blunter, the same token is there. -/
def Rescans (scan : Scan) (span after : List Char) : Prop :=
  ∀ after', Blunter after' after → ∀ c rest, span ++ after' = c :: rest → scanToken c rest = .ok scan

theorem head_dropWhile {A : Type} (test : A → Bool) (l : List A) : ∀ a ∈ (l.dropWhile test).head?,
    test a = false := by
  intro a ha
  have hnot := List.head?_dropWhile_not test l
  rw [Option.mem_def.mp ha] at hnot
  exact hnot

def StartsNumber (c : Char) (rest : List Char) : Prop :=
  c.isDigit = true ∨ c = '.' ∧ rest.head?.any Char.isDigit = true

theorem scanToken_number {c : Char} {rest : List Char} (h : StartsNumber c rest) :
    scanToken c rest = .ok (scanNumber (c :: rest)) := by
  rcases h with h | ⟨rfl, h⟩
  · simp [scanToken, h]
  · simp [scanToken, h]

section
variable {c : Char} {rest whole fraction after : List Char}

theorem scans_decimal (htext : c :: rest = whole ++ '.' :: (fraction ++ after))
    (hwhole : ∀ d ∈ whole, d.isDigit = true) (hfraction : ∀ d ∈ fraction, d.isDigit = true)
    (hne : fraction ≠ []) (hafter : ∀ d ∈ after.head?, d.isDigit = false) :
    Scans (c :: rest) (makeToken .FLOAT_LITERAL (whole ++ '.' :: fraction))
      (whole ++ '.' :: fraction) after where
  text_eq := by simp [htext]
  ne_nil := by simp
  length := rfl
  plain _ := ⟨rfl, .decimal hne hwhole hfraction⟩
  unknown h := nomatch h
  longest _ w type hw hprefix := by
    have hdot : ∀ d ∈ ('.' :: (fraction ++ after)).head?, d.isDigit = false := by simp
    rw [htext] at hprefix
    cases hw with
    | @word d w hstart =>
      obtain ⟨t, ht⟩ := hprefix
      cases whole with
      | nil =>
        rw [(List.cons.inj ht).1] at hstart
        exact absurd hstart (by decide)
      | cons e whole =>
        rw [(List.cons.inj ht).1, isWordStart_of_isDigit (hwhole e List.mem_cons_self)] at hstart
        exact nomatch hstart
    | integer _ hdigits =>
      have hle := length_le_of_prefix hdigits hdot hprefix
      rw [List.length_append]
      omega
    | @decimal whole' fraction' _ hwhole' hfraction' =>
      obtain ⟨t, ht⟩ := hprefix
      have hdot' : ∀ d ∈ ('.' :: (fraction' ++ t)).head?, d.isDigit = false := by simp
      have heq : whole' ++ '.' :: (fraction' ++ t) = whole ++ '.' :: (fraction ++ after) := by
        simpa using ht
      have hsame := congrArg (List.takeWhile Char.isDigit) heq
      rw [takeWhile_front hwhole' hdot', takeWhile_front hwhole hdot] at hsame
      subst hsame
      have htail := (List.cons.inj (List.append_cancel_left heq)).2
      have hle := length_le_of_prefix hfraction' hafter ⟨t, htail⟩
      simp only [List.length_append, List.length_cons]
      omega
    | operator h =>
      obtain ⟨d, w, rfl, -, hdigit, hlength⟩ := operator_head h
      obtain ⟨t, ht⟩ := hprefix
      cases whole with
      | nil =>
        have hle := hlength (List.cons.inj ht).1
        have hpos := List.length_pos_of_ne_nil hne
        simp only [List.nil_append, List.length_cons] at hle ⊢
        omega
      | cons e whole =>
        rw [(List.cons.inj ht).1, hwhole e List.mem_cons_self] at hdigit
        exact nomatch hdigit

theorem rescans_decimal (hwhole : ∀ d ∈ whole, d.isDigit = true)
    (hfraction : ∀ d ∈ fraction, d.isDigit = true)
    (hne : fraction ≠ []) (hafter : ∀ d ∈ after.head?, d.isDigit = false) :
    Rescans (makeToken .FLOAT_LITERAL (whole ++ '.' :: fraction)) (whole ++ '.' :: fraction) after := by
  intro after' hblunter c rest htext
  have hafter' := hblunter.head (fun d => isDigit_of_isWhitespace) hafter
  have hshape : c :: rest = whole ++ '.' :: (fraction ++ after') := by simp [← htext]
  have hstarts : StartsNumber c rest := by
    cases whole with
    | nil =>
      obtain ⟨rfl, rfl⟩ := List.cons.inj hshape
      obtain ⟨d, fraction, rfl⟩ := List.exists_cons_of_ne_nil hne
      exact .inr ⟨rfl, hfraction d List.mem_cons_self⟩
    | cons d whole =>
      obtain ⟨rfl, rfl⟩ := List.cons.inj hshape
      exact .inl (hwhole c List.mem_cons_self)
  rw [scanToken_number hstarts, hshape, scanNumber_decimal hwhole hfraction hne hafter']

theorem scans_integer (htext : c :: rest = whole ++ after) (hwhole : ∀ d ∈ whole, d.isDigit = true)
    (hne : whole ≠ []) (hafter : ∀ d ∈ after.head?, d.isDigit = false)
    (hdot : ∀ rest, after = '.' :: rest → rest.head?.any Char.isDigit = false) :
    Scans (c :: rest) (makeToken .INT_LITERAL whole) whole after where
  text_eq := htext
  ne_nil := hne
  length := rfl
  plain _ := ⟨rfl, .integer hne hwhole⟩
  unknown h := nomatch h
  longest _ w type hw hprefix := by
    rw [htext] at hprefix
    obtain ⟨e, whole, rfl⟩ := List.exists_cons_of_ne_nil hne
    have he := hwhole e List.mem_cons_self
    cases hw with
    | @word d w hstart =>
      obtain ⟨t, ht⟩ := hprefix
      rw [(List.cons.inj ht).1, isWordStart_of_isDigit he] at hstart
      exact nomatch hstart
    | integer _ hdigits => exact length_le_of_prefix hdigits hafter hprefix
    | @decimal whole' fraction' hne' hwhole' hfraction' =>
      obtain ⟨t, ht⟩ := hprefix
      have hdot' : ∀ d ∈ ('.' :: (fraction' ++ t)).head?, d.isDigit = false := by simp
      have heq : whole' ++ '.' :: (fraction' ++ t) = e :: whole ++ after := by simpa using ht
      have hsame := congrArg (List.takeWhile Char.isDigit) heq
      rw [takeWhile_front hwhole' hdot', takeWhile_front hwhole hafter] at hsame
      subst hsame
      obtain ⟨d, fraction', rfl⟩ := List.exists_cons_of_ne_nil hne'
      have hnone := hdot _ (List.append_cancel_left heq).symm
      rw [List.cons_append, List.head?_cons, Option.any_some, hfraction' d List.mem_cons_self] at hnone
      exact nomatch hnone
    | operator h =>
      obtain ⟨d, w, rfl, -, hdigit, -⟩ := operator_head h
      obtain ⟨t, ht⟩ := hprefix
      rw [(List.cons.inj ht).1, he] at hdigit
      exact nomatch hdigit

theorem rescans_integer (hwhole : ∀ d ∈ whole, d.isDigit = true) (hne : whole ≠ [])
    (hafter : ∀ d ∈ after.head?, d.isDigit = false)
    (hdot : ∀ rest, after = '.' :: rest → rest.head?.any Char.isDigit = false) :
    Rescans (makeToken .INT_LITERAL whole) whole after := by
  intro after' hblunter c rest htext
  have hafter' := hblunter.head (fun d => isDigit_of_isWhitespace) hafter
  have hdot' : ∀ rest, after' = '.' :: rest → rest.head?.any Char.isDigit = false := by
    rintro rest rfl
    rcases hblunter with hspace | ⟨d, t, t', rfl, heq, hnext⟩
    · exact absurd (hspace '.' rfl) (by decide)
    · obtain ⟨rfl, rfl⟩ := List.cons.inj heq
      rcases hnext with hspace | hsame
      · cases hhead : rest.head? with
        | none => rfl
        | some e => exact isDigit_of_isWhitespace (hspace e hhead)
      · rw [hsame]
        exact hdot t rfl
  have hstarts : StartsNumber c rest := by
    obtain ⟨d, whole, rfl⟩ := List.exists_cons_of_ne_nil hne
    obtain ⟨rfl, rfl⟩ := List.cons.inj htext
    exact .inl (hwhole d List.mem_cons_self)
  rw [scanToken_number hstarts, ← htext, scanNumber_integer hwhole hne hafter' hdot']

theorem scanToken_of_number (h : StartsNumber c rest) : ∃ scan span after, scanToken c rest = .ok scan ∧
    Scans (c :: rest) scan span after ∧ Rescans scan span after := by
  obtain ⟨whole, htake⟩ : ∃ whole, whole = (c :: rest).takeWhile Char.isDigit := ⟨_, rfl⟩
  obtain ⟨tail, hdrop⟩ : ∃ tail, tail = (c :: rest).dropWhile Char.isDigit := ⟨_, rfl⟩
  have htext : c :: rest = whole ++ tail := by rw [htake, hdrop, List.takeWhile_append_dropWhile]
  have hwhole : ∀ d ∈ whole, d.isDigit = true := fun d hd => List.mem_takeWhile_imp (htake ▸ hd)
  have htail : ∀ d ∈ tail.head?, d.isDigit = false := hdrop ▸ head_dropWhile _ _
  rw [scanToken_number h]
  by_cases hpoint : ∃ rest', tail = '.' :: rest' ∧ rest'.head?.any Char.isDigit = true
  · obtain ⟨rest', rfl, hdigit⟩ := hpoint
    have hsplit : rest' = rest'.takeWhile Char.isDigit ++ rest'.dropWhile Char.isDigit :=
      List.takeWhile_append_dropWhile.symm
    have hfraction : ∀ d ∈ rest'.takeWhile Char.isDigit, d.isDigit = true :=
      fun d hd => List.mem_takeWhile_imp hd
    have hne : rest'.takeWhile Char.isDigit ≠ [] := by
      cases rest' with
      | nil => exact nomatch hdigit
      | cons d rest' =>
        have hd : d.isDigit = true := hdigit
        simp [hd]
    have hafter := head_dropWhile Char.isDigit rest'
    rw [hsplit] at htext
    refine ⟨_, _, _, ?_, scans_decimal htext hwhole hfraction hne hafter,
      rescans_decimal hwhole hfraction hne hafter⟩
    rw [htext, scanNumber_decimal hwhole hfraction hne hafter]
  · have hdot : ∀ rest', tail = '.' :: rest' → rest'.head?.any Char.isDigit = false :=
      fun rest' heq => Bool.eq_false_iff.mpr fun hdigit => hpoint ⟨rest', heq, hdigit⟩
    have hne : whole ≠ [] := by
      rintro rfl
      rcases h with h | ⟨rfl, h⟩
      · rw [htail c (by rw [← htext.trans (List.nil_append tail)]; rfl)] at h
        exact nomatch h
      · rw [hdot rest htext.symm] at h
        exact nomatch h
    refine ⟨_, _, _, ?_, scans_integer htext hwhole hne htail hdot, rescans_integer hwhole hne htail hdot⟩
    rw [htext, scanNumber_integer hwhole hne htail hdot]

theorem not_startsNumber_of_isWordStart (h : isWordStart c = true) : ¬ StartsNumber c rest := by
  rintro (hdigit | ⟨rfl, -⟩)
  · rw [isWordStart_of_isDigit hdigit] at h
    exact nomatch h
  · exact absurd h (by decide)

theorem scanToken_not_number (h : ¬ StartsNumber c rest) : scanToken c rest =
    if isWordStart c then .ok (scanIdentifierOrKeyword (c :: rest))
    else if c = '"' then scanString rest
    else if c = '#' then scanRegexLiteral rest
    else .ok (scanSymbol c rest) := by
  unfold scanToken
  rw [if_neg]
  simpa [StartsNumber] using h

theorem scanIdentifierOrKeyword_eq {w : List Char} (hw : ∀ d ∈ w, isWordChar d = true)
    (hafter : ∀ d ∈ after.head?, isWordChar d = false) :
    scanIdentifierOrKeyword (w ++ after) = makeToken (wordType w) w := by
  simp only [scanIdentifierOrKeyword, takeWhile_front hw hafter]

theorem isPlain_wordType (w : List Char) : isPlain (wordType w) = true := by
  have hall : keywords.all (fun entry => isPlain entry.2) = true := by decide
  unfold wordType
  cases hlookup : keywords.lookup (String.ofList w) with
  | none => rfl
  | some type =>
    have hmem := List.lookup_eq_some_iff.mp hlookup
    obtain ⟨front, back, hsplit, -⟩ := hmem
    exact List.all_eq_true.mp hall (String.ofList w, type) (by rw [hsplit]; simp)

theorem scanToken_of_word (hstart : isWordStart c = true) : ∃ scan span after,
    scanToken c rest = .ok scan ∧ Scans (c :: rest) scan span after ∧ Rescans scan span after := by
  obtain ⟨w, htake⟩ : ∃ w, w = rest.takeWhile isWordChar := ⟨_, rfl⟩
  obtain ⟨after, hdrop⟩ : ∃ after, after = rest.dropWhile isWordChar := ⟨_, rfl⟩
  have htext : c :: rest = c :: w ++ after := by
    rw [htake, hdrop, List.cons_append, List.takeWhile_append_dropWhile]
  have hw : ∀ d ∈ c :: w, isWordChar d = true :=
    List.forall_mem_cons.mpr ⟨isWordChar_of_isWordStart hstart, fun d hd =>
      List.mem_takeWhile_imp (htake ▸ hd)⟩
  have hafter : ∀ d ∈ after.head?, isWordChar d = false := hdrop ▸ head_dropWhile _ _
  refine ⟨makeToken (wordType (c :: w)) (c :: w), c :: w, after, ?_, ?_, ?_⟩
  · rw [scanToken_not_number (not_startsNumber_of_isWordStart hstart), if_pos hstart, htext,
      scanIdentifierOrKeyword_eq hw hafter]
  · refine ⟨htext, by simp, rfl, fun _ =>
      ⟨rfl, .word hstart fun d hd => hw d (List.mem_cons_of_mem c hd)⟩, ?_, ?_⟩
    · intro _ v type hv hprefix
      rw [htext] at hprefix
      cases hv with
      | @word d v hstart' hchars =>
        refine length_le_of_prefix (List.forall_mem_cons.mpr ⟨isWordChar_of_isWordStart hstart',
          hchars⟩) hafter hprefix
      | integer hne hdigits =>
        obtain ⟨d, v, rfl⟩ := List.exists_cons_of_ne_nil hne
        obtain ⟨t, ht⟩ := hprefix
        have hd := hdigits d List.mem_cons_self
        rw [(List.cons.inj ht).1] at hd
        rw [isWordStart_of_isDigit hd] at hstart
        exact nomatch hstart
      | @decimal whole fraction _ hwhole =>
        obtain ⟨t, ht⟩ := hprefix
        cases whole with
        | nil =>
          rw [← (List.cons.inj ht).1] at hstart
          exact absurd hstart (by decide)
        | cons d whole =>
          have hd := hwhole d List.mem_cons_self
          rw [(List.cons.inj ht).1] at hd
          rw [isWordStart_of_isDigit hd] at hstart
          exact nomatch hstart
      | operator h =>
        obtain ⟨d, v, rfl, hnot, -, -⟩ := operator_head h
        obtain ⟨t, ht⟩ := hprefix
        rw [(List.cons.inj ht).1, hstart] at hnot
        exact nomatch hnot
    · intro hunknown
      have hplain := isPlain_wordType (c :: w)
      change wordType (c :: w) = .UNKNOWN at hunknown
      rw [hunknown] at hplain
      exact nomatch hplain
  · intro after' hblunter d rest' htext'
    have hafter' := hblunter.head (fun d => isWordChar_of_isWhitespace) hafter
    obtain ⟨rfl, rfl⟩ := List.cons.inj htext'
    change scanToken c (w ++ after') = _
    rw [scanToken_not_number (not_startsNumber_of_isWordStart hstart), if_pos hstart, ← List.cons_append,
      scanIdentifierOrKeyword_eq hw hafter']

end

/-- What is scanned ends within the text, whatever follows its end. -/
def Closes (scan : List Char → Option (List Char × Nat)) (text : List Char)
    (closed : List Char × Nat) : Prop :=
  ∃ body after, text = body ++ after ∧ closed.2 = body.length ∧ body ≠ [] ∧
    ∀ after', scan (body ++ after') = some closed

section
variable {scan scan' : List Char → Option (List Char × Nat)} {text rest : List Char}
  {closed : List Char × Nat}

/-- Characters that are scanned on their own, given what comes right after them. -/
theorem Closes.append (front : List Char) (g : List Char → List Char)
    (ih : ∀ closed, scan text = some closed → Closes scan text closed)
    (hstep : ∀ tail, tail.head? = text.head? →
      scan' (front ++ tail) = (scan tail).map fun closed => (g closed.1, closed.2 + front.length))
    (h : scan' (front ++ text) = some closed) : Closes scan' (front ++ text) closed := by
  rw [hstep text rfl] at h
  obtain ⟨closed, hscan, rfl⟩ := Option.map_eq_some_iff.mp h
  obtain ⟨body, after, rfl, hlength, hne, hsame⟩ := ih closed hscan
  refine ⟨front ++ body, after, by simp, ?_, by simp [hne], fun after' => ?_⟩
  · rw [hlength, List.length_append, Nat.add_comm]
  · have hhead : (body ++ after').head? = (body ++ after).head? := by
      rw [List.head?_append_of_ne_nil _ hne, List.head?_append_of_ne_nil _ hne]
    rw [List.append_assoc, hstep _ hhead, hsame after']
    rfl

theorem closes_scanStringBody (h : scanStringBody rest = some closed) :
    Closes scanStringBody rest closed := by
  induction rest using scanStringBody.induct generalizing closed with
  | case1 => exact nomatch h
  | case2 rest =>
    obtain rfl := Option.some.inj h
    exact ⟨['"'], rest, rfl, rfl, by simp, fun _ => rfl⟩
  | case3 escaped rest ih =>
    exact Closes.append ['\\', escaped] (unescape escaped :: ·) (fun closed => ih) (fun tail _ => rfl) h
  | case4 c rest hquote hescape ih =>
    refine Closes.append [c] (c :: ·) (fun closed => ih) (fun tail htail => ?_) h
    refine scanStringBody.eq_4 c tail hquote fun escaped tail' hc htail' => ?_
    subst htail'
    obtain ⟨rest', hrest⟩ := List.head?_eq_some_iff.mp htail.symm
    exact hescape escaped rest' hc hrest

/-- A regex literal ends at the `#` that is neither escaped nor in a comment. -/
theorem closes_scanRegexBody {inComment : Bool} (h : scanRegexBody inComment rest = some closed) :
    Closes (scanRegexBody inComment) rest closed := by
  induction inComment, rest using scanRegexBody.induct generalizing closed with
  | case1 => exact nomatch h
  | case2 inComment c rest hcomment ih =>
    refine Closes.append [c] id (fun closed => ih) (fun tail _ => ?_) h
    rw [List.singleton_append, scanRegexBody.eq_def]
    change ite _ _ _ = _
    rw [if_pos hcomment]
    rfl
  | case3 inComment rest hcomment =>
    rw [scanRegexBody.eq_def] at h
    change ite _ _ _ = _ at h
    rw [if_neg hcomment, if_pos rfl] at h
    obtain rfl := Option.some.inj h
    refine ⟨['#'], rest, rfl, rfl, by simp, fun after' => ?_⟩
    rw [List.singleton_append, scanRegexBody.eq_def]
    change ite _ _ _ = _
    rw [if_neg hcomment, if_pos rfl]
  | case4 inComment hcomment hclose =>
    rw [scanRegexBody.eq_def] at h
    change ite _ _ _ = _ at h
    rw [if_neg hcomment, if_neg hclose, if_pos rfl] at h
    exact nomatch h
  | case5 inComment escaped rest hcomment hclose ih =>
    refine Closes.append ['\\', escaped] (['\\', escaped] ++ ·) (fun closed => ih) (fun tail _ => ?_) h
    rw [List.cons_append, scanRegexBody.eq_def]
    change ite _ _ _ = _
    rw [if_neg hcomment, if_neg hclose, if_pos rfl]
    rfl
  | case6 inComment c rest hcomment hclose hescape hopen ih =>
    refine Closes.append [c] id (fun closed => ih) (fun tail htail => ?_) h
    rw [List.singleton_append, scanRegexBody.eq_def]
    change ite _ _ _ = _
    rw [if_neg hcomment, if_neg hclose, if_neg hescape, htail, if_pos hopen]
    rfl
  | case7 inComment c rest hcomment hclose hescape hopen hspace ih =>
    refine Closes.append [c] id (fun closed => ih) (fun tail htail => ?_) h
    rw [List.singleton_append, scanRegexBody.eq_def]
    change ite _ _ _ = _
    rw [if_neg hcomment, if_neg hclose, if_neg hescape, htail, if_neg hopen,
      if_pos hspace]
    rfl
  | case8 inComment c rest hcomment hclose hescape hopen hspace ih =>
    refine Closes.append [c] (c :: ·) (fun closed => ih) (fun tail htail => ?_) h
    rw [List.singleton_append, scanRegexBody.eq_def]
    change ite _ _ _ = _
    rw [if_neg hcomment, if_neg hclose, if_neg hescape, htail, if_neg hopen,
      if_neg hspace]
    rfl

end

section
variable {c : Char} {rest after : List Char}
variable {entry : List Char × TokenType} {text : List Char} {n : Nat}

theorem isPrefixOf_cons_head (d : Char) (w rest : List Char) :
    List.isPrefixOf (d :: w) rest = (rest.head? = some d && w.isPrefixOf rest.tail) := by
  cases rest with
  | nil => rfl
  | cons e rest => simp [List.isPrefixOf, Bool.beq_eq_decide_eq, eq_comm]

/-- The operator at the front of a text, as the table lists it first. -/
def operatorAt (text : List Char) : Option (List Char × TokenType) :=
  operators.find? fun entry => entry.1.isPrefixOf text

theorem scanSymbol_eq (c : Char) (rest : List Char) : scanSymbol c rest =
    (operatorAt (c :: rest)).elim (makeToken .UNKNOWN [c]) fun entry => makeToken entry.2 entry.1 := by
  unfold scanSymbol
  split
  case h_25 => simp_all [operatorAt, operators, isPrefixOf_cons_head]
  all_goals simp [operatorAt, operators, List.find?_cons, isPrefixOf_cons_head]
  all_goals grind

/-- An operator that extends another stands before it in the table. -/
theorem operators_sorted : operators.Pairwise fun earlier later => earlier.1 <+: later.1 →
    earlier = later := by
  decide

theorem operatorAt_longest {entry entry' : List Char × TokenType} (h : operatorAt text = some entry)
    (hmem : entry' ∈ operators) ( hprefix : entry'.1 <+: text) :
    entry'.1.length ≤ entry.1.length := by
  obtain ⟨hmatches, front, back, hsplit, hnone⟩ := List.find?_eq_some_iff_append.mp h
  have hentry : entry.1 <+: text := List.isPrefixOf_iff_prefix.mp hmatches
  rcases Nat.le_total entry'.1.length entry.1.length with hle | hle
  · exact hle
  · have hextends : entry.1 <+: entry'.1 := List.prefix_of_prefix_length_le hentry hprefix hle
    rw [hsplit] at hmem
    rcases List.mem_append.mp hmem with hfront | hback
    · have hno := hnone entry' hfront
      rw [List.isPrefixOf_iff_prefix.mpr hprefix] at hno
      exact nomatch hno
    · rcases List.mem_cons.mp hback with rfl | hback
      · exact Nat.le_refl _
      · have hsorted := operators_sorted
        rw [hsplit] at hsorted
        have hlater := (List.pairwise_cons.mp (List.pairwise_append.mp hsorted).2.1).1 entry' hback
        rw [hlater hextends]

theorem operators_short (h : entry ∈ operators) :
    entry.1.length ≤ 3 ∧ ∀ d ∈ entry.1, isWhitespace d = false := by
  have hall : operators.all (fun entry => entry.1.length ≤ 3 && entry.1.all fun d =>
      !isWhitespace d) = true := by
    decide
  have hentry := List.all_eq_true.mp hall entry h
  simp only [Bool.and_eq_true, decide_eq_true_eq, List.all_eq_true, Bool.not_eq_true'] at hentry
  exact hentry

theorem prefix_of_blunter {after' w : List Char} (hblunter : Blunter after' after) (hshort : w.length ≤ 2)
    (hw : ∀ d ∈ w, isWhitespace d = false) (h : w <+: after') : w <+: after := by
  cases w with
  | nil => exact List.nil_prefix
  | cons d w =>
    obtain ⟨t, rfl⟩ := h
    obtain ⟨hd, hw⟩ := List.forall_mem_cons.mp hw
    rcases hblunter with hspace | ⟨d', t, t', rfl, heq, hnext⟩
    · rw [hspace d rfl] at hd
      exact nomatch hd
    · obtain ⟨rfl, rfl⟩ := List.cons.inj heq
      cases w with
      | nil => exact ⟨t, rfl⟩
      | cons e w =>
        obtain rfl : w = [] := List.eq_nil_of_length_eq_zero (by simpa using hshort)
        rcases hnext with hspace | hsame
        · have he := hspace e rfl
          rw [hw e List.mem_cons_self] at he
          exact nomatch he
        · obtain ⟨t, rfl⟩ := List.head?_eq_some_iff.mp hsame.symm
          exact ⟨t, rfl⟩

theorem matches_of_blunter {span after' : List Char} (hblunter : Blunter after' after)
    (hne : span ≠ []) (hmem : entry ∈ operators) (h : entry.1 <+: span ++ after') :
    entry.1 <+: span ++ after := by
  rcases List.prefix_or_prefix_of_prefix h (List.prefix_append span after') with hwithin | ⟨w, hw⟩
  · exact hwithin.trans (List.prefix_append span after)
  · obtain ⟨hshort, hchars⟩ := operators_short hmem
    rw [← hw] at h hshort hchars ⊢
    have hpos := List.length_pos_of_ne_nil hne
    rw [List.length_append] at hshort
    exact (List.prefix_append_right_inj span).mpr (prefix_of_blunter hblunter (by omega)
      (fun d hd => hchars d (List.mem_append_right span hd)) ((List.prefix_append_right_inj span).mp h))

theorem operatorAt_blunter {after' : List Char} (hblunter : Blunter after' after)
    (h : operatorAt (entry.1 ++ after) = some entry) :
    operatorAt (entry.1 ++ after') = some entry := by
  obtain ⟨-, front, back, hsplit, hnone⟩ := List.find?_eq_some_iff_append.mp h
  have hmem : ∀ earlier ∈ front ++ entry :: back, earlier ∈ operators :=
    fun earlier hearlier => hsplit ▸ hearlier
  obtain ⟨d, w, hw, -⟩ := operator_head (hmem entry (by simp))
  refine List.find?_eq_some_iff_append.mpr ⟨List.isPrefixOf_iff_prefix.mpr (List.prefix_append _ _),
    front, back, hsplit, fun earlier hearlier => ?_⟩
  rw [Bool.not_eq_true', Bool.eq_false_iff]
  intro hmatches
  have hbefore :=
    matches_of_blunter hblunter (by simp [hw]) (hmem earlier (List.mem_append_left _ hearlier))
    (List.isPrefixOf_iff_prefix.mp hmatches)
  have hno := hnone earlier hearlier
  rw [List.isPrefixOf_iff_prefix.mpr hbefore] at hno
  exact nomatch hno

theorem operatorAt_none_blunter {after' : List Char} (hblunter : Blunter after' after)
    (h : operatorAt (c :: after) = none) : operatorAt (c :: after') = none := by
  refine List.find?_eq_none.mpr fun entry hmem hmatches => ?_
  have hbefore : entry.1 <+: [c] ++ after :=
    matches_of_blunter hblunter (by simp) hmem (List.isPrefixOf_iff_prefix.mp hmatches)
  exact List.find?_eq_none.mp h entry hmem (List.isPrefixOf_iff_prefix.mpr hbefore)

theorem operator_of_spells {w : List Char} {type : TokenType} (hnumber : ¬ StartsNumber c rest)
    (hword : isWordStart c = false) (h : Spells w type) ( hprefix : w <+: c :: rest) :
    (w, type) ∈ operators := by
  obtain ⟨t, ht⟩ := hprefix
  cases h with
  | word hstart =>
    rw [(List.cons.inj ht).1, hword] at hstart
    exact nomatch hstart
  | integer hne hdigits =>
    obtain ⟨d, w, rfl⟩ := List.exists_cons_of_ne_nil hne
    exact absurd (.inl ((List.cons.inj ht).1 ▸ hdigits d List.mem_cons_self)) hnumber
  | @decimal whole fraction hne hwhole hfraction =>
    cases whole with
    | nil =>
      obtain ⟨d, fraction, rfl⟩ := List.exists_cons_of_ne_nil hne
      obtain ⟨hc, hrest⟩ := List.cons.inj ht
      exact absurd (.inr ⟨hc.symm, hrest ▸ hfraction d List.mem_cons_self⟩) hnumber
    | cons d whole => exact absurd (.inl ((List.cons.inj ht).1 ▸ hwhole d List.mem_cons_self)) hnumber
  | operator hmem => exact hmem

theorem not_startsNumber_blunter {w after' : List Char} (hblunter : Blunter after' after)
    (h : ¬ StartsNumber c (w ++ after)) : ¬ StartsNumber c (w ++ after') := by
  rintro (hdigit | ⟨hc, hnext⟩)
  · exact h (.inl hdigit)
  · refine h (.inr ⟨hc, ?_⟩)
    cases w with
    | cons d w => exact hnext
    | nil =>
      rcases hblunter with hspace | ⟨d, t, t', rfl, rfl, -⟩
      · obtain ⟨d, hhead, hdigit⟩ := Option.any_eq_true _ _ |>.mp hnext
        rw [isDigit_of_isWhitespace (hspace d hhead)] at hdigit
        exact nomatch hdigit
      · exact hnext

theorem isPlain_of_mem_operators (h : entry ∈ operators) :
    isPlain entry.2 = true := by
  have hall : operators.all (fun entry => isPlain entry.2) = true := by decide
  exact List.all_eq_true.mp hall entry h

theorem scanToken_symbol (hnumber : ¬ StartsNumber c rest) (hword : isWordStart c = false)
    (hquote : c ≠ '"') (hregex : c ≠ '#') : scanToken c rest = .ok (scanSymbol c rest) := by
  rw [scanToken_not_number hnumber, hword, if_neg Bool.false_ne_true, if_neg hquote, if_neg hregex]

theorem scanToken_of_symbol (hnumber : ¬ StartsNumber c rest) (hword : isWordStart c = false)
    (hquote : c ≠ '"') (hregex : c ≠ '#') : ∃ scan span after, scanToken c rest = .ok scan ∧
    Scans (c :: rest) scan span after ∧ Rescans scan span after := by
  rw [scanToken_symbol hnumber hword hquote hregex, scanSymbol_eq]
  cases hat : operatorAt (c :: rest) with
  | none =>
    refine ⟨_, [c], rest, rfl, ⟨rfl, by simp, rfl, nofun, nofun, fun _ w type hw hprefix => ?_⟩, ?_⟩
    · exact List.find?_eq_none.mp hat _ (operator_of_spells hnumber hword hw hprefix)
        (List.isPrefixOf_iff_prefix.mpr hprefix)
    · intro after' hblunter d rest' htext
      obtain ⟨rfl, rfl⟩ := List.cons.inj htext
      have hnumber' : ¬ StartsNumber c after' := not_startsNumber_blunter (w := []) hblunter hnumber
      change scanToken c after' = _
      rw [scanToken_symbol hnumber' hword hquote hregex, scanSymbol_eq,
        operatorAt_none_blunter hblunter hat]
  | some entry =>
    have hmem := List.mem_of_find?_eq_some hat
    obtain ⟨hmatches, -⟩ := List.find?_eq_some_iff_append.mp hat
    obtain ⟨after, hafter⟩ := List.isPrefixOf_iff_prefix.mp hmatches
    obtain ⟨d, w, hw, -⟩ := operator_head hmem
    refine ⟨_, entry.1, after, rfl,
      ⟨hafter.symm, by simp [hw], rfl, fun _ => ⟨rfl, .operator hmem⟩, ?_, ?_⟩, ?_⟩
    · exact fun _ v type hv hprefix =>
        operatorAt_longest hat (operator_of_spells hnumber hword hv hprefix) hprefix
    · intro hunknown
      have hplain := isPlain_of_mem_operators hmem
      change entry.2 = .UNKNOWN at hunknown
      rw [hunknown] at hplain
      exact nomatch hplain
    · intro after' hblunter d' rest' htext
      have hat' := operatorAt_blunter hblunter (hafter ▸ hat)
      rw [htext] at hat'
      rw [hw] at hafter htext
      obtain ⟨rfl, rfl⟩ := List.cons.inj hafter
      obtain ⟨rfl, rfl⟩ := List.cons.inj htext
      have hnumber' := not_startsNumber_blunter hblunter hnumber
      change scanToken d (w ++ after') = _
      change operatorAt (d :: (w ++ after')) = _ at hat'
      rw [scanToken_symbol hnumber' hword hquote hregex, scanSymbol_eq, hat', Option.elim_some]

/-- The text behind an opening quote comes to a quote that no backslash stands before. -/
inductive StringEnds : List Char → Prop where
  | quote {rest : List Char} : StringEnds ('"' :: rest)
  | escape {c : Char} {rest : List Char} (h : StringEnds rest) : StringEnds ('\\' :: c :: rest)
  | character {c : Char} {rest : List Char} (hquote : c ≠ '"') (hescape : c ≠ '\\') (h : StringEnds rest) :
      StringEnds (c :: rest)

/-- The text behind an opening `#`, from within a comment or not, comes to a `#` that no backslash
    stands before and that is in no comment. -/
inductive RegexEnds : Bool → List Char → Prop where
  | close {rest : List Char} : RegexEnds false ('#' :: rest)
  | escape {c : Char} {rest : List Char} (h : RegexEnds false rest) : RegexEnds false ('\\' :: c :: rest)
  | comment {rest : List Char} (h : RegexEnds true rest) : RegexEnds false ('/' :: '/' :: rest)
  | inside {c : Char} {rest : List Char} (hc : c ≠ '\n') (h : RegexEnds true rest) :
    RegexEnds true (c :: rest)
  | newline {rest : List Char} (h : RegexEnds false rest) : RegexEnds true ('\n' :: rest)
  | character {c : Char} {rest : List Char} (hclose : c ≠ '#') (hescape : c ≠ '\\')
      (hcomment : ¬(c = '/' ∧ rest.head? = some '/')) (h : RegexEnds false rest) :
      RegexEnds false (c :: rest)

theorem StringEnds.isSome_scanStringBody {rest : List Char} (h : StringEnds rest) :
    (scanStringBody rest).isSome = true := by
  induction h with
  | quote => rfl
  | @escape c rest _ ih =>
    rw [scanStringBody, Option.isSome_map]
    exact ih
  | @character c rest hquote hescape _ ih =>
    rw [scanStringBody.eq_4 c rest hquote fun _ _ hc => absurd hc hescape, Option.isSome_map]
    exact ih

theorem isSome_scanRegexBody_inside {c : Char} {rest : List Char} (hc : c ≠ '\n')
    (h : (scanRegexBody true rest).isSome = true) : (scanRegexBody true (c :: rest)).isSome = true := by
  rw [scanRegexBody.eq_def]
  simpa [hc] using h

theorem RegexEnds.isSome_scanRegexBody {inComment : Bool} {rest : List Char}
    (h : RegexEnds inComment rest) : (scanRegexBody inComment rest).isSome = true := by
  induction h with
  | inside hc _ ih => exact isSome_scanRegexBody_inside hc ih
  | close =>
    rw [scanRegexBody.eq_def]
    rfl
  | escape _ ih | newline _ ih =>
    rw [scanRegexBody.eq_def]
    simpa [isWhitespace] using ih
  | comment _ ih =>
    rw [scanRegexBody.eq_def]
    simpa using isSome_scanRegexBody_inside (by decide) ih
  | character hclose hescape hcomment _ ih =>
    rw [scanRegexBody.eq_def]
    simp only [Bool.false_and, Bool.false_eq_true, if_false, if_neg hclose, if_neg hescape,
      Bool.and_eq_true, decide_eq_true_eq, if_neg hcomment]
    split <;> simpa using ih

/-- The two ways in which a text can fail to be one of tokens: a literal that starts and does not end. -/
def Unterminated (c : Char) (rest : List Char) (message : String) : Prop :=
  c = '"' ∧ ¬StringEnds rest ∧ message = "Unterminated string literal" ∨
    c = '#' ∧ ¬RegexEnds false rest ∧ message = "Unterminated regex literal"

theorem scans_closed {type : TokenType} {body : List Char} (htype : isPlain type = false)
    (hknown : type ≠ .UNKNOWN) (hrest : rest = body ++ after) (hn : n = body.length) :
    Scans (c :: rest) ⟨type, text, n + 1⟩ (c :: body) after where
  text_eq := congrArg _ hrest
  ne_nil := by simp
  length := congrArg (· + 1) hn
  plain h := by
    rw [htype] at h
    exact nomatch h
  longest h := by
    rw [htype] at h
    exact nomatch h
  unknown h := absurd h hknown

theorem scanString_closed (h : scanStringBody rest = some (text, n)) :
    scanString rest = .ok ⟨.STRING_LITERAL, text, n + 1⟩ := by
  rw [scanString, h]

theorem scanRegexLiteral_closed (h : scanRegexBody false rest = some (text, n)) :
    scanRegexLiteral rest = .ok ⟨.REGEX_LITERAL, text, n + 1⟩ := by
  rw [scanRegexLiteral, h]

/-- A token is scanned by its own text, unless a literal does not end. -/
theorem scanToken_spec (c : Char) (rest : List Char) :
    (∃ scan span after, scanToken c rest = .ok scan ∧ Scans (c :: rest) scan span after ∧
      Rescans scan span after) ∨
      ∃ message, Unterminated c rest message ∧ scanToken c rest = .error message := by
  by_cases hnumber : StartsNumber c rest
  · exact .inl (scanToken_of_number hnumber)
  by_cases hword : isWordStart c = true
  · exact .inl (scanToken_of_word hword)
  rw [Bool.not_eq_true] at hword
  by_cases hquote : c = '"'
  · subst hquote
    have hscan : ∀ rest, scanToken '"' rest = scanString rest :=
      fun rest => by simp [scanToken, isWordStart]
    rw [hscan]
    cases hbody : scanStringBody rest with
    | none =>
      have hends : ¬StringEnds rest := fun h => by simpa [hbody] using h.isSome_scanStringBody
      exact .inr ⟨_, .inl ⟨rfl, hends, rfl⟩, by rw [scanString, hbody]⟩
    | some closed =>
      obtain ⟨body, after, rfl, hn, -, hsame⟩ := closes_scanStringBody hbody
      refine .inl ⟨_, '"' :: body, after, scanString_closed hbody,
        scans_closed rfl (by decide) rfl hn, ?_⟩
      intro after' _ d rest' htext
      obtain ⟨rfl, rfl⟩ := List.cons.inj htext
      exact (hscan _).trans (scanString_closed (hsame after'))
  by_cases hregex : c = '#'
  · subst hregex
    have hscan : ∀ rest, scanToken '#' rest = scanRegexLiteral rest :=
      fun rest => by simp [scanToken, isWordStart]
    rw [hscan]
    cases hbody : scanRegexBody false rest with
    | none =>
      have hends : ¬RegexEnds false rest := fun h => by simpa [hbody] using h.isSome_scanRegexBody
      exact .inr ⟨_, .inr ⟨rfl, hends, rfl⟩, by rw [scanRegexLiteral, hbody]⟩
    | some closed =>
      obtain ⟨body, after, rfl, hn, -, hsame⟩ := closes_scanRegexBody hbody
      refine .inl ⟨_, '#' :: body, after, scanRegexLiteral_closed hbody,
        scans_closed rfl (by decide) rfl hn, ?_⟩
      intro after' _ d rest' htext
      obtain ⟨rfl, rfl⟩ := List.cons.inj htext
      exact (hscan _).trans (scanRegexLiteral_closed (hsame after'))
  exact .inl (scanToken_of_symbol hnumber hword hquote hregex)

end

end zl.lexer
