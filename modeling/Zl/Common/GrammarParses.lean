import Zl.Collections.Basic
import Zl.Common.TypeGrammar

namespace zl

section
variable {c : Char} {name : String} {size : Option Nat} {args : List TypeName}
  {text rest rest' : List Char}

theorem Token.skipWhitespace (h : Token c text rest) (hc : isSpace c = false) :
    zl.skipWhitespace text = c :: rest := by
  rw [Space.skipWhitespace h]
  refine skipWhitespace_of_head fun d hd => ?_
  rwa [← Option.some.inj hd]

theorem Token.continuesIn {chars : List Char} (h : Token c text rest) (hc : isSpace c = false)
    (hmem : c ∈ chars) : ContinuesIn chars (zl.skipWhitespace text) := by
  rw [h.skipWhitespace hc]
  intro d hd
  rwa [← Option.some.inj hd]

theorem ContinuesIn.mono {chars chars' : List Char} (hsub : chars ⊆ chars')
    (h : ContinuesIn chars text) : ContinuesIn chars' text :=
  fun c hc => hsub (h c hc)

theorem NameText.head (h : NameText name text rest) :
    ∀ c ∈ (name.toList ++ rest).head?, isNameChar c = true := by
  have hne := h.ne_nil
  have hchars := h.chars
  cases hlist : name.toList with
  | nil => exact absurd hlist hne
  | cons d ds =>
    intro c hc
    obtain rfl := Option.some.inj hc
    exact hchars _ (hlist ▸ List.mem_cons_self)

theorem NameText.skipWhitespace (h : NameText name text rest) :
    zl.skipWhitespace text = name.toList ++ rest := by
  rw [h.space.skipWhitespace]
  exact skipWhitespace_of_head fun d hd => not_isSpace_of_isNameChar (h.head d hd)

theorem NameText.length_lt (h : NameText name text rest) : rest.length < text.length := by
  have hle := h.space.length_le
  have hpos := List.length_pos_iff.mpr h.ne_nil
  rw [List.length_append] at hle
  omega

theorem SizeText.length_le (h : SizeText name size text rest) : rest.length ≤ text.length := by
  cases h with
  | none => exact le_rfl
  | size hname hopen hne hdigits hclose hfits =>
    have hopen := hopen.length_lt
    have hclose := hclose.length_lt
    rw [List.length_append] at hopen
    omega

theorem Reads.length {part : Part} {result : part.Result} (h : Reads part result text rest) :
    rest.length ≤ text.length ∧ (part ≠ .arguments → rest.length < text.length) := by
  induction h with
  | union _ ih | last _ ih | closed _ ih =>
    have := ih.2 (by simp)
    exact ⟨this.le, fun _ => this⟩
  | more _ hbar _ ih ihmore =>
    have := hbar.length_lt
    have := ih.1
    have := ihmore.1
    omega
  | function hname _ ih =>
    have := hname.length_lt
    have := ih.1
    omega
  | group hopen _ hclose ih =>
    have := hopen.length_lt
    have := ih.1
    have := hclose.length_lt
    omega
  | named hname hsize _ ih =>
    have := hname.length_lt
    have := hsize.length_le
    have := ih.1
    omega
  | signature hopen _ hcolon _ ihparams ih =>
    have := hopen.length_lt
    have := ihparams.1
    have := hcolon.length_lt
    have := ih.1
    omega
  | noArguments => exact ⟨le_rfl, fun h => absurd rfl h⟩
  | emptyArguments hopen hclose =>
    have := hopen.length_lt
    have := hclose.length_lt
    omega
  | arguments hopen _ ih =>
    have := hopen.length_lt
    have := ih.1
    omega
  | listedNone hclose =>
    have := hclose.length_lt
    omega
  | listedLast _ hclose ih =>
    have := hclose.length_lt
    have := ih.1
    omega
  | listedMore _ hcomma _ ih ihmore =>
    have := hcomma.length_lt
    have := ih.1
    have := ihmore.1
    omega

/-- What a type starts with, after whitespace. -/
def Part.Opens : Part → List Char → Prop
  | .union, text | .members, text | .primary, text | .closed, text =>
    ∀ c ∈ (skipWhitespace text).head?, isNameChar c = true ∨ c = '('
  | _, _ => True

theorem Reads.opens {part : Part} {result : part.Result} (h : Reads part result text rest) :
    part.Opens text := by
  induction h with
  | union _ ih | last _ ih | closed _ ih => exact ih
  | more _ _ _ ih _ => exact ih
  | function hname _ _ | named hname _ _ _ =>
    intro c hc
    rw [hname.skipWhitespace] at hc
    exact .inl (hname.head c hc)
  | group hopen _ _ _ =>
    intro c hc
    rw [hopen.skipWhitespace (by decide)] at hc
    exact .inr (Option.some.inj hc).symm
  | _ => trivial

theorem Reads.consume_close {t : TypeName} (h : Reads .union t text rest) (hname : isNameChar c = false)
    (hparen : c ≠ '(') : consume c text = none := by
  rw [consume_congr (space_skipWhitespace text).skipWhitespace]
  refine consume_of_head fun d hd => ?_
  rcases h.opens d hd with hchar | rfl
  · exact ⟨not_isSpace_of_isNameChar hchar, fun heq => by rw [heq, hname] at hchar; nomatch hchar⟩
  · exact ⟨by decide, hparen.symm⟩

theorem not_isNameChar_of_continuesIn {chars : List Char} (hchars : chars.all (!isNameChar ·) = true)
    (h : ContinuesIn chars (skipWhitespace text)) : ∀ c ∈ text.head?, isNameChar c = false := by
  intro c hc
  rw [Bool.eq_false_iff]
  intro hname
  have hskip : skipWhitespace text = text := by
    refine skipWhitespace_of_head fun d hd => ?_
    rw [Option.some.inj (hd.symm.trans hc)]
    exact not_isSpace_of_isNameChar hname
  rw [hskip] at h
  have hall := List.all_eq_true.mp hchars c (h c hc)
  rw [hname] at hall
  nomatch hall

theorem Reads.continuesIn_arguments (h : Reads .arguments args text rest)
    (hrest : Delimits (skipWhitespace rest)) :
    ContinuesIn ['<', '|', ',', '>', ')'] (skipWhitespace text) := by
  cases h with
  | noArguments => exact ContinuesIn.mono (by decide) hrest
  | emptyArguments hopen hclose => exact hopen.continuesIn (by decide) (by decide)
  | arguments hopen h => exact hopen.continuesIn (by decide) (by decide)

theorem SizeText.continuesIn (h : SizeText name size text rest)
    (hrest : ContinuesIn ['<', '|', ',', '>', ')'] (skipWhitespace rest)) :
    ContinuesIn ['[', '<', '|', ',', '>', ')'] (skipWhitespace text) := by
  cases h with
  | none => exact ContinuesIn.mono (by decide) hrest
  | size _ hopen _ _ _ _ => exact hopen.continuesIn (by decide) (by decide)

theorem canonicalName_array : canonicalName "array" = "array" := by decide

theorem SizeText.parseFixedSize (h : SizeText name size text rest)
    (hrest : ContinuesIn ['<', '|', ',', '>', ')'] (skipWhitespace rest)) :
    parseFixedSize (canonicalName name) (skipWhitespace text) = some (size, skipWhitespace rest) := by
  cases h with
  | none =>
    unfold zl.parseFixedSize
    split
    · rw [parseSize, consume_of_continuesIn rfl (by decide) hrest]
    · rfl
  | @size _ digits tail _ hname hopen hne hdigits hclose hfits =>
    have hhead : ∀ c ∈ tail.head?, c.isDigit = false := by
      have hcont : ContinuesIn [']'] (skipWhitespace tail) :=
        hclose.continuesIn (by decide) List.mem_cons_self
      intro c hc
      have hnot := not_isNameChar_of_continuesIn rfl hcont c hc
      rw [Bool.eq_false_iff]
      intro hdigit
      rw [isNameChar, Char.isAlphanum, hdigit, Bool.or_true] at hnot
      nomatch hnot
    have htake : (digits ++ tail).takeWhile Char.isDigit = digits :=
      collections.takeWhile_front hdigits hhead
    have hdrop : (digits ++ tail).dropWhile Char.isDigit = tail :=
      collections.dropWhile_front hdigits hhead
    have hempty : digits.isEmpty = false := List.isEmpty_eq_false_iff.mpr hne
    have hopen : zl.consume '[' (skipWhitespace text) = some (digits ++ tail) := by
      rw [consume_congr (skipWhitespace_idem text), Token.consume hopen (by decide)]
    rw [hname, canonicalName_array, zl.parseFixedSize, if_pos rfl, parseSize, hopen]
    dsimp only
    rw [htake, hdrop, hempty, hclose.consume (by decide)]
    change (if Nat.ofDigitChars 10 digits 0 < 2 ^ 64 then
      some (some (Nat.ofDigitChars 10 digits 0), skipWhitespace rest) else Option.none) = _
    rw [if_pos hfits]

theorem NameText.parsePrimary (h : NameText name text rest) (hrest : ∀ c ∈ rest.head?, isNameChar c = false)
    (fuel : Nat) :
    parsePrimary (fuel + 1) text =
      (parseFixedSize (canonicalName name) (zl.skipWhitespace rest)).bind fun (size, rest) =>
        (parseTypeArguments fuel (canonicalName name) rest).bind fun (args, rest) =>
          some (.named (canonicalName name) args size, rest) := by
  have hgroup : consume '(' text = none := by
    rw [consume_congr (space_skipWhitespace text).skipWhitespace, h.skipWhitespace]
    refine consume_of_head fun d hd => ⟨not_isSpace_of_isNameChar (h.head d hd), ?_⟩
    rintro rfl
    exact absurd (h.head _ hd) (by decide)
  have htake : (name.toList ++ rest).takeWhile isNameChar = name.toList :=
    collections.takeWhile_front h.chars hrest
  have hdrop : (name.toList ++ rest).dropWhile isNameChar = rest :=
    collections.dropWhile_front h.chars hrest
  have hempty : name.toList.isEmpty = false := List.isEmpty_eq_false_iff.mpr h.ne_nil
  rw [zl.parsePrimary, hgroup]
  dsimp only
  rw [h.skipWhitespace, htake, hdrop, hempty, String.ofList_toList]
  rfl

end

/-- What parsing makes of a part, with fuel in proportion to the text and before what may follow
    the part. -/
def Parses : (part : Part) → part.Result → List Char → List Char → Prop
  | .union, t, text, rest => ∀ fuel, 4 * text.length + 4 ≤ fuel → Stops (skipWhitespace rest) →
    parseUnion fuel text = some (settled t, skipWhitespace rest)
  | .members, ts, text, rest => ∀ fuel, 4 * text.length + 3 ≤ fuel → Stops (skipWhitespace rest) →
    ∃ t ts' mid, ts.map settled = t :: ts' ∧ parsePrimary fuel text = some (t, mid) ∧
      parseMembers fuel mid = some (ts', skipWhitespace rest)
  | .primary, t, text, rest => ∀ fuel, 4 * text.length + 3 ≤ fuel → Stops (skipWhitespace rest) →
    ∃ mid, parsePrimary fuel text = some (settled t, mid) ∧ skipWhitespace mid = skipWhitespace rest
  | .closed, t, text, rest => ∀ fuel, 4 * text.length + 3 ≤ fuel → Delimits (skipWhitespace rest) →
    ∃ mid, parsePrimary fuel text = some (settled t, mid) ∧ skipWhitespace mid = skipWhitespace rest
  | .function, args, text, rest => ∀ fuel, 4 * text.length + 6 ≤ fuel → Stops (skipWhitespace rest) →
    parseTypeArguments fuel "func" (skipWhitespace text) = some (args.map settled, skipWhitespace rest)
  | .arguments, args, text, rest => ∀ fuel name, 4 * text.length + 6 ≤ fuel →
    Delimits (skipWhitespace rest) →
    ∃ mid, parseTypeArguments fuel name (skipWhitespace text) = some (args.map settled, mid) ∧
      skipWhitespace mid = skipWhitespace rest
  | .listed close, ts, text, rest => ∀ fuel, 4 * text.length + 5 ≤ fuel →
    (close = '>' → parseArguments fuel text = some (ts.map settled, rest)) ∧
      (close = ')' → parseParameters fuel text = some (ts.map settled, rest))

theorem parseArguments_more {fuel : Nat} {text text' rest : List Char} {t : TypeName}
    {ts : List TypeName} (h : parseUnion fuel text = some (t, ',' :: text'))
    (h' : parseArguments fuel text' = some (ts, rest)) :
    parseArguments (fuel + 1) text = some (t :: ts, rest) := by
  rw [parseArguments, h]
  change (parseArguments fuel text').bind _ = _
  rw [h']
  rfl

theorem parseParameters_more {fuel : Nat} {text text' rest : List Char} {t : TypeName}
    {ts : List TypeName} (hclose : consume ')' text = none)
    (h : parseUnion fuel text = some (t, ',' :: text'))
    (h' : parseParameters fuel text' = some (ts, rest)) :
    parseParameters (fuel + 1) text = some (t :: ts, rest) := by
  rw [parseParameters, hclose, h]
  change (parseParameters fuel text').bind _ = _
  rw [h']
  rfl

theorem settled_members {ts ts' : List TypeName} {t : TypeName} (h : ts.map settled = t :: ts') :
    settled (asWritten ts) = unionOf (t :: ts') := by
  rw [settled_asWritten, h]

/-- Parsing reads every part of the grammar. -/
theorem Reads.parses {part : Part} {result : part.Result} {text rest : List Char}
    (h : Reads part result text rest) : Parses part result text rest := by
  induction h with
  | @union ts text rest h ih =>
    intro fuel hfuel hrest
    obtain ⟨fuel, rfl⟩ := Nat.exists_eq_add_of_le' (show 1 ≤ fuel by omega)
    obtain ⟨t, ts', mid, hts, hprimary, hmembers⟩ := ih fuel (by omega) hrest
    rw [parseUnion, hprimary, settled_members hts]
    change (parseMembers fuel mid).bind _ = _
    rw [hmembers]
    rfl
  | @last t text rest h ih =>
    intro fuel hfuel hrest
    obtain ⟨mid, hprimary, hmid⟩ := ih fuel hfuel hrest
    refine ⟨settled t, [], mid, rfl, hprimary, ?_⟩
    obtain ⟨fuel, rfl⟩ := Nat.exists_eq_add_of_le' (show 1 ≤ fuel by omega)
    rw [parseMembers, consume_congr (hmid.trans (skipWhitespace_idem rest).symm),
      consume_of_continuesIn rfl (by decide) hrest]
    dsimp only
    rw [hmid]
  | @more t ts text rest rest' rest'' h hbar hmore ih ihmore =>
    intro fuel hfuel hrest
    have hdelimits : Delimits (skipWhitespace rest) := hbar.continuesIn (by decide) (by decide)
    obtain ⟨mid, hprimary, hmid⟩ := ih fuel hfuel hdelimits
    obtain ⟨fuel, rfl⟩ := Nat.exists_eq_add_of_le' (show 1 ≤ fuel by omega)
    have hlength := h.length.1
    have hlength' := hbar.length_lt
    obtain ⟨t', ts', mid', hts, hprimary', hmembers⟩ := ihmore fuel (by omega) hrest
    refine ⟨settled t, t' :: ts', mid, by rw [List.map_cons, hts], hprimary, ?_⟩
    rw [parseMembers, consume_congr hmid, hbar.consume (by decide)]
    dsimp only
    rw [hprimary']
    change (parseMembers fuel mid').bind _ = _
    rw [hmembers]
    rfl
  | closed h ih => exact fun fuel hfuel hrest => ih fuel hfuel hrest.delimits
  | @function args text rest rest' hname h ih =>
    intro fuel hfuel hrest
    obtain ⟨fuel, rfl⟩ := Nat.exists_eq_add_of_le' (show 1 ≤ fuel by omega)
    have hlength := hname.length_lt
    have hopen : ContinuesIn ['('] (skipWhitespace rest) := by
      cases h with
      | signature hopen _ _ _ => exact hopen.continuesIn (by decide) (by decide)
    have hargs := ih fuel (by omega) hrest
    refine ⟨skipWhitespace rest', ?_, skipWhitespace_idem rest'⟩
    rw [hname.parsePrimary (not_isNameChar_of_continuesIn rfl hopen), settled_named]
    change (parseTypeArguments fuel "func" (skipWhitespace rest)).bind _ = _
    rw [hargs]
    rfl
  | @group t text rest rest' rest'' hopen h hclose ih =>
    intro fuel hfuel hrest
    obtain ⟨fuel, rfl⟩ := Nat.exists_eq_add_of_le' (show 1 ≤ fuel by omega)
    have hlength := hopen.length_lt
    have hunion := ih fuel (by omega) (hclose.continuesIn (by decide) (by decide))
    refine ⟨rest'', ?_, rfl⟩
    rw [parsePrimary, hopen.consume (by decide)]
    dsimp only
    rw [hunion]
    change (consume ')' (skipWhitespace rest')).bind _ = _
    rw [consume_congr (skipWhitespace_idem rest'), hclose.consume (by decide)]
    rfl
  | @named name size args text rest rest' rest'' hname hsize h ih =>
    intro fuel hfuel hrest
    obtain ⟨fuel, rfl⟩ := Nat.exists_eq_add_of_le' (show 1 ≤ fuel by omega)
    have hlength := hname.length_lt
    have hlength' := hsize.length_le
    have hafter := h.continuesIn_arguments hrest
    obtain ⟨mid, hargs, hmid⟩ := ih fuel (canonicalName name) (by omega) hrest
    refine ⟨mid, ?_, hmid⟩
    rw [hname.parsePrimary (not_isNameChar_of_continuesIn rfl (hsize.continuesIn hafter)), settled_named,
      hsize.parseFixedSize hafter]
    change (parseTypeArguments fuel (canonicalName name) (skipWhitespace rest')).bind _ = _
    rw [hargs]
    rfl
  | @signature params result text rest rest' rest'' rest''' hopen hparams hcolon h ihparams ih =>
    intro fuel hfuel hrest
    obtain ⟨fuel, rfl⟩ := Nat.exists_eq_add_of_le' (show 1 ≤ fuel by omega)
    have hlength := hopen.length_lt
    have hlength' := hparams.length.1
    have hlength'' := hcolon.length_lt
    have hparameters := (ihparams fuel (by omega)).2 rfl
    have hresult := ih fuel (by omega) hrest
    rw [parseTypeArguments, consume_congr (skipWhitespace_idem text),
      hopen.consume_ne (by decide) (by decide)]
    dsimp only
    rw [if_pos rfl, consume_congr (skipWhitespace_idem text), hopen.consume (by decide)]
    dsimp only
    rw [hparameters]
    change (consume ':' rest').bind _ = _
    rw [hcolon.consume (by decide)]
    change (parseUnion fuel rest'').bind _ = _
    rw [hresult, List.map_append, List.map_singleton]
    rfl
  | @noArguments text =>
    intro fuel name hfuel hrest
    obtain ⟨fuel, rfl⟩ := Nat.exists_eq_add_of_le' (show 1 ≤ fuel by omega)
    have hnone : ∀ c ∈ ['<', '('], consume c (skipWhitespace text) = none := by
      intro c hc
      refine consume_of_continuesIn rfl ?_ hrest
      simp only [List.mem_cons, List.not_mem_nil, or_false] at hc
      rcases hc with rfl | rfl <;> decide
    refine ⟨skipWhitespace text, ?_, skipWhitespace_idem text⟩
    rw [parseTypeArguments, hnone '<' (by decide)]
    dsimp only
    rw [hnone '(' (by decide)]
    split <;> rfl
  | @emptyArguments text rest rest' hopen hclose =>
    intro fuel name hfuel hrest
    obtain ⟨fuel, rfl⟩ := Nat.exists_eq_add_of_le' (show 1 ≤ fuel by omega)
    refine ⟨rest', ?_, rfl⟩
    rw [parseTypeArguments, consume_congr (skipWhitespace_idem text), hopen.consume (by decide)]
    dsimp only
    rw [hclose.consume (by decide)]
    rfl
  | @arguments args text rest rest' hopen h ih =>
    intro fuel name hfuel hrest
    obtain ⟨fuel, rfl⟩ := Nat.exists_eq_add_of_le' (show 1 ≤ fuel by omega)
    have hlength := hopen.length_lt
    have hempty : consume '>' rest = none := by
      cases h with
      | listedLast h _ => exact h.consume_close (by decide) (by decide)
      | listedMore h _ _ => exact h.consume_close (by decide) (by decide)
    refine ⟨rest', ?_, rfl⟩
    rw [parseTypeArguments, consume_congr (skipWhitespace_idem text), hopen.consume (by decide)]
    dsimp only
    rw [hempty]
    exact (ih fuel (by omega)).1 rfl
  | @listedNone text rest hclose =>
    intro fuel hfuel
    obtain ⟨fuel, rfl⟩ := Nat.exists_eq_add_of_le' (show 1 ≤ fuel by omega)
    refine ⟨fun heq => (by cases heq), fun _ => ?_⟩
    rw [parseParameters, hclose.consume (by decide)]
    rfl
  | @listedLast close t text rest rest' h hclose ih =>
    intro fuel hfuel
    obtain ⟨fuel, rfl⟩ := Nat.exists_eq_add_of_le' (show 1 ≤ fuel by omega)
    refine ⟨?_, ?_⟩
    · rintro rfl
      have hunion := ih fuel (by omega) (hclose.continuesIn (by decide) (by decide))
      rw [parseArguments, hunion]
      simp only [Option.bind_eq_bind, Option.bind_some]
      rw [consume_congr (skipWhitespace_idem rest), hclose.consume (by decide)]
      rfl
    · rintro rfl
      have hunion := ih fuel (by omega) (hclose.continuesIn (by decide) (by decide))
      rw [parseParameters, h.consume_close (by decide) (by decide), hunion]
      simp only [Option.bind_eq_bind, Option.bind_some]
      rw [consume_congr (skipWhitespace_idem rest), hclose.consume (by decide)]
      rfl
  | @listedMore close t ts text rest rest' rest'' h hcomma hmore ih ihmore =>
    intro fuel hfuel
    obtain ⟨fuel, rfl⟩ := Nat.exists_eq_add_of_le' (show 1 ≤ fuel by omega)
    have hlength := h.length.1
    have hlength' := hcomma.length_lt
    have hunion := ih fuel (by omega) (hcomma.continuesIn (by decide) (by decide))
    obtain ⟨harguments, hparameters⟩ := ihmore fuel (by omega)
    refine ⟨?_, ?_⟩
    · rintro rfl
      exact parseArguments_more (hunion.trans (by rw [hcomma.skipWhitespace (by decide)])) (harguments rfl)
    · rintro rfl
      exact parseParameters_more (h.consume_close (by decide) (by decide))
        (hunion.trans (by rw [hcomma.skipWhitespace (by decide)])) (hparameters rfl)

/-- A text that spells a type is accepted, for what the type settles to. -/
theorem Written.parseTypeName {text : List Char} {e : TypeName} (h : Written text e) :
    parseTypeName text = settled e := by
  obtain ⟨rest, hreads, hend⟩ := h
  have hskip : skipWhitespace rest = [] := hend.skipWhitespace
  have hunion := hreads.parses (4 * text.length + 4) le_rfl (by rw [hskip]; nofun)
  rw [zl.parseTypeName, hunion]
  dsimp only
  rw [hskip]
  rfl

end zl
