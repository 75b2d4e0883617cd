import Zl.Collections.Basic
import Zl.Regex.CodePoints
import Zl.Regex.Matcher

open zl.collections

namespace zl.regex

section
variable {source : Bytes} {st mid st' : ParserState}

theorem classBody_eq_ok {fuel : Nat} {body : Bytes} (h : classBody source fuel st = .ok (body, st')) :
    ∃ inner, body = inner ++ [code ']'] := by
  induction fuel generalizing st st' body with
  | zero => nomatch h
  | succ fuel ih =>
    rw [classBody] at h
    dsimp only at h
    split at h
    · nomatch h
    · split at h
      · next hclose =>
        obtain ⟨rfl, -⟩ := Prod.mk.inj (Except.ok.inj h)
        exact ⟨[], by rw [hclose, List.nil_append]⟩
      · split at h
        · split at h
          · nomatch h
          · obtain ⟨⟨rest, st₁⟩, hrest, h⟩ := bind_eq_ok.mp h
            obtain ⟨rfl, -⟩ := Prod.mk.inj (Except.ok.inj h)
            obtain ⟨inner, rfl⟩ := ih hrest
            exact ⟨_ :: _ :: inner, rfl⟩
        · obtain ⟨⟨rest, st₁⟩, hrest, h⟩ := bind_eq_ok.mp h
          obtain ⟨rfl, -⟩ := Prod.mk.inj (Except.ok.inj h)
          obtain ⟨inner, rfl⟩ := ih hrest
          exact ⟨_ :: inner, rfl⟩

theorem classBody_head {fuel : Nat} {body : Bytes} (h : classBody source fuel st = .ok (body, st')) :
    body.head? = some (peek source st) := by
  cases fuel with
  | zero => nomatch h
  | succ fuel =>
    rw [classBody] at h
    dsimp only at h
    split at h
    · nomatch h
    · split at h
      · obtain ⟨rfl, -⟩ := Prod.mk.inj (Except.ok.inj h)
        rfl
      · split at h
        · split at h
          · nomatch h
          · obtain ⟨⟨rest, st₁⟩, -, h⟩ := bind_eq_ok.mp h
            obtain ⟨rfl, -⟩ := Prod.mk.inj (Except.ok.inj h)
            rfl
        · obtain ⟨⟨rest, st₁⟩, -, h⟩ := bind_eq_ok.mp h
          obtain ⟨rfl, -⟩ := Prod.mk.inj (Except.ok.inj h)
          rfl

end

/-- What a character class lists. -/
inductive ClassItem where
  | single (a : Literal)
  | range (a b : Literal)
  | escape (c : Literal)
  | property (e prop : UInt8)
  /-- The hyphen that is last, behind a single character. -/
  | lastHyphen

namespace ClassItem
variable (tables : UnicodeTables)

/-- A code point the item stands for. An escape means what it means outside a class. -/
def hits (cp : Nat) : ClassItem → Bool
  | single a => a.codePoint == cp
  | range a b => a.codePoint ≤ cp && cp ≤ b.codePoint
  | escape c =>
    match c.bytes with
    | [letter] => escapeAtom tables [code '\\', letter] cp
    | _ => cp == c.codePoint
  | property e prop => propertyHit tables e prop cp
  | lastHyphen => cp == (code '-').toNat

/-- Only an ASCII character can be escaped so that the escape is read as one. -/
def stops : ClassItem → Bool
  | escape c => 1 < c.bytes.length
  | _ => false

/-- The form feed and the vertical tab have no escapes in a class. -/
def misread : ClassItem → Bool
  | escape c => 1 < c.bytes.length || c.bytes == [code 'f'] || c.bytes == [code 'v']
  | _ => false

/-- A misread escape stands for the character that its first byte is the number of. -/
def takenFor (cp : Nat) : ClassItem → Bool
  | escape c => cp == (c.bytes.headD 0).toNat
  | _ => false

/-- The items up to where the scan of a class ends. -/
def scanned : List ClassItem → List ClassItem
  | [] => []
  | [.single _, .lastHyphen] => []
  | item :: rest => item :: if item.stops then [] else scanned rest

/-- The items the scan does not reach. -/
def lost : List ClassItem → List ClassItem
  | [] => []
  | [.single a, .lastHyphen] => [.single a, .lastHyphen]
  | item :: rest => if item.stops then rest else lost rest

end ClassItem

/-- The items of a class text between its brackets, from left to right. A range is made of two
    characters, and a hyphen that is last stands for itself. -/
inductive Lists : Bytes → List ClassItem → Prop
  | nil : Lists [] []
  | property {e prop : UInt8} {rest : Bytes} {items : List ClassItem} (he : e = code 'p' ∨ e = code 'P')
      (hrest : Lists rest items) :
      Lists (code '\\' :: e :: code '\x7b' :: prop :: code '\x7d' :: rest) (.property e prop :: items)
  | escape {c : Literal} {rest : Bytes} {items : List ClassItem}
      (hplain : c.bytes = [code 'p'] ∨ c.bytes = [code 'P'] → rest.head? ≠ some (code '\x7b'))
      (hrest : Lists rest items) : Lists (code '\\' :: c.bytes ++ rest) (.escape c :: items)
  | range {a b : Literal} {rest : Bytes} {items : List ClassItem} (ha : a.bytes ≠ [code '\\'])
      (hb : b.bytes ≠ [code '\\']) (hrest : Lists rest items) :
      Lists (a.bytes ++ code '-' :: b.bytes ++ rest) (.range a b :: items)
  | single {a : Literal} {rest : Bytes} {items : List ClassItem} (ha : a.bytes ≠ [code '\\'])
      (hhyphen : rest.head? ≠ some (code '-')) (hrest : Lists rest items) :
      Lists (a.bytes ++ rest) (.single a :: items)
  | hyphen {a : Literal} (ha : a.bytes ≠ [code '\\']) :
      Lists (a.bytes ++ [code '-']) [.single a, .lastHyphen]

/-- A class text as it is written. -/
def classText (negated : Bool) (body : Bytes) : Bytes :=
  code '[' :: ((if negated then [code '^'] else []) ++ body ++ [code ']'])

namespace ClassItem
variable (tables : UnicodeTables)

/-- What the scan makes of an item. -/
def asRead (cp : Nat) (item : ClassItem) : Bool :=
  if item.misread then item.takenFor cp else item.hits tables cp

end ClassItem

section
variable {tables : UnicodeTables} {cp fuel : Nat} {body rest : Bytes} {items : List ClassItem}
variable {first : UInt8} {more : Bytes}

theorem Literal.decode_append (c : Literal) (rest : Bytes) :
    decodeFront (c.bytes ++ rest) = some (c.codePoint, c.bytes.length) := by
  have hdecode := decodeFront_take_append c.decodes rest
  rwa [List.take_length] at hdecode

theorem Literal.exists_cons (c : Literal) : ∃ first more, c.bytes = first :: more := by
  have hwidth := decodeFront_width c.decodes
  exact List.exists_cons_of_length_pos hwidth.1

theorem first_ne_backslash {a : Literal} (ha : a.bytes ≠ [code '\\'])
    (hfirst : a.bytes = first :: more) : first ≠ code '\\' := by
  rintro rfl
  have hdecode := a.decodes
  rw [hfirst, decodeFront_ascii (by decide)] at hdecode
  obtain ⟨-, rfl⟩ : (code '\\').toNat = a.codePoint ∧ more = [] := by simpa using hdecode
  exact ha hfirst

theorem classItems_character (hfirst : first ≠ code '\\') (a : Literal) (ha : a.bytes = first :: more) :
    classItems tables cp (fuel + 1) (a.bytes ++ rest) =
      if rest.head? = some (code '-') then
        match decodeFront rest.tail with
        | none => false
        | some (b, bw) => (a.codePoint ≤ cp && cp ≤ b) || classItems tables cp fuel (rest.tail.drop bw)
      else a.codePoint == cp || classItems tables cp fuel rest := by
  have hdecode := a.decode_append rest
  rw [ha, List.cons_append] at hdecode ⊢
  rw [classItems.eq_def]
  dsimp only
  rw [if_neg hfirst, hdecode]
  dsimp only
  have hdrop : (first :: (more ++ rest)).drop (first :: more).length = rest := List.drop_left
  generalize (first :: (more ++ rest)).drop (first :: more).length = behind at hdrop ⊢
  subst hdrop
  rfl

theorem classItems_escape {e : UInt8} (hplain : e = code 'p' ∨ e = code 'P' →
      rest.head? ≠ some (code '\x7b')) :
    classItems tables cp (fuel + 1) (code '\\' :: e :: rest) =
      ((escapeClass tables e cp).getD (cp == e.toNat) || classItems tables cp fuel rest) := by
  rw [classItems.eq_def]
  dsimp only
  rw [if_pos rfl, if_neg fun h => hplain h.1 h.2]

theorem classItems_property {e prop : UInt8} (he : e = code 'p' ∨ e = code 'P') :
    classItems tables cp (fuel + 1) (code '\\' :: e :: code '\x7b' :: prop :: code '\x7d' :: rest) =
      (propertyHit tables e prop cp || classItems tables cp fuel rest) := by
  rw [classItems.eq_def]
  dsimp only
  rw [if_pos rfl, if_pos ⟨he, rfl⟩]
  dsimp only [List.tail_cons]
  rw [if_pos rfl]

theorem classItems_undecodable (hfirst : first ≠ code '\\') (hdecode : decodeFront (first :: rest) = none) :
    classItems tables cp fuel (first :: rest) = false := by
  cases fuel with
  | zero => rfl
  | succ fuel =>
    rw [classItems.eq_def]
    dsimp only
    rw [if_neg hfirst, hdecode]

theorem escapeAtom_letter (letter : UInt8) (hf : letter ≠ code 'f') (hv : letter ≠ code 'v') :
    escapeAtom tables [code '\\', letter] cp = (escapeClass tables letter cp).getD
      (cp == letter.toNat) := by
  rw [escapeAtom]
  cases escapeClass tables letter cp with
  | none => simp [hf, hv]
  | some hit => simp

theorem escapeClass_lead (hfirst : 0x80 ≤ first) :
    escapeClass tables first cp = none := by
  have hne (c : Char) (hc : code c < 0x80) : first ≠ code c := by
    rintro rfl
    exact absurd hfirst (UInt8.not_le.mpr hc)
  simp [escapeClass, hne _ (show code 'd' < 0x80 by decide), hne _ (show code 'D' < 0x80 by decide),
    hne _ (show code 'w' < 0x80 by decide), hne _ (show code 'W' < 0x80 by decide),
    hne _ (show code 's' < 0x80 by decide), hne _ (show code 'S' < 0x80 by decide),
    hne _ (show code 't' < 0x80 by decide), hne _ (show code 'n' < 0x80 by decide),
    hne _ (show code 'r' < 0x80 by decide)]

/-- Behind the lead byte of a longer character stands a byte that no character starts with. -/
theorem Literal.continuation {c : Literal} {first second : UInt8} (hc : c.bytes = first :: second :: more) :
    0x80 ≤ first ∧ second ≠ code '\\' ∧ ∀ rest, decodeFront (second :: rest) = none := by
  have hdecode := c.decodes
  rw [hc] at hdecode
  have hcontinued : second &&& 0xC0 = 0x80 :=
    decodeLead_continuation hdecode second (by simp)
  refine ⟨?_, ?_, fun rest => ?_⟩
  · by_contra hnot
    rw [decodeFront_ascii (UInt8.not_le.mp hnot)] at hdecode
    simp at hdecode
  · rintro rfl
    revert hcontinued
    decide
  · exact if_pos (.inl (utf8Width_of_continuation second hcontinued))

theorem Lists.ne_lastHyphen (h : Lists body items) : items ≠ [.lastHyphen] := by
  cases h <;> simp

namespace ClassItem

theorem scanned_cons {item : ClassItem} {rest : List ClassItem} (hrest : rest ≠ [.lastHyphen]) :
    scanned (item :: rest) = item :: if item.stops then [] else scanned rest := by
  rw [scanned.eq_def]
  split
  · next heq => nomatch heq
  · next heq =>
    obtain ⟨-, rfl⟩ := List.cons.inj heq
    exact absurd rfl hrest
  · next heq =>
    obtain ⟨rfl, rfl⟩ := List.cons.inj heq
    rfl

theorem scanned_append_lost (items : List ClassItem) : scanned items ++ lost items = items := by
  induction items using scanned.induct with
  | case1 => rfl
  | case2 => rfl
  | case3 item rest hne ih =>
    rw [scanned.eq_3 item rest hne, lost.eq_3 item rest hne]
    by_cases hstops : item.stops = true
    · simp [hstops]
    · simp [hstops, ih]

end ClassItem

theorem escapeClass_letter {letter : UInt8} (h : letter = code 'f' ∨ letter = code 'v') :
    escapeClass tables letter cp = none := by
  obtain rfl | rfl := h <;> rfl

theorem asRead_escape {c : Literal} {letter : UInt8} (hc : c.bytes = [letter]) :
    (ClassItem.escape c).asRead tables cp = (escapeClass tables letter cp).getD (cp == letter.toNat) := by
  by_cases h : letter = code 'f' ∨ letter = code 'v'
  · have hmisread : (ClassItem.escape c).misread = true := by
      obtain rfl | rfl := h <;> simp [ClassItem.misread, hc]
    rw [ClassItem.asRead, if_pos hmisread, ClassItem.takenFor, hc, escapeClass_letter h]
    rfl
  · obtain ⟨hf, hv⟩ := not_or.mp h
    have hread : ¬ (ClassItem.escape c).misread = true := by simp [ClassItem.misread, hc, hf, hv]
    rw [ClassItem.asRead, if_neg hread, ClassItem.hits, hc]
    exact escapeAtom_letter letter hf hv

theorem Lists.classItems_eq (h : Lists body items) (hfuel : body.length ≤ fuel) :
    classItems tables cp fuel body = (ClassItem.scanned items).any (ClassItem.asRead tables cp) := by
  induction h generalizing fuel with
  | nil => cases fuel <;> rfl
  | @property e prop rest items he hrest ih =>
    obtain ⟨n, rfl⟩ := Nat.exists_eq_add_one_of_ne_zero (n := fuel) (by rintro rfl; simp at hfuel)
    simp only [List.length_cons] at hfuel
    rw [ClassItem.scanned_cons hrest.ne_lastHyphen, classItems_property he, ih (by omega)]
    simp [ClassItem.stops, ClassItem.asRead, ClassItem.misread, ClassItem.hits]
  | @escape c rest items hplain hrest ih =>
    obtain ⟨n, rfl⟩ := Nat.exists_eq_add_one_of_ne_zero (n := fuel) (by rintro rfl; simp at hfuel)
    rw [ClassItem.scanned_cons hrest.ne_lastHyphen, List.cons_append]
    obtain ⟨first, more, hc⟩ := c.exists_cons
    cases more with
    | nil =>
      simp only [List.cons_append, List.length_cons, List.length_append] at hfuel
      rw [hc, List.cons_append, List.nil_append, classItems_escape, ih (by omega),
        List.any_cons, asRead_escape hc]
      · simp [ClassItem.stops, hc]
      · rintro (rfl | rfl)
        · exact hplain (.inl hc)
        · exact hplain (.inr hc)
    | cons second more =>
      -- the scan ends at the byte behind the lead byte
      obtain ⟨hlead, hsecond, hdecode⟩ := c.continuation hc
      have hstops : (ClassItem.escape c).stops = true := by simp [ClassItem.stops, hc]
      have hmisread : (ClassItem.escape c).misread = true := by simp [ClassItem.misread, hc]
      rw [hc, List.cons_append, List.cons_append, classItems_escape, escapeClass_lead hlead,
        classItems_undecodable hsecond (hdecode _), if_pos hstops, List.any_cons, ClassItem.asRead,
        if_pos hmisread, ClassItem.takenFor, hc]
      · rfl
      · rintro (rfl | rfl) <;> exact absurd hlead (by decide)
  | @range a b rest items ha hb hrest ih =>
    obtain ⟨first, more, hfirst⟩ := a.exists_cons
    obtain ⟨n, rfl⟩ := Nat.exists_eq_add_one_of_ne_zero (n := fuel) (by rintro rfl; simp at hfuel)
    simp only [List.length_append, List.length_cons] at hfuel
    rw [ClassItem.scanned_cons hrest.ne_lastHyphen, List.append_assoc, List.cons_append,
      classItems_character (first_ne_backslash ha hfirst) a hfirst, List.head?_cons, if_pos rfl,
      List.tail_cons, b.decode_append]
    dsimp only
    rw [List.drop_left, ih (by omega)]
    simp [ClassItem.stops, ClassItem.asRead, ClassItem.misread, ClassItem.hits]
  | @single a rest items ha hhyphen hrest ih =>
    obtain ⟨first, more, hfirst⟩ := a.exists_cons
    obtain ⟨n, rfl⟩ := Nat.exists_eq_add_one_of_ne_zero (n := fuel) (by
      rintro rfl
      simp [hfirst] at hfuel)
    simp only [List.length_append, hfirst, List.length_cons] at hfuel
    rw [ClassItem.scanned_cons hrest.ne_lastHyphen,
      classItems_character (first_ne_backslash ha hfirst) a hfirst, if_neg hhyphen, ih (by omega)]
    simp [ClassItem.stops, ClassItem.asRead, ClassItem.misread, ClassItem.hits]
  | @hyphen a ha =>
    obtain ⟨first, more, hfirst⟩ := a.exists_cons
    obtain ⟨n, rfl⟩ := Nat.exists_eq_add_one_of_ne_zero (n := fuel) (by rintro rfl; simp at hfuel)
    rw [classItems_character (first_ne_backslash ha hfirst) a hfirst, List.head?_cons, if_pos rfl]
    rfl

end

/-- A class that a pattern may have: the parser reads it behind a bracket. -/
def AcceptedClass (cls : Bytes) : Prop :=
  ∃ source st st', peek source st = code '[' ∧
    parseCharacterClass source st = .ok (.characterClass cls, st')

section
variable (tables : UnicodeTables) (items : List ClassItem) (cp : Nat)

/-- An item that the scan reads, and reads right, lists the code point. -/
def ListedRight : Prop :=
  ∃ item ∈ ClassItem.scanned items, item.misread = false ∧ item.hits tables cp = true

/-- A misread item lists the code point, or one that the scan does not reach. -/
def ListedWrong : Prop :=
  (∃ item ∈ ClassItem.scanned items, item.misread = true ∧ item.hits tables cp = true) ∨
    ∃ item ∈ ClassItem.lost items, item.hits tables cp = true

/-- The code point is what a misread item is taken for. -/
def TakenWrong : Prop :=
  ∃ item ∈ ClassItem.scanned items, item.misread = true ∧ item.takenFor cp = true

end

section
variable {tables : UnicodeTables} {source body : Bytes} {st st' : ParserState} {fuel cp : Nat}
  {items : List ClassItem}

theorem AcceptedClass.text {cls : Bytes} (h : AcceptedClass cls) : ∃ negated body,
    cls = classText negated body ∧ (negated = true ↔ cls[1]? = some (code '^')) ∧
      (negated = false → body.head? ≠ some (code '^')) := by
  obtain ⟨source, st, st', hopen, hparse⟩ := h
  obtain ⟨⟨text, st₁⟩, hbody, hparse⟩ := bind_eq_ok.mp hparse
  obtain ⟨hcls, -⟩ := Prod.mk.inj (Except.ok.inj hparse)
  obtain ⟨inner, rfl⟩ := classBody_eq_ok hbody
  rw [hopen] at hcls
  have hcls := (Node.characterClass.inj hcls).symm
  by_cases hnegated : peek source (skip st 1) = code '^'
  · have htext : cls = classText true inner := by
      rw [hcls, if_pos hnegated]
      rfl
    exact ⟨true, inner, htext, iff_of_true rfl (congrArg (·[1]?) htext), nofun⟩
  · have htext : cls = classText false inner := by
      rw [hcls, if_neg hnegated]
      rfl
    rw [if_neg hnegated] at hbody
    have hhead : (inner ++ [code ']']).head? ≠ some (code '^') := by
      rw [classBody_head hbody]
      exact fun heq => hnegated (Option.some.inj heq)
    refine ⟨false, inner, htext, iff_of_false Bool.false_ne_true ?_, fun _ hfirst => ?_⟩
    · rw [htext, classText, List.getElem?_cons_succ, ← List.head?_eq_getElem?]
      exact hhead
    · rw [List.head?_append, hfirst] at hhead
      exact hhead rfl

theorem classAtom_classText {negated : Bool} (hfirst : negated = false → body.head? ≠ some (code '^')) :
    classAtom tables (classText negated body) cp =
      (negated != classItems tables cp (classText negated body).length body) := by
  have hdrop : (classText negated body).dropLast = code '[' ::
      ((if negated then [code '^'] else []) ++ body) := by
    rw [classText, ← List.cons_append, List.dropLast_concat]
  have hlast : (classText negated body).getLast? = some (code ']') := by
    rw [classText, ← List.cons_append, List.getLast?_concat]
  have hlength : ¬ (classText negated body).length < 2 := by
    simp only [classText, List.length_cons, List.length_append, List.length_nil]
    omega
  have hwhole : ¬ ((classText negated body).length < 2 ∨
      (classText negated body).head? ≠ some (code '[') ∨
      (classText negated body).getLast? ≠ some (code ']')) := by
    rintro (hshort | hopen | hclose)
    · exact hlength hshort
    · exact hopen rfl
    · exact hclose hlast
  rw [classAtom, if_neg hwhole, hdrop]
  cases negated with
  | true =>
    have hneg : (classText true body).length > 2 ∧ (classText true body)[1]? = some (code '^') := by
      simp [classText]
    simp [hneg]
  | false =>
    have hneg : ¬ ((classText false body).length > 2 ∧ (classText false body)[1]? = some (code '^')) := by
      cases body with
      | nil => simp [classText]
      | cons first rest => simpa [classText] using hfirst rfl
    simp [hneg]

theorem scan_right_iff (items : List ClassItem) :
    (ClassItem.scanned items).any (ClassItem.asRead tables cp) = items.any (ClassItem.hits tables cp) ↔
      ListedRight tables items cp ∨ (ListedWrong tables items cp ↔ TakenWrong items cp) := by
  have hcode : (ClassItem.scanned items).any (ClassItem.asRead tables cp) = true ↔
      ListedRight tables items cp ∨ TakenWrong items cp := by
    rw [List.any_eq_true, ListedRight, TakenWrong]
    constructor
    · rintro ⟨item, hmem, hread⟩
      rw [ClassItem.asRead] at hread
      split at hread
      · next hmisread => exact .inr ⟨item, hmem, hmisread, hread⟩
      · next hmisread => exact .inl ⟨item, hmem, by simpa using hmisread, hread⟩
    · rintro (⟨item, hmem, hmisread, hhits⟩ | ⟨item, hmem, hmisread, htaken⟩)
      · exact ⟨item, hmem, by simpa [ClassItem.asRead, hmisread] using hhits⟩
      · exact ⟨item, hmem, by simpa [ClassItem.asRead, hmisread] using htaken⟩
  have hspec : items.any (ClassItem.hits tables cp) = true ↔
      ListedRight tables items cp ∨ ListedWrong tables items cp := by
    conv_lhs => rw [← ClassItem.scanned_append_lost items, List.any_append, Bool.or_eq_true]
    rw [List.any_eq_true, List.any_eq_true, ListedRight, ListedWrong]
    constructor
    · rintro (⟨item, hmem, hhits⟩ | hlost)
      · cases hmisread : item.misread with
        | true => exact .inr (.inl ⟨item, hmem, hmisread, hhits⟩)
        | false => exact .inl ⟨item, hmem, hmisread, hhits⟩
      · exact .inr (.inr hlost)
    · rintro (⟨item, hmem, -, hhits⟩ | ⟨item, hmem, -, hhits⟩ | hlost)
      · exact .inl ⟨item, hmem, hhits⟩
      · exact .inl ⟨item, hmem, hhits⟩
      · exact .inr hlost
  rw [Bool.eq_iff_iff, hcode, hspec]
  by_cases hright : ListedRight tables items cp
  · simp [hright]
  · simp [hright, iff_comm]

/-- The class of an accepted text, negated where it starts with a caret, denotes the union of its
    items at a code point exactly if the text is made of items, and one that is read right lists
    the code point, or the items that are misread or lost make up for each other. -/
theorem classAtom_denotes_iff {cls : Bytes} (h : AcceptedClass cls) (tables : UnicodeTables) (cp : Nat) :
    ∃ negated body, cls = classText negated body ∧ (negated = true ↔ cls[1]? = some (code '^')) ∧
      ((∃ items, Lists body items ∧
          classAtom tables cls cp = (negated != items.any (ClassItem.hits tables cp))) ↔
        ∃ items, Lists body items ∧
          (ListedRight tables items cp ∨ (ListedWrong tables items cp ↔ TakenWrong items cp))) := by
  obtain ⟨negated, body, rfl, hcaret, hfirst⟩ := h.text
  refine ⟨negated, body, rfl, hcaret, exists_congr fun items => and_congr_right fun hlists => ?_⟩
  have hlength : body.length ≤ (classText negated body).length := by
    simp [classText]
    omega
  rw [classAtom_classText hfirst, hlists.classItems_eq hlength, ← scan_right_iff, Bool.bne_right_inj]

/-- A class of the two letters and the hyphen between them. -/
theorem classAtom_denotes_iff_hyphen : ∃ negated body,
    [code '[', code '-', code 'a', code ']'] = classText negated body ∧
      (negated = true ↔ [code '[', code '-', code 'a', code ']'][1]? = some (code '^')) ∧
      ((∃ items, Lists body items ∧
          classAtom ⟨fun _ _ => false, fun _ => false⟩ [code '[', code '-', code 'a', code ']'] 45 =
            (negated != items.any (ClassItem.hits ⟨fun _ _ => false, fun _ => false⟩ 45))) ↔
        ∃ items, Lists body items ∧
          (ListedRight ⟨fun _ _ => false, fun _ => false⟩ items 45 ∨
            (ListedWrong ⟨fun _ _ => false, fun _ => false⟩ items 45 ↔ TakenWrong items 45))) :=
  classAtom_denotes_iff ⟨[code '[', code '-', code 'a', code ']'], {}, _, rfl, rfl⟩ _ 45

theorem Lists.letter_hyphen (h : Lists [code 'a', code '-'] items) : ∃ a,
    items = [.single a, .lastHyphen] := by
  generalize hbody : [code 'a', code '-'] = body at h
  cases h with
  | nil => nomatch hbody
  | property he hrest => exact absurd (List.cons.inj hbody).1 (by decide)
  | escape hplain hrest => exact absurd (List.cons.inj hbody).1 (by decide)
  | @range a b rest items ha hb hrest =>
    have hlength := congrArg List.length hbody
    have hpos := (decodeFront_width a.decodes).1
    have hpos' := (decodeFront_width b.decodes).1
    simp at hlength
    omega
  | @single a rest items ha hhyphen hrest =>
    obtain ⟨first, more, hfirst⟩ := a.exists_cons
    have hdecode := a.decode_append rest
    rw [← hbody, decodeFront_ascii (by decide)] at hdecode
    have hone := (Prod.mk.inj (Option.some.inj hdecode)).2.symm
    rw [hfirst, List.length_cons, Nat.add_eq_right, List.length_eq_zero_iff] at hone
    rw [hfirst, hone] at hbody
    obtain ⟨-, rfl⟩ := List.cons.inj hbody
    exact absurd rfl hhyphen
  | @hyphen a ha => exact ⟨a, rfl⟩

/-- A hyphen that is last behind a letter is not matched. -/
theorem trailingHyphen_lost : AcceptedClass [code '[', code 'a', code '-', code ']'] ∧
    ¬ ∃ negated body, [code '[', code 'a', code '-', code ']'] = classText negated body ∧
      (negated = true ↔ [code '[', code 'a', code '-', code ']'][1]? = some (code '^')) ∧
      ∃ items, Lists body items ∧
        classAtom ⟨fun _ _ => false, fun _ => false⟩ [code '[', code 'a', code '-', code ']'] 45 =
          (negated != items.any (ClassItem.hits ⟨fun _ _ => false, fun _ => false⟩ 45)) := by
  refine ⟨⟨[code '[', code 'a', code '-', code ']'], {}, _, rfl, rfl⟩, ?_⟩
  rintro ⟨negated, body, htext, hcaret, items, hlists, hdenotes⟩
  cases negated with
  | true => exact absurd (hcaret.mp rfl) (by decide)
  | false =>
    have hbody : body = [code 'a', code '-'] := by
      have hrest : [code 'a', code '-'] ++ [code ']'] = body ++ [code ']'] := (List.cons.inj htext).2
      exact (List.append_inj_left' hrest rfl).symm
    subst hbody
    rw [htext, classAtom_classText (fun _ => by decide), hlists.classItems_eq (by decide)] at hdenotes
    obtain ⟨a, rfl⟩ := hlists.letter_hyphen
    have hlisted : [ClassItem.single a, .lastHyphen].any
        (ClassItem.hits ⟨fun _ _ => false, fun _ => false⟩ 45) = true :=
      List.any_eq_true.mpr ⟨.lastHyphen, by simp, rfl⟩
    rw [hlisted] at hdenotes
    nomatch hdenotes

end

end zl.regex
