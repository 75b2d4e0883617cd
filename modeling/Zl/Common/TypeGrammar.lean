import Zl.Common.TypeName

namespace zl

/-- Whitespace at most stands before the rest of a text. -/
def Space (text rest : List Char) : Prop := ∃ space, (∀ c ∈ space, isSpace c = true) ∧ text = space ++ rest

/-- A character, possibly after whitespace. -/
def Token (c : Char) (text rest : List Char) : Prop := Space text (c :: rest)

/-- A name, possibly after whitespace. -/
structure NameText (name : String) (text rest : List Char) : Prop where
  space : Space text (name.toList ++ rest)
  ne_nil : name.toList ≠ []
  chars : ∀ c ∈ name.toList, isNameChar c = true

/-- The size of an array, in brackets, or none. -/
inductive SizeText (name : String) : Option Nat → List Char → List Char → Prop where
  | none {text : List Char} : SizeText name none text text
  | size {text digits rest rest' : List Char} (hname : name = "array")
      (hopen : Token '[' text (digits ++ rest)) (hne : digits ≠ [])
      (hdigits : ∀ c ∈ digits, c.isDigit = true) (hclose : Token ']' rest rest')
      (hfits : Nat.ofDigitChars 10 digits 0 < 2 ^ 64) :
      SizeText name (some (Nat.ofDigitChars 10 digits 0)) text rest'

/-- The parts of a type's text. A closed type ends where its text does, and a primary one may
    also be a function type, whose result goes on as far as it can. -/
inductive Part where
  | union
  | members
  | primary
  | closed
  | function
  | arguments
  | listed (close : Char)

abbrev Part.Result : Part → Type
  | .union | .primary | .closed => TypeName
  | .members | .function | .arguments | .listed _ => List TypeName

/-- One type by itself, and the union of several. -/
def asWritten : List TypeName → TypeName
  | [t] => t
  | ts => .union ts

/-- The text starts with a part that spells the types, as they are written, and goes on with the
    rest. Parameters may be none or end with a comma, and arguments may not. -/
inductive Reads : (part : Part) → part.Result → List Char → List Char → Prop where
  | union {ts : List TypeName} {text rest : List Char} (h : Reads .members ts text rest) :
      Reads .union (asWritten ts) text rest
  | last {t : TypeName} {text rest : List Char} (h : Reads .primary t text rest) :
      Reads .members [t] text rest
  | more {t : TypeName} {ts : List TypeName} {text rest rest' rest'' : List Char}
      (h : Reads .closed t text rest) (hbar : Token '|' rest rest')
      (hmore : Reads .members ts rest' rest'') : Reads .members (t :: ts) text rest''
  | closed {t : TypeName} {text rest : List Char} (h : Reads .closed t text rest) :
      Reads .primary t text rest
  | function {args : List TypeName} {text rest rest' : List Char} (hname : NameText "func" text rest)
      (h : Reads .function args rest rest') : Reads .primary (.named "func" args none) text rest'
  | group {t : TypeName} {text rest rest' rest'' : List Char} (hopen : Token '(' text rest)
      (h : Reads .union t rest rest') (hclose : Token ')' rest' rest'') : Reads .closed t text rest''
  | named {name : String} {size : Option Nat} {args : List TypeName}
      {text rest rest' rest'' : List Char} (hname : NameText name text rest)
      (hsize : SizeText name size rest rest') (h : Reads .arguments args rest' rest'') :
      Reads .closed (.named name args size) text rest''
  | signature {params : List TypeName} {result : TypeName} {text rest rest' rest'' rest''' : List Char}
      (hopen : Token '(' text rest) (hparams : Reads (.listed ')') params rest rest')
      (hcolon : Token ':' rest' rest'') (h : Reads .union result rest'' rest''') :
      Reads .function (params ++ [result]) text rest'''
  | noArguments {text : List Char} : Reads .arguments [] text text
  | emptyArguments {text rest rest' : List Char} (hopen : Token '<' text rest)
      (hclose : Token '>' rest rest') : Reads .arguments [] text rest'
  | arguments {args : List TypeName} {text rest rest' : List Char} (hopen : Token '<' text rest)
      (h : Reads (.listed '>') args rest rest') : Reads .arguments args text rest'
  | listedNone {text rest : List Char} (hclose : Token ')' text rest) : Reads (.listed ')') [] text rest
  | listedLast {close : Char} {t : TypeName} {text rest rest' : List Char}
      (h : Reads .union t text rest) (hclose : Token close rest rest') :
      Reads (.listed close) [t] text rest'
  | listedMore {close : Char} {t : TypeName} {ts : List TypeName} {text rest rest' rest'' : List Char}
      (h : Reads .union t text rest) (hcomma : Token ',' rest rest')
      (hmore : Reads (.listed close) ts rest' rest'') : Reads (.listed close) (t :: ts) text rest''

/-- The text spells the type, with its unions and names as they are written. -/
def Written (text : List Char) (t : TypeName) : Prop := ∃ rest, Reads .union t text rest ∧ Space rest []

mutual

/-- A type with every name in the one spelling that parsing keeps. -/
def standard : TypeName → TypeName
  | .named name args fixedSize => .named (canonicalName name) (standardAll args) fixedSize
  | .union members => .union (standardAll members)

def standardAll : List TypeName → List TypeName
  | [] => []
  | t :: ts => standard t :: standardAll ts

end

theorem standardAll_eq_map (ts : List TypeName) : standardAll ts = ts.map standard := by
  induction ts with
  | nil => rfl
  | cons t ts ih => rw [standardAll, ih, List.map_cons]

/-- What parsing makes of a type as it is written. -/
def settled (t : TypeName) : TypeName := reread (standard t)

theorem settled_named (name : String) (args : List TypeName) (fixedSize : Option Nat) :
    settled (.named name args fixedSize) = .named (canonicalName name) (args.map settled) fixedSize := by
  rw [settled, standard, reread, rereadAll_eq_map, standardAll_eq_map, List.map_map]
  rfl

theorem settled_union (members : List TypeName) :
    settled (.union members) = unionOf (members.map settled) := by
  rw [settled, standard, reread, rereadAll_eq_map, standardAll_eq_map, List.map_map]
  rfl

theorem settled_asWritten (ts : List TypeName) : settled (asWritten ts) = unionOf (ts.map settled) := by
  unfold asWritten
  split
  · rfl
  · exact settled_union ts

section
variable {c : Char} {text rest rest' : List Char}

theorem Space.refl (text : List Char) : Space text text := ⟨[], nofun, rfl⟩

theorem Space.trans (h : Space text rest) (h' : Space rest rest') : Space text rest' := by
  obtain ⟨space, hspace, rfl⟩ := h
  obtain ⟨space', hspace', rfl⟩ := h'
  exact ⟨space ++ space', List.forall_mem_append.mpr ⟨hspace, hspace'⟩, by rw [List.append_assoc]⟩

theorem Space.length_le (h : Space text rest) : rest.length ≤ text.length := by
  obtain ⟨space, -, rfl⟩ := h
  simp

theorem space_skipWhitespace (text : List Char) : Space text (skipWhitespace text) :=
  ⟨text.takeWhile isSpace, List.all_eq_true.mp List.all_takeWhile, List.takeWhile_append_dropWhile.symm⟩

theorem Space.skipWhitespace (h : Space text rest) :
    zl.skipWhitespace text = zl.skipWhitespace rest := by
  obtain ⟨space, hspace, rfl⟩ := h
  rw [zl.skipWhitespace, List.dropWhile_append_of_pos hspace]
  rfl

theorem skipWhitespace_idem (text : List Char) :
    skipWhitespace (skipWhitespace text) = skipWhitespace text :=
  (space_skipWhitespace text).skipWhitespace.symm

theorem consume_congr (h : skipWhitespace text = skipWhitespace rest) :
    consume c text = consume c rest := by
  rw [consume, consume, h]

theorem Token.length_lt (h : Token c text rest) : rest.length < text.length := by
  have hle := Space.length_le h
  rwa [List.length_cons] at hle

theorem Token.after (hspace : Space text rest) (h : Token c rest rest') : Token c text rest' :=
  hspace.trans h

theorem Token.consume (h : Token c text rest) (hc : isSpace c = false) :
    consume c text = some rest := by
  rw [consume_congr (Space.skipWhitespace h), consume_self hc]

theorem token_of_consume (h : consume c text = some rest) : Token c text rest := by
  have hspace := space_skipWhitespace text
  unfold consume at h
  split at h
  · nomatch h
  · next d tail hskip =>
    split at h
    · next heq =>
      rw [hskip, heq, Option.some.inj h] at hspace
      exact hspace
    · nomatch h

/-- Nothing else is read where another character comes next. -/
theorem Token.consume_ne {d : Char} (h : Token c text rest) (hc : isSpace c = false) (hne : c ≠ d) :
    zl.consume d text = none := by
  rw [consume_congr (Space.skipWhitespace h)]
  refine consume_of_head fun e he => ?_
  obtain rfl := Option.some.inj he
  exact ⟨hc, hne⟩

theorem SizeText.after {name : String} {size : Option Nat} (hspace : Space text rest)
    (h : SizeText name size rest rest') : ∃ mid, SizeText name size text mid ∧ Space mid rest' := by
  cases h with
  | none => exact ⟨text, .none, hspace⟩
  | size hname hopen hne hdigits hclose hfits =>
    exact ⟨_, .size hname (hopen.after hspace) hne hdigits hclose hfits, .refl _⟩

theorem Reads.function_after {args : List TypeName} (hspace : Space text rest)
    (h : Reads .function args rest rest') : Reads .function args text rest' := by
  cases h with
  | signature hopen hparams hcolon h => exact .signature (hopen.after hspace) hparams hcolon h

theorem Reads.arguments_after {args : List TypeName} (hspace : Space text rest)
    (h : Reads .arguments args rest rest') : ∃ mid, Reads .arguments args text mid ∧ Space mid rest' := by
  cases h with
  | noArguments => exact ⟨text, .noArguments, hspace⟩
  | emptyArguments hopen hclose => exact ⟨_, .emptyArguments (hopen.after hspace) hclose, .refl _⟩
  | arguments hopen h => exact ⟨_, .arguments (hopen.after hspace) h, .refl _⟩

end

theorem canonicalName_eq_array {name : String} (h : canonicalName name = "array") : name = "array" := by
  unfold canonicalName at h
  split at h
  · exact absurd h (by decide)
  split at h
  · exact absurd h (by decide)
  · exact h

theorem canonicalName_eq_func {name : String} (h : canonicalName name = "func") : name = "func" := by
  unfold canonicalName at h
  split at h
  · exact absurd h (by decide)
  split at h
  · exact absurd h (by decide)
  · exact h

theorem sizeText_of_parseFixedSize {name : String} {text rest : List Char} {size : Option Nat}
    (h : parseFixedSize (canonicalName name) text = some (size, rest)) :
    ∃ mid, SizeText name size text mid ∧ Space mid rest := by
  unfold parseFixedSize at h
  split at h
  · next hname =>
    unfold parseSize at h
    split at h
    · obtain ⟨rfl, rfl⟩ := Prod.mk.inj (Option.some.inj h)
      exact ⟨text, .none, .refl _⟩
    · next tail hopen =>
      dsimp only at h
      split at h
      · nomatch h
      · next hempty =>
        obtain ⟨rest', hclose, h⟩ := Option.bind_eq_some_iff.mp h
        split at h
        · next hfits =>
          obtain ⟨rfl, rfl⟩ := Prod.mk.inj (Option.some.inj h)
          have hdigits : tail = tail.takeWhile Char.isDigit ++ tail.dropWhile Char.isDigit :=
            List.takeWhile_append_dropWhile.symm
          have hopen := token_of_consume hopen
          rw [hdigits] at hopen
          refine ⟨rest', .size (canonicalName_eq_array hname) hopen ?_ ?_ (token_of_consume hclose) hfits,
            space_skipWhitespace _⟩
          · exact fun hnil => hempty (List.isEmpty_iff.mpr hnil)
          · exact List.all_eq_true.mp List.all_takeWhile
        · nomatch h
  · obtain ⟨rfl, rfl⟩ := Prod.mk.inj (Option.some.inj h)
    exact ⟨text, .none, .refl _⟩

/-- What the functions of the parser give with some fuel is what the grammar reads. -/
structure ParsesGrammar (fuel : Nat) : Prop where
  union {text rest : List Char} {t : TypeName} : parseUnion fuel text = some (t, rest) →
    ∃ e mid, Reads .union e text mid ∧ Space mid rest ∧ t = settled e ∧ consume '|' rest = none
  members {text rest : List Char} {ts : List TypeName} : parseMembers fuel text = some (ts, rest) →
    consume '|' rest = none ∧ (ts = [] ∧ Space text rest ∨ ∃ es tail mid, Token '|' text tail ∧
      Reads .members es tail mid ∧ Space mid rest ∧ ts = es.map settled)
  primary {text rest : List Char} {t : TypeName} : parsePrimary fuel text = some (t, rest) →
    ∃ e mid, Space mid rest ∧ t = settled e ∧
      (Reads .closed e text mid ∨ Reads .primary e text mid ∧ consume '|' rest = none)
  typeArguments {name : String} {text rest : List Char} {ts : List TypeName} :
    parseTypeArguments fuel name text = some (ts, rest) →
    ∃ es mid, Space mid rest ∧ ts = es.map settled ∧ (Reads .arguments es text mid ∨
      name = "func" ∧ Reads .function es text mid ∧ consume '|' rest = none)
  arguments {text rest : List Char} {ts : List TypeName} : parseArguments fuel text = some (ts, rest) →
    ∃ es, ts = es.map settled ∧ Reads (.listed '>') es text rest
  parameters {text rest : List Char} {ts : List TypeName} :
    parseParameters fuel text = some (ts, rest) →
    ∃ es, ts = es.map settled ∧ Reads (.listed ')') es text rest

theorem parsesGrammar (fuel : Nat) : ParsesGrammar fuel := by
  induction fuel with
  | zero => constructor <;> (intros; simp_all [parseUnion, parseMembers, parsePrimary, parseTypeArguments,
      parseArguments, parseParameters])
  | succ fuel ih =>
    constructor
    case union =>
      intro text rest t h
      obtain ⟨⟨first, rest'⟩, hfirst, h⟩ := Option.bind_eq_some_iff.mp h
      obtain ⟨⟨members, rest''⟩, hmembers, h⟩ := Option.bind_eq_some_iff.mp h
      obtain ⟨rfl, rfl⟩ := Prod.mk.inj (Option.some.inj h)
      obtain ⟨e, mid, hspace, rfl, hreads⟩ := ih.primary hfirst
      obtain ⟨hbar, ⟨rfl, hspace'⟩ | ⟨es, tail, mid', htoken, hmore, hspace', rfl⟩⟩ := ih.members hmembers
      · have hprimary : Reads .primary e text mid := hreads.elim .closed And.left
        refine ⟨asWritten [e], mid, .union (.last hprimary), hspace.trans hspace', ?_, hbar⟩
        rw [settled_asWritten, List.map_singleton]
      · have hclosed : Reads .closed e text mid := by
          refine hreads.resolve_right fun hright => ?_
          rw [htoken.consume (by decide)] at hright
          exact absurd hright.2 (by simp)
        refine ⟨asWritten (e :: es), mid', .union (.more hclosed (htoken.after hspace) hmore), hspace', ?_,
          hbar⟩
        rw [settled_asWritten, List.map_cons]
    case members =>
      intro text rest ts h
      rw [parseMembers] at h
      split at h
      · next hbar =>
        obtain ⟨rfl, rfl⟩ := Prod.mk.inj (Option.some.inj h)
        rw [consume_congr (skipWhitespace_idem text)]
        exact ⟨hbar, .inl ⟨rfl, space_skipWhitespace text⟩⟩
      · next tail htail =>
        obtain ⟨⟨member, rest'⟩, hmember, h⟩ := Option.bind_eq_some_iff.mp h
        obtain ⟨⟨members, rest''⟩, hmembers, h⟩ := Option.bind_eq_some_iff.mp h
        obtain ⟨rfl, rfl⟩ := Prod.mk.inj (Option.some.inj h)
        obtain ⟨e, mid, hspace, rfl, hreads⟩ := ih.primary hmember
        obtain ⟨hbar, ⟨rfl, hspace'⟩ | ⟨es, tail', mid', htoken, hmore, hspace', rfl⟩⟩ :=
          ih.members hmembers
        · have hprimary : Reads .primary e tail mid := hreads.elim .closed And.left
          exact ⟨hbar, .inr ⟨[e], tail, mid, token_of_consume htail, .last hprimary,
            hspace.trans hspace', rfl⟩⟩
        · have hclosed : Reads .closed e tail mid := by
            refine hreads.resolve_right fun hright => ?_
            rw [htoken.consume (by decide)] at hright
            exact absurd hright.2 (by simp)
          exact ⟨hbar, .inr ⟨e :: es, tail, mid', token_of_consume htail,
            .more hclosed (htoken.after hspace) hmore, hspace', rfl⟩⟩
    case primary =>
      intro text rest t h
      rw [parsePrimary] at h
      split at h
      · next tail hopen =>
        obtain ⟨⟨group, rest'⟩, hgroup, h⟩ := Option.bind_eq_some_iff.mp h
        obtain ⟨rest'', hclose, h⟩ := Option.bind_eq_some_iff.mp h
        obtain ⟨rfl, rfl⟩ := Prod.mk.inj (Option.some.inj h)
        obtain ⟨e, mid, hreads, hspace, rfl, -⟩ := ih.union hgroup
        exact ⟨e, rest'', .refl _, rfl, .inl (.group (token_of_consume hopen) hreads
          ((token_of_consume hclose).after hspace))⟩
      · dsimp only at h
        split at h
        · nomatch h
        · next hempty =>
          obtain ⟨⟨size, rest'⟩, hsize, h⟩ := Option.bind_eq_some_iff.mp h
          obtain ⟨⟨args, rest''⟩, hargs, h⟩ := Option.bind_eq_some_iff.mp h
          obtain ⟨rfl, rfl⟩ := Prod.mk.inj (Option.some.inj h)
          have hname : NameText (String.ofList ((skipWhitespace text).takeWhile isNameChar)) text
              ((skipWhitespace text).dropWhile isNameChar) := by
            refine ⟨?_, ?_, ?_⟩
            · rw [String.toList_ofList, List.takeWhile_append_dropWhile]
              exact space_skipWhitespace text
            · rw [String.toList_ofList]
              exact fun hnil => hempty (List.isEmpty_iff.mpr hnil)
            · rw [String.toList_ofList]
              exact List.all_eq_true.mp List.all_takeWhile
          obtain ⟨mid, hsizeText, hspace⟩ := sizeText_of_parseFixedSize hsize
          obtain ⟨mid, hsizeText, hspace'⟩ := hsizeText.after (space_skipWhitespace _)
          obtain ⟨es, tail, hspace'', rfl, hreads | ⟨hfunc, hreads, hbar⟩⟩ := ih.typeArguments hargs
          · obtain ⟨tail', hreads, hspace'''⟩ := hreads.arguments_after (hspace'.trans hspace)
            refine ⟨.named _ es size, tail', hspace'''.trans hspace'', ?_,
              .inl (.named hname hsizeText hreads)⟩
            rw [settled_named]
          · have hfunc := canonicalName_eq_func hfunc
            cases hsizeText with
            | size harray _ _ _ _ _ => exact absurd (hfunc.symm.trans harray) (by decide)
            | none =>
              rw [hfunc] at hname
              refine ⟨.named "func" es none, tail, hspace'', ?_,
                .inr ⟨.function hname (hreads.function_after (hspace'.trans hspace)), hbar⟩⟩
              rw [settled_named, hfunc]
    case typeArguments =>
      intro name text rest ts h
      rw [parseTypeArguments] at h
      split at h
      · next tail hopen =>
        split at h
        · next tail' hclose =>
          obtain ⟨rfl, rfl⟩ := Prod.mk.inj (Option.some.inj h)
          exact ⟨[], _, .refl _, rfl, .inl (.emptyArguments (token_of_consume hopen)
            (token_of_consume hclose))⟩
        · obtain ⟨es, rfl, hreads⟩ := ih.arguments h
          exact ⟨es, rest, .refl _, rfl, .inl (.arguments (token_of_consume hopen) hreads)⟩
      · split at h
        · next hname =>
          split at h
          · next tail hopen =>
            obtain ⟨⟨args, rest'⟩, hargs, h⟩ := Option.bind_eq_some_iff.mp h
            obtain ⟨rest'', hcolon, h⟩ := Option.bind_eq_some_iff.mp h
            obtain ⟨⟨result, rest'''⟩, hresult, h⟩ := Option.bind_eq_some_iff.mp h
            obtain ⟨rfl, rfl⟩ := Prod.mk.inj (Option.some.inj h)
            obtain ⟨es, rfl, hparams⟩ := ih.parameters hargs
            obtain ⟨e, mid, hreads, hspace, rfl, hbar⟩ := ih.union hresult
            refine ⟨es ++ [e], mid, hspace, ?_, .inr ⟨hname, .signature (token_of_consume hopen) hparams
              (token_of_consume hcolon) hreads, hbar⟩⟩
            rw [List.map_append, List.map_singleton]
          · obtain ⟨rfl, rfl⟩ := Prod.mk.inj (Option.some.inj h)
            exact ⟨[], _, .refl _, rfl, .inl .noArguments⟩
        · obtain ⟨rfl, rfl⟩ := Prod.mk.inj (Option.some.inj h)
          exact ⟨[], _, .refl _, rfl, .inl .noArguments⟩
    case arguments =>
      intro text rest ts h
      obtain ⟨⟨arg, rest'⟩, harg, h⟩ := Option.bind_eq_some_iff.mp h
      obtain ⟨e, mid, hreads, hspace, rfl, -⟩ := ih.union harg
      dsimp only at h
      split at h
      · next hclose =>
        obtain ⟨rfl, rfl⟩ := Prod.mk.inj (Option.some.inj h)
        exact ⟨[e], rfl, .listedLast hreads ((token_of_consume hclose).after hspace)⟩
      · obtain ⟨rest'', hcomma, h⟩ := Option.bind_eq_some_iff.mp h
        obtain ⟨⟨args, rest'''⟩, hargs, h⟩ := Option.bind_eq_some_iff.mp h
        obtain ⟨rfl, rfl⟩ := Prod.mk.inj (Option.some.inj h)
        obtain ⟨es, rfl, hmore⟩ := ih.arguments hargs
        exact ⟨e :: es, rfl, .listedMore hreads ((token_of_consume hcomma).after hspace) hmore⟩
    case parameters =>
      intro text rest ts h
      rw [parseParameters] at h
      split at h
      · next hclose =>
        obtain ⟨rfl, rfl⟩ := Prod.mk.inj (Option.some.inj h)
        exact ⟨[], rfl, .listedNone (token_of_consume hclose)⟩
      · obtain ⟨⟨arg, rest'⟩, harg, h⟩ := Option.bind_eq_some_iff.mp h
        obtain ⟨e, mid, hreads, hspace, rfl, -⟩ := ih.union harg
        dsimp only at h
        split at h
        · next hclose =>
          obtain ⟨rfl, rfl⟩ := Prod.mk.inj (Option.some.inj h)
          exact ⟨[e], rfl, .listedLast hreads ((token_of_consume hclose).after hspace)⟩
        · obtain ⟨rest'', hcomma, h⟩ := Option.bind_eq_some_iff.mp h
          obtain ⟨⟨args, rest'''⟩, hargs, h⟩ := Option.bind_eq_some_iff.mp h
          obtain ⟨rfl, rfl⟩ := Prod.mk.inj (Option.some.inj h)
          obtain ⟨es, rfl, hmore⟩ := ih.parameters hargs
          exact ⟨e :: es, rfl, .listedMore hreads ((token_of_consume hcomma).after hspace) hmore⟩

/-- An accepted text spells a type, and parsing settles it. -/
theorem written_of_parseTypeName {text : List Char} (h : parseTypeName text ≠ invalidType) :
    ∃ e, Written text e ∧ parseTypeName text = settled e := by
  unfold parseTypeName at h ⊢
  split at h
  · next result rest hunion =>
    split at h
    · next hskip =>
      obtain ⟨e, mid, hreads, hspace, rfl, -⟩ := (parsesGrammar _).union hunion
      have hend : Space rest [] := hskip ▸ space_skipWhitespace rest
      rw [if_pos hskip]
      exact ⟨e, ⟨mid, hreads, hspace.trans hend⟩, rfl⟩
    · exact absurd rfl h
  · exact absurd rfl h

end zl
