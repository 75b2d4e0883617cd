import Zl.Vm.Json.JsonParser

namespace zl.vm.json

/-- The text goes on with `r` after some white space. -/
def Blank (s r : Bytes) : Prop := ∃ w : Bytes, (∀ c ∈ w, isSpace c = true) ∧ s = w ++ r

/-- The text does not start with white space. -/
def Solid (s : Bytes) : Prop := ∀ c ∈ s.head?, isSpace c = false

/-- Four hexadecimal digits. -/
inductive Hex4 : Bytes → Nat → Bytes → Prop
  | intro {a b c d : UInt8} {w x y z : Nat} {s : Bytes} (ha : hexDigit a = some w)
      (hb : hexDigit b = some x)
      (hc : hexDigit c = some y) (hd : hexDigit d = some z) :
    Hex4 (a :: b :: c :: d :: s) (((w * 16 + x) * 16 + y) * 16 + z) s

/-- What is behind the opening quote of a string, up to the closing one. -/
inductive StringBody : Bytes → Bytes → Bytes → Prop
  | close {r : Bytes} : StringBody (quote :: r) [] r
  | raw {c : UInt8} {s out r : Bytes} (hquote : c ≠ quote) (hcontrol : ¬ c < 0x20)
      (hescape : c ≠ backslash)
      (hrest : StringBody s out r) : StringBody (c :: s) (c :: out) r
  | escape {e b : UInt8} {s out r : Bytes} (he : simpleEscape e = some b) (hrest : StringBody s out r) :
    StringBody (backslash :: e :: s) (b :: out) r
  | unicode {cp : Nat} {s s' out r : Bytes} (hcp : Hex4 s cp s') (hplane : ¬ (0xD800 ≤ cp ∧ cp ≤ 0xDFFF))
      (hrest : StringBody s' out r) : StringBody (backslash :: 'u'.toUInt8 :: s) (appendUtf8 cp ++ out) r
  | surrogates {high low : Nat} {s s' s'' out r : Bytes}
      (hhigh : Hex4 s high (backslash :: 'u'.toUInt8 :: s'))
      (hlow : Hex4 s' low s'') (hhighRange : 0xD800 ≤ high ∧ high ≤ 0xDBFF)
        (hlowRange : 0xDC00 ≤ low ∧ low ≤ 0xDFFF)
      (hrest : StringBody s'' out r) :
    StringBody (backslash :: 'u'.toUInt8 :: s)
      (appendUtf8 (0x10000 + (high - 0xD800) * 1024 + (low - 0xDC00)) ++ out) r

def Digits (ds : Bytes) : Prop := ds ≠ [] ∧ ∀ d ∈ ds, isDigit d = true

/-- The text of a number, in its four parts. -/
structure NumberText (sgn int frac exp : Bytes) : Prop where
  sgn_eq : sgn = [] ∨ sgn = [minus]
  int_eq : int = [zero] ∨ Digits int ∧ int.head? ≠ some zero
  frac_eq : frac = [] ∨ ∃ ds, Digits ds ∧ frac = dot :: ds
  exp_eq : exp = [] ∨ ∃ mark sgn ds, isExponentMark mark = true ∧
    (sgn = [] ∨ sgn = [plus] ∨ sgn = [minus]) ∧ Digits ds ∧ exp = mark :: (sgn ++ ds)

/-- The text does not go on with what could still belong to the number. -/
def Follow (frac exp r : Bytes) : Prop :=
  ∀ c ∈ r.head?, isDigit c = false ∧ (frac = [] → exp = [] → c ≠ dot) ∧
    (exp = [] → isExponentMark c = false)

/-- The value of the text of a number. -/
def numberValue (stod : Bytes → Option Nat) (sgn int frac exp : Bytes) : Option Decoded :=
  if frac ≠ [] ∨ exp ≠ [] then (stod (sgn ++ int ++ frac ++ exp)).map Decoded.double
  else (stoll (sgn ++ int ++ frac ++ exp)).map Decoded.int

section
variable (stod : Bytes → Option Nat) (unique : Prop)

mutual

/-- The text starts with the spelling of a value, nested at most `n` deep, and goes on with `r`. With
    `unique`, no object repeats a key. -/
inductive Spells : Nat → Bytes → Decoded → Bytes → Prop
  | nullWord {n : Nat} {r : Bytes} : Spells n (nullText ++ r) .nil r
  | trueWord {n : Nat} {r : Bytes} : Spells n (trueText ++ r) (.bool true) r
  | falseWord {n : Nat} {r : Bytes} : Spells n (falseText ++ r) (.bool false) r
  | string {n : Nat} {s out r : Bytes} (hbody : StringBody s out r) :
      Spells n (quote :: s) (.string out) r
  | number {n : Nat} {sgn int frac exp r : Bytes} {value : Decoded} (htext : NumberText sgn int frac exp)
      (hvalue : numberValue stod sgn int frac exp = some value) (hfollow : Follow frac exp r) :
    Spells n (sgn ++ int ++ frac ++ exp ++ r) value r
  | emptyList {n : Nat} {s r : Bytes} (hclose : Blank s (closeBracket :: r)) :
      Spells (n + 1) (openBracket :: s) (.list []) r
  | list {n : Nat} {s r : Bytes} {items : List Decoded} (hitems : Items n s items r) :
    Spells (n + 1) (openBracket :: s) (.list items) r
  | emptyMap {n : Nat} {s r : Bytes} (hclose : Blank s (closeBrace :: r)) :
      Spells (n + 1) (openBrace :: s) (.map []) r
  | map {n : Nat} {s r : Bytes} {members : List (Bytes × Decoded)} (hmembers : Members n s members r) :
    Spells (n + 1) (openBrace :: s) (.map members) r

/-- The items of an array, and its closing bracket. -/
inductive Items : Nat → Bytes → List Decoded → Bytes → Prop
  | last {n : Nat} {s s₁ s₂ r : Bytes} {value : Decoded} (hblank : Blank s s₁)
      (hvalue : Spells n s₁ value s₂)
      (hclose : Blank s₂ (closeBracket :: r)) : Items n s [value] r
  | more {n : Nat} {s s₁ s₂ s₃ r : Bytes} {value : Decoded} {values : List Decoded} (hblank : Blank s s₁)
      (hvalue : Spells n s₁ value s₂) (hcomma : Blank s₂ (comma :: s₃)) (hrest : Items n s₃ values r) :
    Items n s (value :: values) r

/-- The members of an object, and its closing brace. -/
inductive Members : Nat → Bytes → List (Bytes × Decoded) → Bytes → Prop
  | last {n : Nat} {s s₁ s₂ s₃ s₄ s₅ r : Bytes} {key : Bytes} {value : Decoded}
      (hblank : Blank s (quote :: s₁))
      (hkey : StringBody s₁ key s₂) (hcolon : Blank s₂ (colon :: s₃)) (hblank' : Blank s₃ s₄)
      (hvalue : Spells n s₄ value s₅) (hclose : Blank s₅ (closeBrace :: r)) : Members n s [(key, value)] r
  | more {n : Nat} {s s₁ s₂ s₃ s₄ s₅ s₆ r : Bytes} {key : Bytes} {value : Decoded}
      {members : List (Bytes × Decoded)}
      (hblank : Blank s (quote :: s₁)) (hkey : StringBody s₁ key s₂) (hcolon : Blank s₂ (colon :: s₃))
      (hblank' : Blank s₃ s₄) (hvalue : Spells n s₄ value s₅) (hcomma : Blank s₅ (comma :: s₆))
      (hrest : Members n s₆ members r) (hunique : unique → key ∉ members.map Prod.fst) :
    Members n s ((key, value) :: members) r

end

/-- A text that spells a value and nothing else. -/
def Text (n : Nat) (s : Bytes) (value : Decoded) : Prop :=
  ∃ s₁ s₂, Blank s s₁ ∧ Spells stod unique n s₁ value s₂ ∧ Blank s₂ []

end

theorem forall_byte {P : UInt8 → Prop} (h : ∀ n : Fin 256, P (UInt8.ofNat n)) (c : UInt8) : P c := by
  have hc := h ⟨c.toNat, c.toNat_lt⟩
  rwa [UInt8.ofNat_toNat] at hc

theorem not_space_of_isDigit (c : UInt8) (h : isDigit c = true) : isSpace c = false := by
  grind [isDigit, isSpace]

theorem ws_eq {s r : Bytes} (hblank : Blank s r) (hsolid : Solid r) : ws s = r := by
  obtain ⟨w, hw, rfl⟩ := hblank
  have hrest : ws r = r := by
    cases r with
    | nil => rfl
    | cons c r => exact List.dropWhile_cons_of_neg (by rw [hsolid c rfl]; exact Bool.false_ne_true)
  rw [ws, List.dropWhile_append_of_pos hw]
  exact hrest

theorem blank_ws (s : Bytes) : Blank s (ws s) :=
  ⟨s.takeWhile isSpace, fun _ hc => List.mem_takeWhile_imp hc, List.takeWhile_append_dropWhile.symm⟩

theorem solid_ws (s : Bytes) : Solid (ws s) := fun c hc => by
  have hnot := List.head?_dropWhile_not isSpace s
  rw [Option.mem_def] at hc
  rw [ws] at hc
  rw [hc] at hnot
  simpa using hnot

theorem solid_cons {c : UInt8} {s : Bytes} (hc : isSpace c = false) : Solid (c :: s) := fun _ hd =>
  (Option.mem_some.mp hd) ▸ hc

theorem blank_refl (s : Bytes) : Blank s s := ⟨[], nofun, rfl⟩

theorem Blank.length_le {s r : Bytes} (h : Blank s r) : r.length ≤ s.length := by
  obtain ⟨w, -, rfl⟩ := h
  rw [List.length_append]
  exact Nat.le_add_left _ _

theorem hex4_eq {s r : Bytes} {cp : Nat} (h : Hex4 s cp r) : hex4 s = .ok (cp, r) := by
  obtain ⟨ha, hb, hc, hd⟩ := h
  simp only [hex4, hexDigitOrFail, ha, hb, hc, hd]
  rfl

theorem Hex4.length {s r : Bytes} {cp : Nat} (h : Hex4 s cp r) : s.length = r.length + 4 := by
  obtain ⟨-, -, -, -⟩ := h
  rfl

theorem StringBody.length_lt {s out r : Bytes} (h : StringBody s out r) : r.length < s.length := by
  induction h with
  | close => exact Nat.lt_succ_self _
  | raw _ _ _ _ ih => exact Nat.lt_succ_of_lt ih
  | escape _ _ ih => exact Nat.lt_succ_of_lt (Nat.lt_succ_of_lt ih)
  | unicode hcp _ _ ih =>
    have hlength := hcp.length
    simp only [List.length_cons]
    omega
  | surrogates hhigh hlow _ _ _ ih =>
    have hlength := hhigh.length
    have hlength' := hlow.length
    simp only [List.length_cons] at hlength ⊢
    omega

theorem stringLoop_eq {s out r : Bytes} (h : StringBody s out r) {fuel : Nat} (hfuel : s.length ≤ fuel) :
    stringLoop fuel s = .ok (out, r) := by
  induction h generalizing fuel with
  | close =>
    obtain _ | fuel := fuel
    · nomatch hfuel
    · simp only [stringLoop, if_true]
  | raw hquote hcontrol hescape _ ih =>
    obtain _ | fuel := fuel
    · nomatch hfuel
    · simp only [stringLoop, if_neg hquote, if_neg hcontrol, if_pos hescape,
        ih (Nat.le_of_succ_le_succ hfuel)]
      rfl
  | @escape e b s out r he _ ih =>
    obtain _ | fuel := fuel
    · nomatch hfuel
    have hu : e ≠ 'u'.toUInt8 := by
      rintro rfl
      cases he
    rw [stringLoop, if_neg (by decide), if_neg (by decide), if_neg (by decide)]
    simp only [if_neg hu, he, ih (Nat.le_of_succ_le (Nat.le_of_succ_le_succ hfuel))]
    rfl
  | unicode hcp hplane _ ih =>
    obtain _ | fuel := fuel
    · nomatch hfuel
    have hlength := hcp.length
    rw [stringLoop, if_neg (by decide), if_neg (by decide), if_neg (by decide)]
    simp only [List.length_cons] at hfuel
    simp only [if_true, unicodeEscape, hex4_eq hcp, bind, Except.bind]
    rw [if_neg (by omega), if_neg (by omega)]
    simp only [pure, Except.pure, ih (show _ ≤ fuel by omega)]
  | surrogates hhigh hlow hhighRange hlowRange _ ih =>
    obtain _ | fuel := fuel
    · nomatch hfuel
    have hlength := hhigh.length
    have hlength' := hlow.length
    rw [stringLoop, if_neg (by decide), if_neg (by decide), if_neg (by decide)]
    simp only [List.length_cons] at hfuel hlength
    simp only [if_true, unicodeEscape, hex4_eq hhigh, bind, Except.bind]
    rw [if_pos hhighRange]
    simp only [and_self, if_true, hex4_eq hlow]
    rw [if_neg (by omega)]
    simp only [pure, Except.pure, ih (show _ ≤ fuel by omega)]

theorem parseString_eq {s s₁ out r : Bytes} (hblank : Blank s (quote :: s₁)) (h : StringBody s₁ out r) :
    parseString s = .ok (out, r) := by
  rw [parseString, ws_eq hblank (solid_cons (by decide))]
  simp only [if_true]
  exact stringLoop_eq h (Nat.le_refl _)

theorem span_digits {ds r : Bytes} (hds : ∀ d ∈ ds, isDigit d = true)
    (hr : ∀ c ∈ r.head?, isDigit c = false) :
    (ds ++ r).span isDigit = (ds, r) := by
  rw [List.span_eq_takeWhile_dropWhile, List.takeWhile_append_of_pos hds,
    List.dropWhile_append_of_pos hds]
  cases r with
  | nil => simp
  | cons c r =>
    have hc : ¬ isDigit c = true := by rw [hr c rfl]; exact Bool.false_ne_true
    rw [List.takeWhile_cons_of_neg hc, List.dropWhile_cons_of_neg hc, List.append_nil]

theorem integerPart_eq {int t : Bytes} (hint : int = [zero] ∨ Digits int ∧ int.head? ≠ some zero)
    (ht : ∀ c ∈ t.head?, isDigit c = false) : integerPart (int ++ t) = .ok (int, t) := by
  rcases hint with rfl | ⟨⟨hne, hdigits⟩, hzero⟩
  · cases t with
    | nil => rfl
    | cons d t =>
      simp only [integerPart, List.cons_append, List.nil_append, ht d rfl]
      rfl
  · cases int with
    | nil => exact absurd rfl hne
    | cons c int =>
      have hc : c ≠ zero := fun heq => hzero (congrArg some heq)
      have hspan := span_digits hdigits ht
      rw [List.cons_append] at hspan
      simp only [integerPart, List.cons_append, hdigits c List.mem_cons_self, Bool.not_true,
        Bool.false_eq_true, if_false, if_neg hc, hspan]

theorem fractionPart_eq {frac t : Bytes} (hfrac : frac = [] ∨ ∃ ds, Digits ds ∧ frac = dot :: ds)
    (ht : ∀ c ∈ t.head?, isDigit c = false ∧ (frac = [] → c ≠ dot)) :
    fractionPart (frac ++ t) = .ok (frac, t) := by
  rcases hfrac with rfl | ⟨ds, ⟨hne, hdigits⟩, rfl⟩
  · cases t with
    | nil => rfl
    | cons c t => simp only [fractionPart, List.nil_append, if_neg ((ht c rfl).2 rfl)]
  · cases ds with
    | nil => exact absurd rfl hne
    | cons d ds =>
      have hspan := span_digits hdigits fun c hc => (ht c hc).1
      simp only [fractionPart, List.cons_append, if_true]
      rw [List.cons_append] at hspan
      rw [hspan]

theorem sign_eq {isSign : UInt8 → Bool} {sgn t : Bytes} (hsgn : sgn = [] ∨ ∃ c, isSign c = true ∧ sgn = [c])
    (ht : ∀ c ∈ t.head?, isSign c = false) : sign isSign (sgn ++ t) = (sgn, t) := by
  rcases hsgn with rfl | ⟨c, hc, rfl⟩
  · cases t with
    | nil => rfl
    | cons c t =>
      simp only [sign, List.nil_append, ht c rfl]
      rfl
  · simp only [sign, List.cons_append, List.nil_append, hc, if_true]

theorem not_sign_of_isDigit (c : UInt8) (h : isDigit c = true) :
    (decide (c = plus) || decide (c = minus)) = false := by
  have hplus : plus = 43 := rfl
  have hminus : minus = 45 := rfl
  grind [isDigit]

theorem not_digit_of_mark (c : UInt8) (h : isExponentMark c = true) : isDigit c = false ∧ c ≠ dot := by
  have hdot : dot = 46 := rfl
  have hletters : 'e'.toUInt8 = 101 ∧ 'E'.toUInt8 = 69 := ⟨rfl, rfl⟩
  grind [isDigit, isExponentMark]

theorem Digits.head {ds t : Bytes} (hds : Digits ds) : ∀ c ∈ (ds ++ t).head?, isDigit c = true := by
  obtain ⟨hne, hdigits⟩ := hds
  cases ds with
  | nil => exact absurd rfl hne
  | cons d ds =>
    intro c hc
    obtain rfl : d = c := Option.some.inj hc
    exact hdigits d List.mem_cons_self

theorem exponentPart_eq {frac exp r : Bytes} (hexp : exp = [] ∨ ∃ mark sgn ds, isExponentMark mark = true ∧
      (sgn = [] ∨ sgn = [plus] ∨ sgn = [minus]) ∧ Digits ds ∧ exp = mark :: (sgn ++ ds))
      (hr : Follow frac exp r) : exponentPart (exp ++ r) = .ok (exp, r) := by
  rcases hexp with rfl | ⟨mark, sgn, ds, hmark, hsgn, hds, rfl⟩
  · cases r with
    | nil => rfl
    | cons c r =>
      simp only [exponentPart, List.nil_append, (hr c rfl).2.2 rfl]
      rfl
  · have hsign : sign (fun c => c = plus || c = minus) (sgn ++ (ds ++ r)) = (sgn, ds ++ r) := by
      refine sign_eq ?_ fun c hc => not_sign_of_isDigit c (hds.head c hc)
      rcases hsgn with rfl | rfl | rfl
      · exact .inl rfl
      · exact .inr ⟨plus, rfl, rfl⟩
      · exact .inr ⟨minus, rfl, rfl⟩
    have hspan := span_digits hds.2 fun c hc => (hr c hc).1
    obtain ⟨hne, -⟩ := hds
    cases ds with
    | nil => exact absurd rfl hne
    | cons d ds =>
      simp only [exponentPart, List.cons_append, List.append_assoc, hmark, if_true]
      rw [List.cons_append] at hspan hsign
      rw [hsign, hspan]

theorem NumberText.exp_head {sgn int frac exp r : Bytes} (h : NumberText sgn int frac exp)
    (hr : Follow frac exp r) :
    ∀ c ∈ (exp ++ r).head?, isDigit c = false ∧ (frac = [] → c ≠ dot) := by
  intro c hc
  rcases h.exp_eq with rfl | ⟨mark, sgn, ds, hmark, -, -, rfl⟩
  · exact ⟨(hr c hc).1, fun hfrac => (hr c hc).2.1 hfrac rfl⟩
  · obtain rfl : mark = c := Option.some.inj hc
    obtain ⟨hdigit, hdot⟩ := not_digit_of_mark mark hmark
    exact ⟨hdigit, fun _ => hdot⟩

theorem NumberText.frac_head {sgn int frac exp r : Bytes} (h : NumberText sgn int frac exp)
    (hr : Follow frac exp r) :
    ∀ c ∈ (frac ++ (exp ++ r)).head?, isDigit c = false := by
  intro c hc
  rcases h.frac_eq with rfl | ⟨ds, -, rfl⟩
  · exact (h.exp_head hr c hc).1
  · obtain rfl : dot = c := Option.some.inj hc
    rfl

theorem isDigit_of_int {int : Bytes} (hint : int = [zero] ∨ Digits int ∧ int.head? ≠ some zero)
    (t : Bytes) :
    ∀ c ∈ (int ++ t).head?, isDigit c = true := by
  rcases hint with rfl | ⟨hdigits, -⟩
  · intro c hc
    obtain rfl : zero = c := Option.some.inj hc
    rfl
  · exact hdigits.head

theorem NumberText.head {sgn int frac exp : Bytes} (h : NumberText sgn int frac exp) (r : Bytes) :
    ∃ c t, sgn ++ int ++ frac ++ exp ++ r = c :: t ∧ (isDigit c = true ∨ c = minus) := by
  rcases h.sgn_eq with rfl | rfl
  · have hhead := isDigit_of_int h.int_eq (frac ++ (exp ++ r))
    simp only [List.nil_append, List.append_assoc]
    have hne : int ≠ [] := by
      rcases h.int_eq with rfl | ⟨hdigits, -⟩
      · exact List.cons_ne_nil _ _
      · exact hdigits.1
    cases int with
    | nil => exact absurd rfl hne
    | cons c int => exact ⟨c, _, rfl, .inl (hhead c rfl)⟩
  · exact ⟨minus, _, rfl, .inr rfl⟩

theorem parseNumber_eq (stod : Bytes → Option Nat) {sgn int frac exp r : Bytes} {value : Decoded}
    (h : NumberText sgn int frac exp) (hvalue : numberValue stod sgn int frac exp = some value)
    (hr : Follow frac exp r) :
    parseNumber stod (sgn ++ int ++ frac ++ exp ++ r) = .ok (value, r) := by
  have hsolid : Solid (sgn ++ int ++ frac ++ exp ++ r) := by
    obtain ⟨c, t, heq, hc⟩ := h.head r
    rw [heq]
    refine solid_cons ?_
    rcases hc with hc | rfl
    · exact not_space_of_isDigit c hc
    · rfl
  have hsign : sign (fun c => decide (c = minus)) (sgn ++ int ++ frac ++ exp ++ r) =
      (sgn, int ++ (frac ++ (exp ++ r))) := by
    rw [List.append_assoc, List.append_assoc, List.append_assoc]
    refine sign_eq ?_ fun c hc => ?_
    · rcases h.sgn_eq with rfl | rfl
      · exact .inl rfl
      · exact .inr ⟨minus, rfl, rfl⟩
    · have hnot := not_sign_of_isDigit c (isDigit_of_int h.int_eq _ c hc)
      exact (Bool.or_eq_false_iff.mp hnot).2
  rw [parseNumber, ws_eq (blank_refl _) hsolid, hsign]
  simp only [integerPart_eq h.int_eq (h.frac_head hr), fractionPart_eq h.frac_eq (h.exp_head hr),
    exponentPart_eq h.exp_eq hr, bind, Except.bind]
  rw [numberValue] at hvalue
  rw [hvalue]
  rfl

section
variable {stod : Bytes → Option Nat} {unique : Prop}

theorem not_start_of_isDigit (c : UInt8) (h : isDigit c = true ∨ c = minus) :
    isSpace c = false ∧ c ≠ closeBracket ∧ c ≠ closeBrace ∧ c ≠ quote ∧
    ¬ (c = openBrace ∨ c = openBracket) ∧ c ≠ 't'.toUInt8 ∧ c ≠ 'f'.toUInt8 ∧ c ≠ 'n'.toUInt8 := by
  have hminus : minus = 45 := rfl
  have hquote : quote = 34 := rfl
  have hbrackets : openBracket = 91 ∧ closeBracket = 93 := ⟨rfl, rfl⟩
  have hbraces : openBrace = 123 ∧ closeBrace = 125 := ⟨rfl, rfl⟩
  have hletters : 't'.toUInt8 = 116 ∧ 'f'.toUInt8 = 102 ∧ 'n'.toUInt8 = 110 := ⟨rfl, rfl, rfl⟩
  grind [isDigit, isSpace]

theorem Spells.head {n : Nat} {s r : Bytes} {value : Decoded} (h : Spells stod unique n s value r) :
    ∃ c t, s = c :: t ∧ isSpace c = false ∧ c ≠ closeBracket ∧ c ≠ closeBrace := by
  cases h with
  | nullWord => exact ⟨_, _, rfl, by decide⟩
  | trueWord => exact ⟨_, _, rfl, by decide⟩
  | falseWord => exact ⟨_, _, rfl, by decide⟩
  | string _ => exact ⟨_, _, rfl, by decide⟩
  | number htext _ _ =>
    obtain ⟨c, t, heq, hc⟩ := htext.head r
    obtain ⟨hspace, hbracket, hbrace, -⟩ := not_start_of_isDigit c hc
    exact ⟨c, t, heq, hspace, hbracket, hbrace⟩
  | emptyList _ => exact ⟨_, _, rfl, by decide⟩
  | list _ => exact ⟨_, _, rfl, by decide⟩
  | emptyMap _ => exact ⟨_, _, rfl, by decide⟩
  | map _ => exact ⟨_, _, rfl, by decide⟩

theorem Spells.solid {n : Nat} {s r : Bytes} {value : Decoded}
    (h : Spells stod unique n s value r) : Solid s := by
  obtain ⟨c, t, rfl, hspace, -, -⟩ := h.head
  exact solid_cons hspace

theorem NumberText.length_lt {sgn int frac exp : Bytes} (h : NumberText sgn int frac exp) (r : Bytes) :
    r.length < (sgn ++ int ++ frac ++ exp ++ r).length := by
  have hpos : 0 < int.length := by
    rcases h.int_eq with rfl | ⟨⟨hne, -⟩, -⟩
    · exact Nat.one_pos
    · exact List.length_pos_iff.mpr hne
  simp only [List.length_append]
  omega

mutual

theorem Spells.length_lt {n : Nat} {s r : Bytes} {value : Decoded} :
    Spells stod unique n s value r → r.length < s.length
  | .nullWord => by simp only [nullText, List.length_append]; exact Nat.lt_add_of_pos_left (by decide)
  | .trueWord => by simp only [trueText, List.length_append]; exact Nat.lt_add_of_pos_left (by decide)
  | .falseWord => by simp only [falseText, List.length_append]; exact Nat.lt_add_of_pos_left (by decide)
  | .string hbody => Nat.lt_succ_of_lt hbody.length_lt
  | .number htext _ _ => htext.length_lt r
  | .emptyList hclose => Nat.lt_of_lt_of_le (Nat.lt_succ_self _) (Nat.le_succ_of_le hclose.length_le)
  | .list hitems => Nat.lt_succ_of_lt hitems.length_lt
  | .emptyMap hclose => Nat.lt_of_lt_of_le (Nat.lt_succ_self _) (Nat.le_succ_of_le hclose.length_le)
  | .map hmembers => Nat.lt_succ_of_lt hmembers.length_lt

theorem Items.length_lt {n : Nat} {s r : Bytes} {values : List Decoded} :
    Items stod unique n s values r → r.length < s.length
  | .last hblank hvalue hclose => by
    have hle := hblank.length_le
    have hlt := hvalue.length_lt
    have hle' := hclose.length_le
    rw [List.length_cons] at hle'
    omega
  | .more hblank hvalue hcomma hrest => by
    have hle := hblank.length_le
    have hlt := hvalue.length_lt
    have hle' := hcomma.length_le
    have hlt' := hrest.length_lt
    rw [List.length_cons] at hle'
    omega

theorem Members.length_lt {n : Nat} {s r : Bytes} {members : List (Bytes × Decoded)} :
    Members stod unique n s members r → r.length < s.length
  | .last hblank hkey hcolon hblank' hvalue hclose => by
    have hle := hblank.length_le
    have hkeyLt := hkey.length_lt
    have hcolonLe := hcolon.length_le
    have hblankLe := hblank'.length_le
    have hlt := hvalue.length_lt
    have hle' := hclose.length_le
    rw [List.length_cons] at hle hcolonLe hle'
    omega
  | .more hblank hkey hcolon hblank' hvalue hcomma hrest _ => by
    have hle := hblank.length_le
    have hkeyLt := hkey.length_lt
    have hcolonLe := hcolon.length_le
    have hblankLe := hblank'.length_le
    have hlt := hvalue.length_lt
    have hle' := hcomma.length_le
    have hlt' := hrest.length_lt
    rw [List.length_cons] at hle hcolonLe hle'
    omega

end

theorem ws_ws (s : Bytes) : ws (ws s) = ws s := ws_eq (blank_refl _) (solid_ws s)

theorem ws_cons {s r : Bytes} {c : UInt8} (h : Blank s (c :: r)) (hc : isSpace c = false) :
    ws s = c :: r :=
  ws_eq h (solid_cons hc)

mutual

/-- The parser reads what the grammar derives. -/
theorem parseValue_eq {n : Nat} {s r : Bytes} {value : Decoded} :
    Spells stod unique n s value r → ∀ s₀, ws s₀ = s → parseValue stod n s₀ = .ok (value, r)
  | .nullWord => fun s₀ hs => by
    rw [parseValue, hs]
    rfl
  | .trueWord => fun s₀ hs => by
    rw [parseValue, hs]
    rfl
  | .falseWord => fun s₀ hs => by
    rw [parseValue, hs]
    rfl
  | .string (s := s) hbody => fun s₀ hs => by
    rw [parseValue, hs]
    simp only [if_true, parseString_eq (blank_refl _) hbody, bind, Except.bind]
    rfl
  | .number htext hvalue hfollow => fun s₀ hs => by
    obtain ⟨c, t, heq, hc⟩ := htext.head r
    obtain ⟨-, -, -, hquote, hopen, ht, hf, hn⟩ := not_start_of_isDigit c hc
    have hnumber := parseNumber_eq stod htext hvalue hfollow
    rw [heq] at hnumber hs
    rw [parseValue.eq_def, hs]
    have hdiffers {d : UInt8} (text : Bytes) (hne : c ≠ d) : ¬ (d :: text) <+: c :: t := fun hp =>
      hne (List.cons_prefix_cons.mp hp).1.symm
    simp only [if_neg hquote, if_neg hopen, trueText, falseText, nullText, List.map_cons,
      if_neg (hdiffers _ ht), if_neg (hdiffers _ hf), if_neg (hdiffers _ hn), hnumber]
  | .emptyList hclose => fun s₀ hs => by
    rw [parseValue, hs]
    simp only [if_neg (show openBracket ≠ quote by decide), or_true, if_true,
      if_neg (show openBracket ≠ openBrace by decide), parseArray, ws_cons hclose (by decide)]
  | .list (s := s) hitems => fun s₀ hs => by
    have hloop := itemsLoop_eq hitems (ws s) (ws_ws s) (ws s).length (Nat.le_refl _)
    obtain ⟨c, t, hc, hbracket⟩ : ∃ c t, ws s = c :: t ∧ c ≠ closeBracket := by
      cases hitems with
      | last hblank hvalue _ =>
        obtain ⟨c, t, rfl, hspace, hbracket, -⟩ := hvalue.head
        exact ⟨c, t, ws_cons hblank hspace, hbracket⟩
      | more hblank hvalue _ _ =>
        obtain ⟨c, t, rfl, hspace, hbracket, -⟩ := hvalue.head
        exact ⟨c, t, ws_cons hblank hspace, hbracket⟩
    rw [hc] at hloop
    rw [parseValue, hs]
    simp only [if_neg (show openBracket ≠ quote by decide), or_true, if_true,
      if_neg (show openBracket ≠ openBrace by decide), parseArray, hc, if_neg hbracket, hloop, bind,
      Except.bind]
    rfl
  | .emptyMap hclose => fun s₀ hs => by
    rw [parseValue, hs]
    simp only [if_neg (show openBrace ≠ quote by decide), true_or, if_true, parseObject,
      ws_cons hclose (by decide)]
  | .map (s := s) hmembers => fun s₀ hs => by
    have hloop := membersLoop_eq hmembers (ws s) (ws_ws s) (ws s).length (Nat.le_refl _)
    obtain ⟨t, hc⟩ : ∃ t, ws s = quote :: t := by
      cases hmembers with
      | last hblank => exact ⟨_, ws_cons hblank (by decide)⟩
      | more hblank => exact ⟨_, ws_cons hblank (by decide)⟩
    rw [hc] at hloop
    rw [parseValue, hs]
    simp only [if_neg (show openBrace ≠ quote by decide), true_or, if_true, parseObject, hc,
      if_neg (show quote ≠ closeBrace by decide), hloop, bind, Except.bind]
    rfl

theorem itemsLoop_eq {n : Nat} {s r : Bytes} {values : List Decoded} : Items stod unique n s values r →
    ∀ s₀, ws s₀ = ws s → ∀ fuel, s₀.length ≤ fuel →
    itemsLoop (parseValue stod n) fuel s₀ = .ok (values, r)
  | .last hblank hvalue hclose => fun s₀ hs fuel hfuel => by
    have hs₁ := ws_eq hblank hvalue.solid
    have hparse := parseValue_eq hvalue s₀ (hs.trans hs₁)
    obtain _ | fuel := fuel
    · obtain ⟨c, t, rfl, -⟩ := hvalue.head
      rw [List.eq_nil_of_length_eq_zero (Nat.le_zero.mp hfuel)] at hs
      cases hs.trans hs₁
    · simp only [itemsLoop, hparse, bind, Except.bind, ws_cons hclose (by decide), if_true]
      rfl
  | @Items.more _ _ _ _ _ _ s₃ _ _ _ hblank hvalue hcomma hrest => fun s₀ hs fuel hfuel => by
    have hs₁ := ws_eq hblank hvalue.solid
    have hparse := parseValue_eq hvalue s₀ (hs.trans hs₁)
    obtain _ | fuel := fuel
    · obtain ⟨c, t, rfl, -⟩ := hvalue.head
      rw [List.eq_nil_of_length_eq_zero (Nat.le_zero.mp hfuel)] at hs
      cases hs.trans hs₁
    · obtain ⟨d, t, hd, hbracket⟩ : ∃ d t, ws s₃ = d :: t ∧ d ≠ closeBracket := by
        cases hrest with
        | last hblank hvalue _ =>
          obtain ⟨d, t, rfl, hspace, hbracket, -⟩ := hvalue.head
          exact ⟨d, t, ws_cons hblank hspace, hbracket⟩
        | more hblank hvalue _ _ =>
          obtain ⟨d, t, rfl, hspace, hbracket, -⟩ := hvalue.head
          exact ⟨d, t, ws_cons hblank hspace, hbracket⟩
      have hlength : (ws s₃).length ≤ fuel := by
        have hle₀ := (blank_ws s₀).length_le
        rw [hs.trans hs₁] at hle₀
        have hlt := hvalue.length_lt
        have hle := hcomma.length_le
        have hle₃ := (blank_ws s₃).length_le
        rw [List.length_cons] at hle
        omega
      have hloop := itemsLoop_eq hrest (ws s₃) (ws_ws s₃) fuel hlength
      rw [hd] at hloop
      simp only [itemsLoop, hparse, bind, Except.bind, ws_cons hcomma (by decide),
        if_neg (show comma ≠ closeBracket by decide), if_true, hd, if_neg hbracket, hloop]
      rfl

theorem membersLoop_eq {n : Nat} {s r : Bytes} {members : List (Bytes × Decoded)} :
    Members stod unique n s members r → ∀ s₀, ws s₀ = ws s → ∀ fuel, s₀.length ≤ fuel →
    membersLoop (parseValue stod n) fuel s₀ = .ok (members, r)
  | .last hblank hkey hcolon hblank' hvalue hclose => fun s₀ hs fuel hfuel => by
    have hs₁ := hs.trans (ws_cons hblank (by decide))
    have hparse := parseValue_eq hvalue _ (ws_eq hblank' hvalue.solid)
    obtain _ | fuel := fuel
    · rw [List.eq_nil_of_length_eq_zero (Nat.le_zero.mp hfuel)] at hs₁
      cases hs₁
    · simp only [membersLoop, hs₁, ne_eq, not_true_eq_false, if_false,
        parseString_eq (blank_refl _) hkey, bind, Except.bind, ws_cons hcolon (by decide), hparse,
        ws_cons hclose (by decide), if_true]
      rfl
  | @Members.more _ _ _ _ _ _ _ _ _ s₆ _ _ _ _ hblank hkey hcolon hblank' hvalue hcomma hrest _ =>
      fun s₀ hs fuel hfuel => by
    have hs₁ := hs.trans (ws_cons hblank (by decide))
    have hparse := parseValue_eq hvalue _ (ws_eq hblank' hvalue.solid)
    obtain _ | fuel := fuel
    · rw [List.eq_nil_of_length_eq_zero (Nat.le_zero.mp hfuel)] at hs₁
      cases hs₁
    · obtain ⟨t, hd⟩ : ∃ t, ws s₆ = quote :: t := by
        cases hrest with
        | last hblank => exact ⟨_, ws_cons hblank (by decide)⟩
        | more hblank => exact ⟨_, ws_cons hblank (by decide)⟩
      have hlength : (ws s₆).length ≤ fuel := by
        have hle₀ := (blank_ws s₀).length_le
        rw [hs₁] at hle₀
        have hkeyLt := hkey.length_lt
        have hcolonLe := hcolon.length_le
        have hblankLe := hblank'.length_le
        have hlt := hvalue.length_lt
        have hle := hcomma.length_le
        have hle₆ := (blank_ws s₆).length_le
        rw [List.length_cons] at hle hcolonLe hle₀
        omega
      have hloop := membersLoop_eq hrest (ws s₆) (ws_ws s₆) fuel hlength
      rw [hd] at hloop
      simp only [membersLoop, hs₁, ne_eq, not_true_eq_false, if_false,
        parseString_eq (blank_refl _) hkey, bind, Except.bind, ws_cons hcolon (by decide), hparse,
        ws_cons hcomma (by decide), if_neg (show comma ≠ closeBrace by decide), if_true, hd,
        if_neg (show quote ≠ closeBrace by decide), hloop]
      rfl

end

/-- `Serialize.decode` accepts a text of the grammar. -/
theorem serializeDecode_eq {s : Bytes} {value : Decoded} (h : Text stod unique kMaxNestingDepth s value) :
    serializeDecode stod s = .ok value := by
  obtain ⟨s₁, s₂, hblank, hspells, hend⟩ := h
  have hparse := parseValue_eq hspells s (ws_eq hblank hspells.solid)
  have hws : ws s₂ = [] := ws_eq hend nofun
  simp only [serializeDecode, hparse, bind, Except.bind, hws]
  rfl

end

end zl.vm.json
