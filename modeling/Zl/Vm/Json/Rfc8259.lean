import Zl.Vm.Json.Accepted
import Zl.Vm.Json.Encode
import Zl.Vm.Native.Utf8

open zl.collections

namespace zl.vm.json

/-- Space, tab, line feed and carriage return. -/
def isWs (c : UInt8) : Bool := c = 0x20 || c = 0x09 || c = 0x0A || c = 0x0D

/-- What a backslash and one more byte stand for. -/
def escapes : List (UInt8 × UInt8) :=
  [('"'.toUInt8, 0x22), ('\\'.toUInt8, 0x5C), ('/'.toUInt8, 0x2F), ('b'.toUInt8, 0x08), ('f'.toUInt8, 0x0C),
    ('n'.toUInt8, 0x0A), ('r'.toUInt8, 0x0D), ('t'.toUInt8, 0x09)]

/-- Four hexadecimal digits and nothing else. -/
inductive FourHex : Bytes → Nat → Prop
  | intro {a b c d : UInt8} {w x y z : Nat} (ha : hexDigit a = some w) (hb : hexDigit b = some x)
      (hc : hexDigit c = some y) (hd : hexDigit d = some z) :
    FourHex [a, b, c, d] (((w * 16 + x) * 16 + y) * 16 + z)

/-- What stands between the quotes of a string, and the bytes it denotes. -/
inductive Chars : Bytes → Bytes → Prop
  | nil : Chars [] []
  | unescaped {c : UInt8} {s out : Bytes} (hcontrol : 0x20 ≤ c) (hquote : c ≠ quote) (hescape : c ≠ backslash)
      (hrest : Chars s out) : Chars (c :: s) (c :: out)
  | escape {e b : UInt8} {s out : Bytes} (he : (e, b) ∈ escapes) (hrest : Chars s out) :
    Chars (backslash :: e :: s) (b :: out)
  | unicode {hex s out : Bytes} {c : Char} (hhex : FourHex hex c.toNat) (hrest : Chars s out) :
    Chars (backslash :: 'u'.toUInt8 :: (hex ++ s)) (String.utf8EncodeChar c ++ out)
  | surrogates {hex hex' s out : Bytes} {high low : Nat} {c : Char} (hhex : FourHex hex high)
      (hhex' : FourHex hex' low) (hhigh : 0xD800 ≤ high ∧ high ≤ 0xDBFF) (hlow : 0xDC00 ≤ low ∧ low ≤ 0xDFFF)
      (hc : c.toNat = 0x10000 + (high - 0xD800) * 0x400 + (low - 0xDC00)) (hrest : Chars s out) :
    Chars (backslash :: 'u'.toUInt8 :: (hex ++ backslash :: 'u'.toUInt8 :: (hex' ++ s)))
      (String.utf8EncodeChar c ++ out)

section
variable (space : UInt8 → Bool) (stod : Bytes → Option Nat)

def Ws (w : Bytes) : Prop := ∀ c ∈ w, space c = true

mutual

/-- The text of a value with arrays and objects nested at most `n` deep, and the value it denotes. -/
inductive ValueText : Nat → Bytes → Decoded → Prop
  | nullWord {n : Nat} : ValueText n nullText .nil
  | trueWord {n : Nat} : ValueText n trueText (.bool true)
  | falseWord {n : Nat} : ValueText n falseText (.bool false)
  | string {n : Nat} {body out : Bytes} (hbody : Chars body out) :
      ValueText n (quote :: (body ++ [quote])) (.string out)
  | number {n : Nat} {sgn int frac exp : Bytes} {value : Decoded} (htext : NumberText sgn int frac exp)
      (hvalue : numberValue stod sgn int frac exp = some value) :
      ValueText n (sgn ++ int ++ frac ++ exp) value
  | emptyArray {n : Nat} {w : Bytes} (hw : Ws space w) :
      ValueText (n + 1) (openBracket :: (w ++ [closeBracket])) (.list [])
  | array {n : Nat} {s : Bytes} {values : List Decoded} (helements : ElementsText n s values) :
      ValueText (n + 1) (openBracket :: (s ++ [closeBracket])) (.list values)
  | emptyObject {n : Nat} {w : Bytes} (hw : Ws space w) :
      ValueText (n + 1) (openBrace :: (w ++ [closeBrace])) (.map [])
  | object {n : Nat} {s : Bytes} {members : List (Bytes × Decoded)} (hmembers : MembersText n s members) :
      ValueText (n + 1) (openBrace :: (s ++ [closeBrace])) (.map members)

/-- The values of an array, separated by commas. -/
inductive ElementsText : Nat → Bytes → List Decoded → Prop
  | one {n : Nat} {w s w' : Bytes} {value : Decoded} (hw : Ws space w) (hvalue : ValueText n s value)
      (hw' : Ws space w') : ElementsText n (w ++ (s ++ w')) [value]
  | more {n : Nat} {w s w' rest : Bytes} {value : Decoded} {values : List Decoded} (hw : Ws space w)
      (hvalue : ValueText n s value) (hw' : Ws space w') (hrest : ElementsText n rest values) :
      ElementsText n (w ++ (s ++ (w' ++ comma :: rest))) (value :: values)

/-- The members of an object, separated by commas. -/
inductive MembersText : Nat → Bytes → List (Bytes × Decoded) → Prop
  | one {n : Nat} {w body key w₁ w₂ s w' : Bytes} {value : Decoded} (hw : Ws space w) (hbody : Chars body key)
      (hw₁ : Ws space w₁) (hw₂ : Ws space w₂) (hvalue : ValueText n s value) (hw' : Ws space w') :
      MembersText n (w ++ quote :: (body ++ quote :: (w₁ ++ colon :: (w₂ ++ (s ++ w'))))) [(key, value)]
  | more {n : Nat} {w body key w₁ w₂ s w' rest : Bytes} {value : Decoded} {members : List (Bytes × Decoded)}
      (hw : Ws space w) (hbody : Chars body key) (hw₁ : Ws space w₁) (hw₂ : Ws space w₂)
      (hvalue : ValueText n s value) (hw' : Ws space w') (hrest : MembersText n rest members) :
      MembersText n (w ++ quote :: (body ++ quote :: (w₁ ++ colon :: (w₂ ++ (s ++ (w' ++ comma :: rest))))))
        ((key, value) :: members)

end

/-- A JSON text, where arrays and objects may be nested `n` deep. `space` says what is white space. -/
def JsonText (n : Nat) (s : Bytes) (value : Decoded) : Prop :=
  ∃ w t w', Ws space w ∧ ValueText space stod n t value ∧ Ws space w' ∧ s = w ++ (t ++ w')

end

/-- `std::strtod` on the text of a number: the nearest double, and whether `errno` is set to `ERANGE`.
    A number too large for any double is infinite and sets it. -/
structure Strtod where
  convert : Bytes → Nat × Bool
  overflow : ∀ n, isFinite (convert n).1 = false → (convert n).2 = true

namespace Strtod
variable (lib : Strtod)

/-- `std::stod` throws if `errno` was set. -/
def stod (n : Bytes) : Option Nat := if (lib.convert n).2 then none else some (lib.convert n).1

/-- The double a number denotes, if that is finite. -/
def finite (n : Bytes) : Option Nat := if isFinite (lib.convert n).1 then some (lib.convert n).1 else none

end Strtod

theorem appendUtf8_toNat (c : Char) : appendUtf8 c.toNat = String.utf8EncodeChar c := by
  rw [native.strings.utf8EncodeChar_eq, appendUtf8]
  simp only [native.strings.tailByte, Nat.add_comm]

theorem exists_char {cp : Nat} (hmax : cp ≤ 0x10FFFF) (hplane : ¬ (0xD800 ≤ cp ∧ cp ≤ 0xDFFF)) :
    ∃ c : Char, c.toNat = cp := by
  have hvalid : cp.isValidChar := by
    unfold Nat.isValidChar
    omega
  exact ⟨Char.ofNatAux cp hvalid, rfl⟩

theorem mem_escapes {e b : UInt8} : (e, b) ∈ escapes ↔ simpleEscape e = some b := by
  have hlist : ∀ e : UInt8,
      (escapes.filterMap fun p => if p.1 = e then some p.2 else none) = (simpleEscape e).toList :=
    forall_byte (by decide +kernel)
  have hmem : b ∈ (escapes.filterMap fun p => if p.1 = e then some p.2 else none) ↔ (e, b) ∈ escapes := by
    simp only [List.mem_filterMap, Option.ite_none_right_eq_some, Option.some.injEq, Prod.exists]
    constructor
    · rintro ⟨_, _, hp, rfl, rfl⟩
      exact hp
    · exact fun hp => ⟨e, b, hp, rfl, rfl⟩
  rw [← hmem, hlist, Option.mem_toList]

theorem FourHex.hex4 {hex : Bytes} {cp : Nat} (h : FourHex hex cp) (s : Bytes) : Hex4 (hex ++ s) cp s := by
  obtain ⟨ha, hb, hc, hd⟩ := h
  exact .intro ha hb hc hd

theorem Hex4.fourHex {s r : Bytes} {cp : Nat} (h : Hex4 s cp r) : ∃ hex, s = hex ++ r ∧ FourHex hex cp := by
  obtain ⟨ha, hb, hc, hd⟩ := h
  exact ⟨_, rfl, .intro ha hb hc hd⟩

theorem hexDigit_lt (c : UInt8) : ∀ d ∈ hexDigit c, d < 16 := by
  unfold hexDigit
  have hbytes : '9'.toUInt8.toNat = 57 ∧ 'f'.toUInt8.toNat = 102 ∧ 'F'.toUInt8.toNat = 70 := ⟨rfl, rfl, rfl⟩
  simp only [UInt8.le_iff_toNat_le, hbytes]
  intro d hd
  split at hd
  · obtain rfl := Option.some.inj hd
    omega
  split at hd
  · obtain rfl := Option.some.inj hd
    omega
  split at hd
  · obtain rfl := Option.some.inj hd
    omega
  · cases hd

theorem Hex4.lt {s r : Bytes} {cp : Nat} (h : Hex4 s cp r) : cp < 0x10000 := by
  obtain ⟨ha, hb, hc, hd⟩ := h
  have ha := hexDigit_lt _ _ ha
  have hb := hexDigit_lt _ _ hb
  have hc := hexDigit_lt _ _ hc
  have hd := hexDigit_lt _ _ hd
  omega

theorem Chars.stringBody {body out : Bytes} (h : Chars body out) (r : Bytes) :
    StringBody (body ++ quote :: r) out r := by
  induction h with
  | nil => exact .close
  | unescaped hcontrol hquote hescape _ ih => exact .raw hquote (UInt8.not_lt.mpr hcontrol) hescape ih
  | escape he _ ih => exact .escape (mem_escapes.mp he) ih
  | @unicode hex s out c hhex _ ih =>
    have hrange := native.strings.scalar_range c
    have hcp := hhex.hex4 (s ++ quote :: r)
    rw [← appendUtf8_toNat, List.cons_append, List.cons_append, List.append_assoc]
    exact .unicode hcp (by omega) ih
  | @surrogates hex hex' s out high low c hhex hhex' hhigh hlow hc _ ih =>
    have hhi := hhex.hex4 (backslash :: 'u'.toUInt8 :: (hex' ++ (s ++ quote :: r)))
    have hlo := hhex'.hex4 (s ++ quote :: r)
    rw [← appendUtf8_toNat, hc]
    simp only [List.cons_append, List.append_assoc]
    exact .surrogates hhi hlo hhigh hlow ih

theorem StringBody.chars {s out r : Bytes} (h : StringBody s out r) :
    ∃ body, s = body ++ quote :: r ∧ Chars body out := by
  induction h with
  | close => exact ⟨[], rfl, .nil⟩
  | raw hquote hcontrol hescape _ ih =>
    obtain ⟨body, rfl, hbody⟩ := ih
    exact ⟨_ :: body, rfl, .unescaped (UInt8.not_lt.mp hcontrol) hquote hescape hbody⟩
  | escape he _ ih =>
    obtain ⟨body, rfl, hbody⟩ := ih
    exact ⟨backslash :: _ :: body, rfl, .escape (mem_escapes.mpr he) hbody⟩
  | unicode hcp hplane _ ih =>
    obtain ⟨body, rfl, hbody⟩ := ih
    obtain ⟨c, rfl⟩ := exists_char (by have := hcp.lt; omega) hplane
    obtain ⟨hex, rfl, hhex⟩ := hcp.fourHex
    rw [appendUtf8_toNat]
    exact ⟨_, by simp, .unicode hhex hbody⟩
  | @surrogates high low s s' s'' out r hhigh hlow hhighRange hlowRange _ ih =>
    obtain ⟨body, rfl, hbody⟩ := ih
    obtain ⟨c, hc⟩ : ∃ c : Char, c.toNat = 0x10000 + (high - 0xD800) * 0x400 + (low - 0xDC00) :=
      exists_char (by omega) (by omega)
    obtain ⟨hex, rfl, hhex⟩ := hhigh.fourHex
    obtain ⟨hex', rfl, hhex'⟩ := hlow.fourHex
    rw [← hc, appendUtf8_toNat]
    exact ⟨_, by simp, .surrogates hhex hhex' hhighRange hlowRange hc hbody⟩

/-- What may stand behind a number. -/
def Ends (r : Bytes) : Prop := ∀ c ∈ r.head?, isDigit c = false ∧ c ≠ dot ∧ isExponentMark c = false

theorem Ends.follow {r : Bytes} (h : Ends r) (frac exp : Bytes) : Follow frac exp r := by
  intro c hc
  obtain ⟨hdigit, hdot, hmark⟩ := h c hc
  exact ⟨hdigit, fun _ _ => hdot, fun _ => hmark⟩

theorem ends_cons {c : UInt8} (r : Bytes) (hc : isDigit c = false ∧ c ≠ dot ∧ isExponentMark c = false) :
    Ends (c :: r) := fun _ hd => Option.some.inj hd ▸ hc

theorem ends_space (c : UInt8) (h : isSpace c = true) :
    isDigit c = false ∧ c ≠ dot ∧ isExponentMark c = false := by
  have hdot : dot = 46 := rfl
  have hletters : 'e'.toUInt8 = 101 ∧ 'E'.toUInt8 = 69 := ⟨rfl, rfl⟩
  grind [isDigit, isSpace, isExponentMark]

theorem Ws.ends {w r : Bytes} (hw : Ws isSpace w) (hr : Ends r) : Ends (w ++ r) := by
  cases w with
  | nil => exact hr
  | cons c w => exact ends_cons _ (ends_space c (hw c List.mem_cons_self))

theorem Ws.blank {w : Bytes} (hw : Ws isSpace w) (r : Bytes) : Blank (w ++ r) r := ⟨w, hw, rfl⟩

section
variable {stod : Bytes → Option Nat}

mutual

theorem ValueText.spells {n : Nat} {t : Bytes} {value : Decoded} :
    ValueText isSpace stod n t value → ∀ r, Ends r → Spells stod False n (t ++ r) value r
  | .nullWord => fun _ _ => .nullWord
  | .trueWord => fun _ _ => .trueWord
  | .falseWord => fun _ _ => .falseWord
  | .string hbody => fun r _ => by
    rw [List.cons_append, List.append_assoc]
    exact .string (hbody.stringBody r)
  | .number htext hvalue => fun _ hr => .number htext hvalue (hr.follow _ _)
  | .emptyArray hw => fun r _ => by
    rw [List.cons_append, List.append_assoc]
    exact .emptyList (hw.blank _)
  | .array helements => fun r _ => by
    rw [List.cons_append, List.append_assoc]
    exact .list (helements.items r)
  | .emptyObject hw => fun r _ => by
    rw [List.cons_append, List.append_assoc]
    exact .emptyMap (hw.blank _)
  | .object hmembers => fun r _ => by
    rw [List.cons_append, List.append_assoc]
    exact .map (hmembers.members r)

theorem ElementsText.items {n : Nat} {t : Bytes} {values : List Decoded} :
    ElementsText isSpace stod n t values → ∀ r, Items stod False n (t ++ closeBracket :: r) values r
  | .one hw hvalue hw' => fun r => by
    simp only [List.append_assoc]
    exact .last (hw.blank _) (hvalue.spells _ (hw'.ends (ends_cons r (by decide)))) (hw'.blank _)
  | .more hw hvalue hw' hrest => fun r => by
    simp only [List.append_assoc, List.cons_append]
    exact .more (hw.blank _) (hvalue.spells _ (hw'.ends (ends_cons _ (by decide)))) (hw'.blank _)
      (hrest.items r)

theorem MembersText.members {n : Nat} {t : Bytes} {members : List (Bytes × Decoded)} :
    MembersText isSpace stod n t members → ∀ r, Members stod False n (t ++ closeBrace :: r) members r
  | .one hw hbody hw₁ hw₂ hvalue hw' => fun r => by
    simp only [List.append_assoc, List.cons_append]
    exact .last (hw.blank _) (hbody.stringBody _) (hw₁.blank _) (hw₂.blank _)
      (hvalue.spells _ (hw'.ends (ends_cons r (by decide)))) (hw'.blank _)
  | .more hw hbody hw₁ hw₂ hvalue hw' hrest => fun r => by
    simp only [List.append_assoc, List.cons_append]
    exact .more (hw.blank _) (hbody.stringBody _) (hw₁.blank _) (hw₂.blank _)
      (hvalue.spells _ (hw'.ends (ends_cons _ (by decide)))) (hw'.blank _) (hrest.members r) nofun

end

mutual

theorem Spells.valueText {n : Nat} {s r : Bytes} {value : Decoded} :
    Spells stod False n s value r → ∃ t, s = t ++ r ∧ ValueText isSpace stod n t value
  | .nullWord => ⟨_, rfl, .nullWord⟩
  | .trueWord => ⟨_, rfl, .trueWord⟩
  | .falseWord => ⟨_, rfl, .falseWord⟩
  | .string hbody => by
    obtain ⟨body, rfl, hchars⟩ := hbody.chars
    exact ⟨_, by simp, .string hchars⟩
  | .number htext hvalue _ => ⟨_, rfl, .number htext hvalue⟩
  | .emptyList hclose => by
    obtain ⟨w, hw, rfl⟩ := hclose
    exact ⟨_, by simp, .emptyArray hw⟩
  | .list hitems => by
    obtain ⟨t, rfl, helements⟩ := hitems.elementsText
    exact ⟨_, by simp, .array helements⟩
  | .emptyMap hclose => by
    obtain ⟨w, hw, rfl⟩ := hclose
    exact ⟨_, by simp, .emptyObject hw⟩
  | .map hmembers => by
    obtain ⟨t, rfl, htext⟩ := hmembers.membersText
    exact ⟨_, by simp, .object htext⟩

theorem Items.elementsText {n : Nat} {s r : Bytes} {values : List Decoded} :
    Items stod False n s values r → ∃ t, s = t ++ closeBracket :: r ∧ ElementsText isSpace stod n t values
  | .last hblank hvalue hclose => by
    obtain ⟨w, hw, rfl⟩ := hblank
    obtain ⟨t, rfl, htext⟩ := hvalue.valueText
    obtain ⟨w', hw', rfl⟩ := hclose
    exact ⟨_, by simp, .one hw htext hw'⟩
  | .more hblank hvalue hcomma hrest => by
    obtain ⟨w, hw, rfl⟩ := hblank
    obtain ⟨t, rfl, htext⟩ := hvalue.valueText
    obtain ⟨w', hw', rfl⟩ := hcomma
    obtain ⟨rest, rfl, helements⟩ := hrest.elementsText
    exact ⟨_, by simp, .more hw htext hw' helements⟩

theorem Members.membersText {n : Nat} {s r : Bytes} {members : List (Bytes × Decoded)} :
    Members stod False n s members r → ∃ t, s = t ++ closeBrace :: r ∧ MembersText isSpace stod n t members
  | .last hblank hkey hcolon hblank' hvalue hclose => by
    obtain ⟨w, hw, rfl⟩ := hblank
    obtain ⟨body, rfl, hbody⟩ := hkey.chars
    obtain ⟨w₁, hw₁, rfl⟩ := hcolon
    obtain ⟨w₂, hw₂, rfl⟩ := hblank'
    obtain ⟨t, rfl, htext⟩ := hvalue.valueText
    obtain ⟨w', hw', rfl⟩ := hclose
    exact ⟨_, by simp, .one hw hbody hw₁ hw₂ htext hw'⟩
  | .more hblank hkey hcolon hblank' hvalue hcomma hrest _ => by
    obtain ⟨w, hw, rfl⟩ := hblank
    obtain ⟨body, rfl, hbody⟩ := hkey.chars
    obtain ⟨w₁, hw₁, rfl⟩ := hcolon
    obtain ⟨w₂, hw₂, rfl⟩ := hblank'
    obtain ⟨t, rfl, htext⟩ := hvalue.valueText
    obtain ⟨w', hw', rfl⟩ := hcomma
    obtain ⟨rest, rfl, hmembers⟩ := hrest.membersText
    exact ⟨_, by simp, .more hw hbody hw₁ hw₂ htext hw' hmembers⟩

end

theorem text_iff_jsonText {n : Nat} {s : Bytes} {value : Decoded} :
    Text stod False n s value ↔ JsonText isSpace stod n s value := by
  constructor
  · rintro ⟨s₁, s₂, ⟨w, hw, rfl⟩, hspells, w', hw', rfl⟩
    obtain ⟨t, rfl, hvalue⟩ := hspells.valueText
    exact ⟨w, t, w', hw, hvalue, hw', by simp⟩
  · rintro ⟨w, t, w', hw, hvalue, hw', rfl⟩
    have hends : Ends w' := by simpa using hw'.ends (r := []) nofun
    exact ⟨t ++ w', w', hw.blank _, hvalue.spells _ hends, w', hw', by simp⟩

theorem serializeDecode_iff {s : Bytes} {value : Decoded} :
    serializeDecode stod s = .ok value ↔ JsonText isSpace stod kMaxNestingDepth s value :=
  ⟨fun h => text_iff_jsonText.mp (serializeDecode_sound h nofun),
    fun h => serializeDecode_eq (text_iff_jsonText.mpr h)⟩

end

section
variable {space space' : UInt8 → Bool} {stod stod' : Bytes → Option Nat}
variable {value : Decoded}

theorem numberValue_mono (hstod : ∀ n bits, stod n = some bits → stod' n = some bits)
    {sgn int frac exp : Bytes} (h : numberValue stod sgn int frac exp = some value) :
    numberValue stod' sgn int frac exp = some value := by
  unfold numberValue at h ⊢
  split at h
  · next hdouble =>
    obtain ⟨bits, hbits, rfl⟩ := Option.map_eq_some_iff.mp h
    rw [if_pos hdouble, hstod _ _ hbits]
    rfl
  · next hint =>
    rw [if_neg hint]
    exact h

theorem Ws.mono {w : Bytes} (hw : Ws space w) (h : ∀ c ∈ w, space c = true → space' c = true) : Ws space' w :=
  fun c hc => h c hc (hw c hc)

mutual

theorem ValueText.mono (hstod : ∀ n bits, stod n = some bits → stod' n = some bits) {n : Nat} {t : Bytes}
    {value : Decoded} : ValueText space stod n t value → (∀ c ∈ t, space c = true → space' c = true) →
    ValueText space' stod' n t value
  | .nullWord => fun _ => .nullWord
  | .trueWord => fun _ => .trueWord
  | .falseWord => fun _ => .falseWord
  | .string hbody => fun _ => .string hbody
  | .number htext hvalue => fun _ => .number htext (numberValue_mono hstod hvalue)
  | .emptyArray hw => fun h => .emptyArray (hw.mono fun c hc => h c (by simp [hc]))
  | .array helements => fun h => .array (helements.mono hstod fun c hc => h c (by simp [hc]))
  | .emptyObject hw => fun h => .emptyObject (hw.mono fun c hc => h c (by simp [hc]))
  | .object hmembers => fun h => .object (hmembers.mono hstod fun c hc => h c (by simp [hc]))

theorem ElementsText.mono (hstod : ∀ n bits, stod n = some bits → stod' n = some bits) {n : Nat} {t : Bytes}
    {values : List Decoded} : ElementsText space stod n t values →
    (∀ c ∈ t, space c = true → space' c = true) → ElementsText space' stod' n t values
  | .one hw hvalue hw' => fun h => .one (hw.mono fun c hc => h c (by simp [hc]))
      (hvalue.mono hstod fun c hc => h c (by simp [hc])) (hw'.mono fun c hc => h c (by simp [hc]))
  | .more hw hvalue hw' hrest => fun h => .more (hw.mono fun c hc => h c (by simp [hc]))
      (hvalue.mono hstod fun c hc => h c (by simp [hc])) (hw'.mono fun c hc => h c (by simp [hc]))
      (hrest.mono hstod fun c hc => h c (by simp [hc]))

theorem MembersText.mono (hstod : ∀ n bits, stod n = some bits → stod' n = some bits) {n : Nat} {t : Bytes}
    {members : List (Bytes × Decoded)} : MembersText space stod n t members →
    (∀ c ∈ t, space c = true → space' c = true) → MembersText space' stod' n t members
  | .one hw hbody hw₁ hw₂ hvalue hw' => fun h => .one (hw.mono fun c hc => h c (by simp [hc])) hbody
      (hw₁.mono fun c hc => h c (by simp [hc])) (hw₂.mono fun c hc => h c (by simp [hc]))
      (hvalue.mono hstod fun c hc => h c (by simp [hc])) (hw'.mono fun c hc => h c (by simp [hc]))
  | .more hw hbody hw₁ hw₂ hvalue hw' hrest => fun h => .more (hw.mono fun c hc => h c (by simp [hc])) hbody
      (hw₁.mono fun c hc => h c (by simp [hc])) (hw₂.mono fun c hc => h c (by simp [hc]))
      (hvalue.mono hstod fun c hc => h c (by simp [hc])) (hw'.mono fun c hc => h c (by simp [hc]))
      (hrest.mono hstod fun c hc => h c (by simp [hc]))

end

theorem JsonText.mono (hstod : ∀ n bits, stod n = some bits → stod' n = some bits) {n : Nat}
    {s : Bytes} (h : JsonText space stod n s value) (hspace : ∀ c ∈ s, space c = true → space' c = true) :
    JsonText space' stod' n s value := by
  obtain ⟨w, t, w', hw, hvalue, hw', rfl⟩ := h
  exact ⟨w, t, w', hw.mono fun c hc => hspace c (by simp [hc]),
    hvalue.mono hstod fun c hc => hspace c (by simp [hc]),
    hw'.mono fun c hc => hspace c (by simp [hc]), rfl⟩

/-- The byte is white space or no control character. -/
def Plain (space : UInt8 → Bool) (c : UInt8) : Prop := 0x20 ≤ c ∨ space c = true

theorem forall_ge {l : Bytes} (h : (l.all fun c => 0x20 ≤ c) = true) : ∀ c ∈ l, 0x20 ≤ c :=
  List.all_iff_forall_prop.mp h

theorem numeral_ge : ∀ c, isDigit c = true ∨ (hexDigit c).isSome = true ∨ isExponentMark c = true →
    0x20 ≤ c :=
  forall_byte (by decide +kernel)

theorem FourHex.ge {hex : Bytes} {cp : Nat} (h : FourHex hex cp) : ∀ c ∈ hex, 0x20 ≤ c := by
  have hdigit : ∀ c, (hexDigit c).isSome = true → 0x20 ≤ c := fun c h => numeral_ge c (.inr (.inl h))
  obtain ⟨ha, hb, hc, hd⟩ := h
  simp only [List.mem_cons, List.not_mem_nil, or_false]
  rintro c (rfl | rfl | rfl | rfl)
  · exact hdigit _ (by rw [ha]; rfl)
  · exact hdigit _ (by rw [hb]; rfl)
  · exact hdigit _ (by rw [hc]; rfl)
  · exact hdigit _ (by rw [hd]; rfl)

theorem Chars.ge {body out : Bytes} (h : Chars body out) : ∀ c ∈ body, 0x20 ≤ c := by
  have hbackslash : (0x20 : UInt8) ≤ backslash := by decide
  have hu : (0x20 : UInt8) ≤ 'u'.toUInt8 := by decide
  induction h with
  | nil => simp
  | unescaped hcontrol _ _ _ ih => exact List.forall_mem_cons.mpr ⟨hcontrol, ih⟩
  | @escape e b s out he _ ih =>
    have hescape : (escapes.all fun p => 0x20 ≤ p.1) = true := by decide
    have hge : 0x20 ≤ e := List.all_iff_forall_prop.mp hescape _ he
    exact List.forall_mem_cons.mpr ⟨hbackslash, List.forall_mem_cons.mpr ⟨hge, ih⟩⟩
  | unicode hhex _ ih =>
    simp only [List.forall_mem_cons, List.forall_mem_append]
    exact ⟨hbackslash, hu, hhex.ge, ih⟩
  | surrogates hhex hhex' _ _ _ _ ih =>
    simp only [List.forall_mem_cons, List.forall_mem_append]
    exact ⟨hbackslash, hu, hhex.ge, hbackslash, hu, hhex'.ge, ih⟩

theorem Digits.ge {ds : Bytes} (h : Digits ds) : ∀ c ∈ ds, 0x20 ≤ c := fun c hc =>
  numeral_ge c (.inl (h.2 c hc))

theorem NumberText.ge {sgn int frac exp : Bytes} (h : NumberText sgn int frac exp) :
    ∀ c ∈ sgn ++ int ++ frac ++ exp, 0x20 ≤ c := by
  have hmark : ∀ c, isExponentMark c = true → 0x20 ≤ c := fun c h => numeral_ge c (.inr (.inr h))
  have hsgn : ∀ c ∈ sgn, 0x20 ≤ c := by
    rcases h.sgn_eq with rfl | rfl
    · simp
    · exact forall_ge (by decide)
  have hint : ∀ c ∈ int, 0x20 ≤ c := by
    rcases h.int_eq with rfl | ⟨hdigits, -⟩
    · exact forall_ge (by decide)
    · exact hdigits.ge
  have hfrac : ∀ c ∈ frac, 0x20 ≤ c := by
    rcases h.frac_eq with rfl | ⟨ds, hdigits, rfl⟩
    · simp
    · exact List.forall_mem_cons.mpr ⟨by decide, hdigits.ge⟩
  have hexp : ∀ c ∈ exp, 0x20 ≤ c := by
    rcases h.exp_eq with rfl | ⟨mark, sgn, ds, hm, hs, hdigits, rfl⟩
    · simp
    · refine List.forall_mem_cons.mpr ⟨hmark mark hm, List.forall_mem_append.mpr ⟨?_, hdigits.ge⟩⟩
      rcases hs with rfl | rfl | rfl <;> exact forall_ge (by decide)
  simp only [List.forall_mem_append]
  exact ⟨⟨⟨hsgn, hint⟩, hfrac⟩, hexp⟩

theorem Ws.plain {w : Bytes} (hw : Ws space w) : ∀ c ∈ w, Plain space c := fun c hc => .inr (hw c hc)

mutual

theorem ValueText.plain {n : Nat} {t : Bytes} {value : Decoded} :
    ValueText space stod n t value → ∀ c ∈ t, Plain space c
  | .nullWord => fun c hc => .inl (forall_ge (l := nullText) (by decide) c hc)
  | .trueWord => fun c hc => .inl (forall_ge (l := trueText) (by decide) c hc)
  | .falseWord => fun c hc => .inl (forall_ge (l := falseText) (by decide) c hc)
  | .string hbody => by
    simp only [List.forall_mem_cons, List.forall_mem_append]
    exact ⟨.inl (by decide), fun c hc => .inl (hbody.ge c hc), .inl (by decide), nofun⟩
  | .number htext _ => fun c hc => .inl (htext.ge c hc)
  | .emptyArray hw => by
    simp only [List.forall_mem_cons, List.forall_mem_append]
    exact ⟨.inl (by decide), hw.plain, .inl (by decide), nofun⟩
  | .array helements => by
    simp only [List.forall_mem_cons, List.forall_mem_append]
    exact ⟨.inl (by decide), helements.plain, .inl (by decide), nofun⟩
  | .emptyObject hw => by
    simp only [List.forall_mem_cons, List.forall_mem_append]
    exact ⟨.inl (by decide), hw.plain, .inl (by decide), nofun⟩
  | .object hmembers => by
    simp only [List.forall_mem_cons, List.forall_mem_append]
    exact ⟨.inl (by decide), hmembers.plain, .inl (by decide), nofun⟩

theorem ElementsText.plain {n : Nat} {t : Bytes} {values : List Decoded} :
    ElementsText space stod n t values → ∀ c ∈ t, Plain space c
  | .one hw hvalue hw' => by
    simp only [List.forall_mem_append]
    exact ⟨hw.plain, hvalue.plain, hw'.plain⟩
  | .more hw hvalue hw' hrest => by
    simp only [List.forall_mem_cons, List.forall_mem_append]
    exact ⟨hw.plain, hvalue.plain, hw'.plain, .inl (by decide), hrest.plain⟩

theorem MembersText.plain {n : Nat} {t : Bytes} {members : List (Bytes × Decoded)} :
    MembersText space stod n t members → ∀ c ∈ t, Plain space c
  | .one hw hbody hw₁ hw₂ hvalue hw' => by
    simp only [List.forall_mem_cons, List.forall_mem_append]
    exact ⟨hw.plain, .inl (by decide), fun c hc => .inl (hbody.ge c hc), .inl (by decide),
      hw₁.plain, .inl (by decide), hw₂.plain, hvalue.plain, hw'.plain⟩
  | .more hw hbody hw₁ hw₂ hvalue hw' hrest => by
    simp only [List.forall_mem_cons, List.forall_mem_append]
    exact ⟨hw.plain, .inl (by decide), fun c hc => .inl (hbody.ge c hc), .inl (by decide),
      hw₁.plain, .inl (by decide), hw₂.plain, hvalue.plain, hw'.plain, .inl (by decide),
      hrest.plain⟩

end

theorem JsonText.plain {n : Nat} {s : Bytes} (h : JsonText space stod n s value) :
    ∀ c ∈ s, Plain space c := by
  obtain ⟨w, t, w', hw, hvalue, hw', rfl⟩ := h
  simp only [List.forall_mem_append]
  exact ⟨hw.plain, hvalue.plain, hw'.plain⟩

end

section
variable (lib : Strtod) (s : Bytes)
variable {stod : Bytes → Option Nat} {value : Decoded} {n : Nat}

/-- The text is one of JSON only if vertical tabs or form feeds count as white space. -/
def HasOtherSpace : Prop :=
  (0x0B ∈ s ∨ 0x0C ∈ s) ∧ ∃ value, JsonText isSpace lib.stod kMaxNestingDepth s value

/-- The text is one of JSON, but not without a number that sets `errno` though its double is finite. -/
def Underflows : Prop :=
  (∃ value, JsonText isWs lib.finite kMaxNestingDepth s value) ∧
    ¬ ∃ value, JsonText isWs lib.stod kMaxNestingDepth s value

variable {lib s}

theorem Strtod.finite_of_stod (n : Bytes) (bits : Nat) (h : lib.stod n = some bits) :
    lib.finite n = some bits := by
  unfold Strtod.stod at h
  split at h
  · cases h
  · next hset =>
    have hfinite : isFinite (lib.convert n).1 = true := by
      by_contra hnot
      exact hset (lib.overflow n (by simpa using hnot))
    rw [Strtod.finite, if_pos hfinite]
    exact h

theorem isWs_iff (c : UInt8) : isWs c = true ↔ isSpace c = true ∧ c ≠ 0x0B ∧ c ≠ 0x0C := by
  grind [isWs, isSpace]

theorem isSpace_of_isWs (c : UInt8) (h : isWs c = true) : isSpace c = true := ((isWs_iff c).mp h).1

theorem isWs_of_isSpace (c : UInt8) (h : isSpace c = true) (hne : c ≠ 0x0B ∧ c ≠ 0x0C) : isWs c = true :=
  (isWs_iff c).mpr ⟨h, hne⟩

theorem JsonText.not_mem_otherSpace (h : JsonText isWs stod n s value) :
    ¬ (0x0B ∈ s ∨ 0x0C ∈ s) := by
  rintro (hmem | hmem)
  · exact absurd (h.plain _ hmem) (by unfold Plain; decide)
  · exact absurd (h.plain _ hmem) (by unfold Plain; decide)

/-- Without vertical tabs and form feeds the code knows no white space but that of JSON. -/
theorem JsonText.isWs_of_isSpace (h : JsonText isSpace stod n s value)
    (hs : ¬ (0x0B ∈ s ∨ 0x0C ∈ s)) : JsonText isWs stod n s value := by
  refine h.mono (fun _ _ hbits => hbits) fun c hc hspace => json.isWs_of_isSpace c hspace ⟨?_, ?_⟩
  · rintro rfl
    exact hs (.inl hc)
  · rintro rfl
    exact hs (.inr hc)

theorem JsonText.isSpace (h : JsonText isWs stod n s value) :
    JsonText json.isSpace stod n s value :=
  h.mono (fun _ _ hbits => hbits) fun c _ => isSpace_of_isWs c

/-- A text has one value. -/
theorem JsonText.unique {value value' : Decoded} (h : JsonText isWs stod kMaxNestingDepth s value)
    (h' : JsonText isWs stod kMaxNestingDepth s value') :
    value = value' := by
  have hread := serializeDecode_iff.mpr h.isSpace
  rw [serializeDecode_iff.mpr h'.isSpace] at hread
  exact (Except.ok.inj hread).symm

end

/-- `Serialize.decode` reads JSON, and nothing else, on exactly the texts that neither owe it to a
    vertical tab or a form feed nor have a number that underflows. -/
theorem serializeDecode_jsonText_iff (lib : Strtod) (s : Bytes) :
    (∀ value, serializeDecode lib.stod s = .ok value ↔ JsonText isWs lib.finite kMaxNestingDepth s value) ↔
      ¬ HasOtherSpace lib s ∧ ¬ Underflows lib s := by
  constructor
  · intro hreads
    constructor
    · rintro ⟨hmem, value, htext⟩
      exact ((hreads value).mp (serializeDecode_iff.mpr htext)).not_mem_otherSpace hmem
    · rintro ⟨⟨value, htext⟩, hnone⟩
      have hread := serializeDecode_iff.mp ((hreads value).mpr htext)
      exact hnone ⟨value, hread.isWs_of_isSpace htext.not_mem_otherSpace⟩
  · rintro ⟨hspace, hunderflow⟩ value
    constructor
    · intro hread
      have htext := serializeDecode_iff.mp hread
      have hmem : ¬ (0x0B ∈ s ∨ 0x0C ∈ s) := fun hmem => hspace ⟨hmem, value, htext⟩
      exact (htext.isWs_of_isSpace hmem).mono Strtod.finite_of_stod fun _ _ hc => hc
    · intro htext
      obtain ⟨value', htext'⟩ : ∃ value', JsonText isWs lib.stod kMaxNestingDepth s value' := by
        by_contra hnone
        exact hunderflow ⟨⟨value, htext⟩, hnone⟩
      have hfinite := htext'.mono Strtod.finite_of_stod fun _ _ hc => hc
      rw [htext.unique hfinite]
      exact serializeDecode_iff.mpr htext'.isSpace

/-- A library whose numbers are all zero. -/
def zeroStrtod : Strtod where
  convert _ := (0, false)
  overflow _ h := absurd h (by decide)

/-- A vertical tab in front of a number is skipped. -/
theorem vertical_tab_skipped : (serializeDecode zeroStrtod.stod [0x0B, 0x31]).isOk = true ∧
    ¬ ∃ value, JsonText isWs zeroStrtod.finite kMaxNestingDepth [0x0B, 0x31] value := by
  refine ⟨by rfl, ?_⟩
  rintro ⟨value, htext⟩
  exact htext.not_mem_otherSpace (.inl List.mem_cons_self)

end zl.vm.json
