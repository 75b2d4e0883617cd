import Zl.Collections.Basic
import Zl.Vm.Json.Grammar

open zl.collections

namespace zl.vm.json

/-- The values within a value. -/
inductive Decoded.Within : Decoded → Decoded → Prop
  | refl (v : Decoded) : Within v v
  | item {v w : Decoded} {items : List Decoded} (hv : Within v w) (hw : w ∈ items) :
      Within v (.list items)
  | entry {v w : Decoded} {key : Bytes} {entries : List (Bytes × Decoded)} (hv : Within v w)
      (hw : (key, w) ∈ entries) :
    Within v (.map entries)

/-- No map within the value has two equal keys. -/
def Decoded.DistinctKeys (v : Decoded) : Prop :=
  ∀ entries, Decoded.Within (.map entries) v → (entries.map Prod.fst).Nodup

theorem Decoded.DistinctKeys.item {v : Decoded} {items : List Decoded}
    (h : (Decoded.list items).DistinctKeys) (hv : v ∈ items) :
    v.DistinctKeys := fun entries hwithin => h entries (.item hwithin hv)

theorem Decoded.DistinctKeys.entry {v : Decoded} {key : Bytes} {entries : List (Bytes × Decoded)}
    (h : (Decoded.map entries).DistinctKeys) (hv : (key, v) ∈ entries) : v.DistinctKeys :=
  fun entries' hwithin => h entries' (.entry hwithin hv)

theorem Decoded.DistinctKeys.keys {entries : List (Bytes × Decoded)}
    (h : (Decoded.map entries).DistinctKeys) :
    (entries.map Prod.fst).Nodup := h entries (.refl _)

theorem distinctKeys_list {items : List Decoded} (h : ∀ v ∈ items, v.DistinctKeys) :
    (Decoded.list items).DistinctKeys := by
  intro entries hwithin
  cases hwithin with
  | item hv hw => exact h _ hw entries hv

theorem distinctKeys_map {entries : List (Bytes × Decoded)} (hkeys : (entries.map Prod.fst).Nodup)
    (h : ∀ e ∈ entries, e.2.DistinctKeys) : (Decoded.map entries).DistinctKeys := by
  intro entries' hwithin
  cases hwithin with
  | refl => exact hkeys
  | entry hv hw => exact h _ hw entries' hv

theorem hexDigitOrFail_ok {c : UInt8} {s : Bytes} {d : Nat} (h : hexDigitOrFail c s = .ok d) :
    hexDigit c = some d := by
  rw [hexDigitOrFail] at h
  cases hd : hexDigit c with
  | none =>
    rw [hd] at h
    cases h
  | some d' =>
    rw [hd] at h
    rw [Except.ok.inj h]

theorem hex4_sound {s r : Bytes} {cp : Nat} (h : hex4 s = .ok (cp, r)) : Hex4 s cp r := by
  unfold hex4 at h
  split at h
  · next a b c d s =>
    obtain ⟨w, hw, h⟩ := bind_eq_ok.mp h
    obtain ⟨x, hx, h⟩ := bind_eq_ok.mp h
    obtain ⟨y, hy, h⟩ := bind_eq_ok.mp h
    obtain ⟨z, hz, h⟩ := bind_eq_ok.mp h
    cases Except.ok.inj h
    exact .intro (hexDigitOrFail_ok hw) (hexDigitOrFail_ok hx) (hexDigitOrFail_ok hy)
      (hexDigitOrFail_ok hz)
  · nomatch h

/-- Behind `\u` stands a code point beside the surrogates, or a pair of surrogates. -/
theorem unicodeEscape_sound {s out r t : Bytes} {u : Bytes} (h : unicodeEscape s = .ok (out, r))
    (hrest : StringBody r t u) :
    StringBody (backslash :: 'u'.toUInt8 :: s) (out ++ t) u := by
  obtain ⟨⟨first, s₁⟩, hfirst, h⟩ := bind_eq_ok.mp h
  have hhex := hex4_sound hfirst
  dsimp only at h
  split at h
  · next hhigh =>
    split at h
    · next b c s₂ =>
      split at h
      · next hmarks =>
        obtain ⟨rfl, rfl⟩ := hmarks
        obtain ⟨⟨second, s₃⟩, hsecond, h⟩ := bind_eq_ok.mp h
        dsimp only at h
        split at h
        · nomatch h
        · next hlow =>
          obtain ⟨rfl, rfl⟩ := Prod.mk.inj (Except.ok.inj h)
          exact .surrogates hhex (hex4_sound hsecond) hhigh (by omega) hrest
      · nomatch h
    · nomatch h
  · next hhigh =>
    split at h
    · nomatch h
    · next hlow =>
      cases Except.ok.inj h
      exact .unicode hhex (by omega) hrest

theorem stringLoop_sound {fuel : Nat} {s out r : Bytes} (h : stringLoop fuel s = .ok (out, r)) :
    StringBody s out r := by
  induction fuel generalizing s out r with
  | zero => cases s <;> cases h
  | succ fuel ih =>
    cases s with
    | nil => cases h
    | cons c s =>
      rw [stringLoop.eq_def] at h
      dsimp only at h
      split at h
      · next hquote =>
        cases Except.ok.inj h
        rw [hquote]
        exact .close
      · next hquote =>
        split at h
        · cases h
        · next hcontrol =>
          split at h
          · next hescape =>
            obtain ⟨⟨out', s'⟩, hloop, h⟩ := bind_eq_ok.mp h
            cases Except.ok.inj h
            exact .raw hquote hcontrol hescape (ih hloop)
          · next hescape =>
            rw [not_not.mp hescape]
            split at h
            · cases h
            · next e s =>
              split at h
              · next hu =>
                rw [hu]
                obtain ⟨⟨cp, s'⟩, hcp, h⟩ := bind_eq_ok.mp h
                obtain ⟨⟨out', s''⟩, hloop, h⟩ := bind_eq_ok.mp h
                cases Except.ok.inj h
                exact unicodeEscape_sound hcp (ih hloop)
              · split at h
                · next b he =>
                  obtain ⟨⟨out', s'⟩, hloop, h⟩ := bind_eq_ok.mp h
                  cases Except.ok.inj h
                  exact .escape he (ih hloop)
                · cases h

theorem parseString_sound {s out r : Bytes} (h : parseString s = .ok (out, r)) :
    ∃ s', Blank s (quote :: s') ∧ StringBody s' out r := by
  have hblank := blank_ws s
  rw [parseString] at h
  split at h
  · next c s' hws =>
    rw [hws] at hblank
    split at h
    · next hc => exact ⟨s', hc ▸ hblank, stringLoop_sound h⟩
    · cases h
  · cases h

theorem sign_sound {isSign : UInt8 → Bool} {s sgn t : Bytes} (h : sign isSign s = (sgn, t)) :
    s = sgn ++ t ∧ (sgn = [] ∨ ∃ c, isSign c = true ∧ sgn = [c]) := by
  cases s with
  | nil =>
    cases h
    exact ⟨rfl, .inl rfl⟩
  | cons c s =>
    rw [sign] at h
    split at h
    · next hc =>
      cases h
      exact ⟨rfl, .inr ⟨c, hc, rfl⟩⟩
    · cases h
      exact ⟨rfl, .inl rfl⟩

theorem span_sound {s ds t : Bytes} (h : s.span isDigit = (ds, t)) :
    s = ds ++ t ∧ (∀ d ∈ ds, isDigit d = true) ∧ ∀ c ∈ t.head?, isDigit c = false := by
  rw [List.span_eq_takeWhile_dropWhile] at h
  cases h
  refine ⟨List.takeWhile_append_dropWhile.symm, fun d hd => List.mem_takeWhile_imp hd, fun c hc => ?_⟩
  have hnot := List.head?_dropWhile_not isDigit s
  rw [Option.mem_def.mp hc] at hnot
  simpa using hnot

theorem integerPart_sound {s int t : Bytes} (h : integerPart s = .ok (int, t)) :
    s = int ++ t ∧ (int = [zero] ∨ Digits int ∧ int.head? ≠ some zero) ∧ ∀ c ∈ t.head?,
      isDigit c = false := by
  cases s with
  | nil => nomatch h
  | cons c s =>
    rw [integerPart.eq_def] at h
    dsimp only at h
    split at h
    · nomatch h
    · next hdigit =>
      split at h
      · next hzero =>
        split at h
        · cases Except.ok.inj h
          exact ⟨by rw [hzero]; rfl, .inl rfl, nofun⟩
        · next d s =>
          split at h
          · nomatch h
          · next hd =>
            cases Except.ok.inj h
            refine ⟨by rw [hzero]; rfl, .inl rfl, fun d' hd' => ?_⟩
            obtain rfl : d = d' := Option.some.inj hd'
            exact eq_false_of_ne_true hd
      · next hzero =>
        obtain ⟨heq, hall, hhead⟩ := span_sound (Except.ok.inj h)
        have hc : isDigit c = true := by simpa using hdigit
        cases int with
        | nil =>
          rw [List.nil_append] at heq
          rw [← heq] at hhead
          have hfalse := hhead c rfl
          rw [hc] at hfalse
          nomatch hfalse
        | cons d int =>
          refine ⟨heq, .inr ⟨⟨List.cons_ne_nil _ _, hall⟩, fun hd => hzero ?_⟩, hhead⟩
          rw [(List.cons.inj heq).1]
          exact Option.some.inj hd

theorem fractionPart_sound {s frac t : Bytes} (h : fractionPart s = .ok (frac, t))
    (hs : ∀ c ∈ s.head?, isDigit c = false) :
    s = frac ++ t ∧ (frac = [] ∨ ∃ ds, Digits ds ∧ frac = dot :: ds) ∧
      ∀ c ∈ t.head?, isDigit c = false ∧ (frac = [] → c ≠ dot) := by
  cases s with
  | nil =>
    cases Except.ok.inj h
    exact ⟨rfl, .inl rfl, fun _ hc => by cases hc⟩
  | cons c s =>
    rw [fractionPart] at h
    split at h
    · next hdot =>
      split at h
      · cases h
      · next digits rest hnone hspan =>
        cases Except.ok.inj h
        obtain ⟨rfl, hall, hhead⟩ := span_sound hspan
        refine ⟨by rw [hdot]; rfl, .inr ⟨digits, ⟨hnone, hall⟩, rfl⟩, fun c hc => ?_⟩
        exact ⟨hhead c hc, fun hr => by cases hr⟩
    · next hdot =>
      cases Except.ok.inj h
      refine ⟨rfl, .inl rfl, fun d hd => ?_⟩
      obtain rfl : c = d := Option.some.inj hd
      exact ⟨hs c rfl, fun _ => hdot⟩

theorem exponentPart_sound {s frac exp r : Bytes} (h : exponentPart s = .ok (exp, r))
    (hs : ∀ c ∈ s.head?, isDigit c = false ∧ (frac = [] → c ≠ dot)) :
    s = exp ++ r ∧ (exp = [] ∨ ∃ mark sgn ds, isExponentMark mark = true ∧
      (sgn = [] ∨ sgn = [plus] ∨ sgn = [minus]) ∧ Digits ds ∧ exp = mark :: (sgn ++ ds)) ∧
      Follow frac exp r := by
  cases s with
  | nil =>
    cases Except.ok.inj h
    exact ⟨rfl, .inl rfl, fun _ hc => by cases hc⟩
  | cons c s =>
    rw [exponentPart] at h
    split at h
    · next hmark =>
      cases hsign : sign (fun c => decide (c = plus) || decide (c = minus)) s with
      | mk sgn rest =>
      rw [hsign] at h
      dsimp only at h
      split at h
      · cases h
      · next digits rest' hnone hspan =>
        cases Except.ok.inj h
        obtain ⟨rfl, hall, hhead⟩ := span_sound hspan
        obtain ⟨rfl, hsgn⟩ := sign_sound hsign
        refine ⟨by simp, .inr ⟨c, sgn, digits, hmark, ?_, ⟨hnone, hall⟩, rfl⟩, fun c hc => ?_⟩
        · rcases hsgn with rfl | ⟨c, hc, rfl⟩
          · exact .inl rfl
          · rcases Bool.or_eq_true_iff.mp hc with hc | hc
            · exact .inr (.inl (by rw [of_decide_eq_true hc]))
            · exact .inr (.inr (by rw [of_decide_eq_true hc]))
        · exact ⟨hhead c hc, fun _ hr => (by cases hr), fun hr => by cases hr⟩
    · next hmark =>
      cases Except.ok.inj h
      refine ⟨rfl, .inl rfl, fun d hd => ?_⟩
      obtain rfl : c = d := Option.some.inj hd
      exact ⟨(hs c rfl).1, fun hfrac _ => (hs c rfl).2 hfrac, fun _ => eq_false_of_ne_true hmark⟩

section
variable {stod : Bytes → Option Nat} {unique : Prop}
variable {value : Decoded} {s r : Bytes} {n : Nat}

theorem parseNumber_sound (h : parseNumber stod s = .ok (value, r)) :
    Spells stod unique n (ws s) value r := by
  cases hsign : sign (fun c => decide (c = minus)) (ws s) with
  | mk sgn s₁ =>
  rw [parseNumber, hsign] at h
  dsimp only at h
  obtain ⟨⟨int, s₂⟩, hint, hparts⟩ := bind_eq_ok.mp h
  obtain ⟨⟨frac, s₃⟩, hfrac, hparts⟩ := bind_eq_ok.mp hparts
  obtain ⟨⟨exp, s₄⟩, hexp, hresult⟩ := bind_eq_ok.mp hparts
  clear h hparts
  dsimp only at hint hfrac hexp hresult
  obtain ⟨hs, hsgn⟩ := sign_sound hsign
  obtain ⟨rfl, hintText, hintHead⟩ := integerPart_sound hint
  obtain ⟨rfl, hfracText, hfracHead⟩ := fractionPart_sound hfrac hintHead
  obtain ⟨rfl, hexpText, hfollow⟩ := exponentPart_sound hexp hfracHead
  split at hresult
  · next value' hvalue =>
    cases Except.ok.inj hresult
    have htext : NumberText sgn int frac exp := by
      refine ⟨?_, hintText, hfracText, hexpText⟩
      rcases hsgn with rfl | ⟨c, hc, rfl⟩
      · exact .inl rfl
      · exact .inr (by rw [of_decide_eq_true hc])
    rw [hs, ← List.append_assoc, ← List.append_assoc, ← List.append_assoc]
    exact .number htext hvalue hfollow
  · cases hresult

theorem Blank.trans {s t r : Bytes} (h : Blank s t) (h' : Blank t r) : Blank s r := by
  obtain ⟨w, hw, rfl⟩ := h
  obtain ⟨w', hw', rfl⟩ := h'
  exact ⟨w ++ w', fun c hc => (List.mem_append.mp hc).elim (hw c) (hw' c), (List.append_assoc _ _ _).symm⟩

theorem Items.of_ws {values : List Decoded} (h : Items stod unique n (ws s) values r) :
    Items stod unique n s values r := by
  cases h with
  | last hblank hvalue hclose => exact .last ((blank_ws s).trans hblank) hvalue hclose
  | more hblank hvalue hcomma hrest => exact .more ((blank_ws s).trans hblank) hvalue hcomma hrest

theorem Members.of_ws {members : List (Bytes × Decoded)}
    (h : Members stod unique n (ws s) members r) : Members stod unique n s members r := by
  cases h with
  | last hblank hkey hcolon hblank' hvalue hclose =>
    exact .last ((blank_ws s).trans hblank) hkey hcolon hblank' hvalue hclose
  | more hblank hkey hcolon hblank' hvalue hcomma hrest hkeys =>
    exact .more ((blank_ws s).trans hblank) hkey hcolon hblank' hvalue hcomma hrest hkeys

section
variable {n : Nat} {parse : Bytes → Except Failure (Decoded × Bytes)}
  (hparse : ∀ {s r : Bytes} {value : Decoded}, parse s = .ok (value, r) → (unique → value.DistinctKeys) →
    Spells stod unique n (ws s) value r)
include hparse

theorem itemsLoop_sound {fuel : Nat} {s r : Bytes} {values : List Decoded}
    (h : itemsLoop parse fuel s = .ok (values, r))
    (hkeys : unique → ∀ v ∈ values, v.DistinctKeys) : Items stod unique n s values r := by
  induction fuel generalizing s values with
  | zero => cases h
  | succ fuel ih =>
    obtain ⟨⟨value, s₁⟩, hvalue, h⟩ := bind_eq_ok.mp h
    dsimp only at h
    have hblank := blank_ws s₁
    split at h
    · cases h
    · next c rest hws =>
      rw [hws] at hblank
      split at h
      · next hc =>
        cases Except.ok.inj h
        have hspells := hparse hvalue fun hu => hkeys hu value List.mem_cons_self
        exact .last (blank_ws s) hspells (hc ▸ hblank)
      · split at h
        · next hc =>
          -- Whatever is behind the comma, the loop goes on after its white space.
          have hgoesOn : ∃ values', itemsLoop parse fuel (ws rest) = .ok (values', r) ∧
              values = value :: values' := by
            split at h
            · next hnil =>
              obtain ⟨⟨values', r'⟩, hloop, h⟩ := bind_eq_ok.mp h
              cases Except.ok.inj h
              exact ⟨values', hnil ▸ hloop, rfl⟩
            · next d rest' hcons =>
              split at h
              · cases h
              · obtain ⟨⟨values', r'⟩, hloop, h⟩ := bind_eq_ok.mp h
                cases Except.ok.inj h
                exact ⟨values', hcons ▸ hloop, rfl⟩
          obtain ⟨values', hloop, rfl⟩ := hgoesOn
          have hspells := hparse hvalue fun hu => hkeys hu value List.mem_cons_self
          have hrest := ih hloop fun hu v hv => hkeys hu v (List.mem_cons_of_mem _ hv)
          exact .more (blank_ws s) hspells (hc ▸ hblank) hrest.of_ws
        · cases h

theorem membersLoop_sound {fuel : Nat} {s r : Bytes} {members : List (Bytes × Decoded)}
    (h : membersLoop parse fuel s = .ok (members, r)) (hnodup : unique → (members.map Prod.fst).Nodup)
    (hkeys : unique → ∀ e ∈ members, e.2.DistinctKeys) : Members stod unique n s members r := by
  induction fuel generalizing s members with
  | zero => cases h
  | succ fuel ih =>
    rw [membersLoop] at h
    have hblank := blank_ws s
    split at h
    · cases h
    · next c s₁ hws =>
      split at h
      · cases h
      · obtain ⟨⟨key, s₂⟩, hkey, h⟩ := bind_eq_ok.mp h
        obtain ⟨s', hquote, hbody⟩ := parseString_sound hkey
        rw [hws] at hblank
        have hkeyBlank := hblank.trans hquote
        dsimp only at h
        have hcolon := blank_ws s₂
        split at h
        · cases h
        · next c₁ s₃ hws₁ =>
          rw [hws₁] at hcolon
          split at h
          · cases h
          · next hc₁ =>
            rw [not_not.mp hc₁] at hcolon
            obtain ⟨⟨value, s₅⟩, hvalue, h⟩ := bind_eq_ok.mp h
            dsimp only at h
            have hblank₅ := blank_ws s₅
            split at h
            · cases h
            · next c₂ rest hws₂ =>
              rw [hws₂] at hblank₅
              split at h
              · next hc₂ =>
                cases Except.ok.inj h
                have hspells := hparse hvalue fun hu => hkeys hu (key, value) List.mem_cons_self
                exact .last hkeyBlank hbody hcolon (blank_ws s₃) hspells (hc₂ ▸ hblank₅)
              · split at h
                · next hc₂ =>
                  have hgoesOn : ∃ members', membersLoop parse fuel (ws rest) = .ok (members', r) ∧
                      members = (key, value) :: members' := by
                    split at h
                    · next hnil =>
                      obtain ⟨⟨members', r'⟩, hloop, h⟩ := bind_eq_ok.mp h
                      cases Except.ok.inj h
                      exact ⟨members', hnil ▸ hloop, rfl⟩
                    · next d rest' hcons =>
                      split at h
                      · cases h
                      · obtain ⟨⟨members', r'⟩, hloop, h⟩ := bind_eq_ok.mp h
                        cases Except.ok.inj h
                        exact ⟨members', hcons ▸ hloop, rfl⟩
                  obtain ⟨members', hloop, rfl⟩ := hgoesOn
                  have hspells := hparse hvalue fun hu => hkeys hu (key, value) List.mem_cons_self
                  have hrest := ih hloop (fun hu => (List.nodup_cons.mp (hnodup hu)).2)
                    fun hu e he => hkeys hu e (List.mem_cons_of_mem _ he)
                  exact .more hkeyBlank hbody hcolon (blank_ws s₃) hspells (hc₂ ▸ hblank₅) hrest.of_ws
                    fun hu => (List.nodup_cons.mp (hnodup hu)).1
                · cases h

theorem parseArray_sound {s r : Bytes} {value : Decoded} (h : parseArray parse s = .ok (value, r))
    (hkeys : unique → value.DistinctKeys) : Spells stod unique (n + 1) (openBracket :: s) value r := by
  have hblank := blank_ws s
  rw [parseArray] at h
  split at h
  · next c rest hws =>
    split at h
    · next hc =>
      cases Except.ok.inj h
      exact .emptyList (hc ▸ hws ▸ hblank)
    · obtain ⟨⟨values, s'⟩, hloop, h⟩ := bind_eq_ok.mp h
      cases Except.ok.inj h
      rw [← hws] at hloop
      exact .list (itemsLoop_sound hparse hloop fun hu v hv => (hkeys hu).item hv).of_ws
  · nomatch h

theorem parseObject_sound {s r : Bytes} {value : Decoded} (h : parseObject parse s = .ok (value, r))
    (hkeys : unique → value.DistinctKeys) : Spells stod unique (n + 1) (openBrace :: s) value r := by
  have hblank := blank_ws s
  rw [parseObject] at h
  split at h
  · next c rest hws =>
    split at h
    · next hc =>
      cases Except.ok.inj h
      exact .emptyMap (hc ▸ hws ▸ hblank)
    · obtain ⟨⟨members, s'⟩, hloop, h⟩ := bind_eq_ok.mp h
      cases Except.ok.inj h
      rw [← hws] at hloop
      exact .map (membersLoop_sound hparse hloop (fun hu => (hkeys hu).keys) fun hu e he =>
        (hkeys hu).entry he).of_ws
  · nomatch h

end

theorem eq_append_of_isPrefix {text s : Bytes} (h : text <+: s) {k : Nat} (hk : text.length = k) :
    s = text ++ s.drop k := by
  obtain ⟨r, rfl⟩ := h
  rw [← hk, List.drop_left]

/-- What a value may start with decides how it goes on. -/
theorem parseValue_sound_of_inner {room : Nat}
    (hinner : ∀ k, room = k + 1 → ∀ {s r : Bytes} {value : Decoded}, parseValue stod k s =
      .ok (value, r) → (unique → value.DistinctKeys) → Spells stod unique k (ws s) value r)
    (h : parseValue stod room s = .ok (value, r)) (hkeys : unique → value.DistinctKeys) :
    Spells stod unique room (ws s) value r := by
  rw [parseValue.eq_def] at h
  dsimp only at h
  split at h
  · cases h
  · next c rest hws =>
    rw [hws]
    split at h
    · next hquote =>
      obtain ⟨⟨out, s'⟩, hstring, h⟩ := bind_eq_ok.mp h
      cases Except.ok.inj h
      rw [parseString, ws_eq (blank_refl _) (solid_cons (hquote ▸ by decide))] at hstring
      simp only [if_pos hquote] at hstring
      rw [hquote]
      exact .string (stringLoop_sound hstring)
    · split at h
      · next hopen =>
        split at h
        · cases h
        · next k =>
          split at h
          · next hbrace =>
            rw [hbrace]
            exact parseObject_sound (hinner k rfl) h hkeys
          · next hbrace =>
            rw [hopen.resolve_left hbrace]
            exact parseArray_sound (hinner k rfl) h hkeys
      · split at h
        · next htrue =>
          cases Except.ok.inj h
          rw [eq_append_of_isPrefix htrue rfl]
          exact .trueWord
        · split at h
          · next hfalse =>
            cases Except.ok.inj h
            rw [eq_append_of_isPrefix hfalse rfl]
            exact .falseWord
          · split at h
            · next hnull =>
              cases Except.ok.inj h
              rw [eq_append_of_isPrefix hnull rfl]
              exact .nullWord
            · have hspells : Spells stod unique room (ws (c :: rest)) value r := parseNumber_sound h
              rwa [← hws, ws_ws, hws] at hspells

theorem parseValue_sound {room : Nat} (h : parseValue stod room s = .ok (value, r))
    (hkeys : unique → value.DistinctKeys) : Spells stod unique room (ws s) value r := by
  induction room generalizing s r value with
  | zero => exact parseValue_sound_of_inner (fun k hk => absurd hk (Nat.zero_ne_add_one k)) h hkeys
  | succ room ih =>
    refine parseValue_sound_of_inner (fun k hk => ?_) h hkeys
    cases hk
    exact ih

/-- What `Serialize.decode` accepts is a text of the grammar. -/
theorem serializeDecode_sound {s : Bytes} (h : serializeDecode stod s = .ok value)
    (hkeys : unique → value.DistinctKeys) : Text stod unique kMaxNestingDepth s value := by
  rw [serializeDecode] at h
  cases hparsed : parseValue stod kMaxNestingDepth s with
  | error failure =>
    rw [hparsed] at h
    cases h
  | ok parsed =>
    obtain ⟨v, rest⟩ := parsed
    have hend := blank_ws rest
    rw [hparsed] at h
    simp only [bind, Except.bind] at h
    split at h
    · next hws =>
      cases Except.ok.inj h
      exact ⟨ws s, rest, blank_ws s, parseValue_sound hparsed hkeys, hws ▸ hend⟩
    · cases h

mutual

theorem Spells.distinctKeys {n : Nat} {s r : Bytes} {value : Decoded} :
    Spells stod True n s value r → value.DistinctKeys
  | .nullWord => fun _ hwithin => nomatch hwithin
  | .trueWord => fun _ hwithin => nomatch hwithin
  | .falseWord => fun _ hwithin => nomatch hwithin
  | .string _ => fun _ hwithin => nomatch hwithin
  | .number _ hvalue _ => fun entries hwithin => by
    rw [numberValue] at hvalue
    split at hvalue
    · obtain ⟨bits, -, rfl⟩ := Option.map_eq_some_iff.mp hvalue
      nomatch hwithin
    · obtain ⟨held, -, rfl⟩ := Option.map_eq_some_iff.mp hvalue
      nomatch hwithin
  | .emptyList _ => distinctKeys_list nofun
  | .list hitems => distinctKeys_list hitems.distinctKeys
  | .emptyMap _ => distinctKeys_map List.nodup_nil nofun
  | .map hmembers => distinctKeys_map hmembers.distinctKeys.1 hmembers.distinctKeys.2

theorem Items.distinctKeys {n : Nat} {s r : Bytes} {values : List Decoded} :
    Items stod True n s values r → ∀ v ∈ values, v.DistinctKeys
  | .last _ hvalue _ => fun _ hv => List.mem_singleton.mp hv ▸ hvalue.distinctKeys
  | .more _ hvalue _ hrest => List.forall_mem_cons.mpr ⟨hvalue.distinctKeys, hrest.distinctKeys⟩

theorem Members.distinctKeys {n : Nat} {s r : Bytes} {members : List (Bytes × Decoded)} :
    Members stod True n s members r → (members.map Prod.fst).Nodup ∧ ∀ e ∈ members, e.2.DistinctKeys
  | .last _ _ _ _ hvalue _ => ⟨List.pairwise_singleton _ _, fun _ he =>
      List.mem_singleton.mp he ▸ hvalue.distinctKeys⟩
  | .more _ _ _ _ hvalue _ hrest hunique =>
    ⟨List.nodup_cons.mpr ⟨hunique trivial, hrest.distinctKeys.1⟩,
      List.forall_mem_cons.mpr ⟨hvalue.distinctKeys, hrest.distinctKeys.2⟩⟩

end

/-- The maps that `Serialize.decode` returns have no equal keys exactly when no object of the text
    repeats a key. -/
theorem distinctKeys_iff_text {s : Bytes} (h : serializeDecode stod s = .ok value) :
    value.DistinctKeys ↔ ∃ w, Text stod True kMaxNestingDepth s w := by
  constructor
  · exact fun hkeys => ⟨value, serializeDecode_sound h fun _ => hkeys⟩
  · rintro ⟨w, hw⟩
    rw [serializeDecode_eq hw] at h
    cases Except.ok.inj h
    obtain ⟨s₁, s₂, -, hspells, -⟩ := hw
    exact hspells.distinctKeys

end

end zl.vm.json
