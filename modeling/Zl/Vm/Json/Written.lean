import Zl.Vm.Json.Spelling
import Zl.Vm.Native.Collections

open zl.collections zl.vm.gc zl.vm.native.collections

namespace zl.vm.json

/-- The exact value of a finite double, without its sign. -/
def exactMagnitude (bits : Nat) : ℚ :=
  let exponent : Nat := bits / 2 ^ 52 % 2 ^ 11
  let fraction : Nat := bits % 2 ^ 52
  if exponent = 0 then (fraction : ℚ) * 2 ^ (-1074 : ℤ) else ((2 ^ 52 + fraction : Nat) : ℚ) * 2 ^
    ((exponent : ℤ) - 1075)

def exactValue (bits : Nat) : ℚ := if signbit bits then -exactMagnitude bits else exactMagnitude bits

/-- One logical value is the other, where a double may be given as the int of the same value. -/
inductive Same : Decoded → Decoded → Prop
  | nil : Same .nil .nil
  | bool {held : Bool} : Same (.bool held) (.bool held)
  | int {held : Int64} : Same (.int held) (.int held)
  | double {bits : Nat} : Same (.double bits) (.double bits)
  | whole {bits : Nat} {held : Int64} (hvalue : exactValue bits = held.toInt) :
      Same (.double bits) (.int held)
  | string {held : Bytes} : Same (.string held) (.string held)
  | list {items items' : List Decoded} (hitems : List.Forall₂ Same items items') :
      Same (.list items) (.list items')
  | map {entries entries' : List (Bytes × Decoded)} (hkeys : entries.map Prod.fst = entries'.map Prod.fst)
      (hvalues : List.Forall₂ Same (entries.map Prod.snd) (entries'.map Prod.snd)) :
        Same (.map entries) (.map entries')

section
variable (heap : Heap)

/-- The values that a value holds itself. -/
def contents (v : gc.Value) : List gc.Value := (appendValueChildren heap v).1

/-- The values within a value. -/
def Within (w v : gc.Value) : Prop := Relation.ReflTransGen (fun v w => w ∈ contents heap v) v w

mutual

/-- The value is a logical value nested at most `n` deep. A list is what it holds behind its consumed
    prefix. A value that is within itself is none. -/
inductive Denotes : Nat → gc.Value → Decoded → Prop
  | nil {n : Nat} : Denotes n .nil .nil
  | bool {n : Nat} {held : Bool} : Denotes n (.bool held) (.bool held)
  | int {n : Nat} {held : Int64} : Denotes n (.int held) (.int held)
  | double {n : Nat} {bits : Nat} (hfinite : isFinite bits = true) :
      Denotes n (.double bits) (.double bits)
  | string {n : Nat} {held : Bytes} : Denotes n (.string held) (.string held)
  | list {n : Nat} {a : Address} {items : List Decoded}
      (hitems : DenotesAll n (logicalItems (listAt heap a)) items) :
    Denotes (n + 1) (.box .list (some a)) (.list items)
  | map {n : Nat} {a : Address} {entries : List (Bytes × Decoded)}
      (hkeys : (mapAt heap a).entries.map Prod.fst = entries.map fun e => .string e.1)
      (hvalues : DenotesAll n ((mapAt heap a).entries.map Prod.snd) (entries.map Prod.snd)) :
    Denotes (n + 1) (.box .map (some a)) (.map entries)

inductive DenotesAll : Nat → List gc.Value → List Decoded → Prop
  | nil {n : Nat} : DenotesAll n [] []
  | cons {n : Nat} {v : gc.Value} {t : Decoded} {vs : List gc.Value} {ts : List Decoded}
      (hhead : Denotes n v t)
      (htail : DenotesAll n vs ts) : DenotesAll n (v :: vs) (t :: ts)

end

variable (lib : StandardLibrary)

/-- What the text of a value says. -/
inductive Reads : gc.Value → Decoded → Prop
  | nil : Reads .nil .nil
  | null {kind : Kind} : Reads (.box kind none) .nil
  | bool {held : Bool} : Reads (.bool held) (.bool held)
  | int {held : Int64} : Reads (.int held) (.int held)
  | double {bits : Nat} : Reads (.double bits) (readDouble lib bits)
  | string {held : Bytes} : Reads (.string held) (.string held)
  | list {a : Address} {items : List Decoded} (hitems : List.Forall₂ Reads (listAt heap a).items items) :
    Reads (.box .list (some a)) (.list items)
  | map {a : Address} {entries : List (Bytes × Decoded)}
      (hkeys : (mapAt heap a).entries.map Prod.fst = entries.map fun e => .string e.1)
      (hvalues : List.Forall₂ Reads ((mapAt heap a).entries.map Prod.snd) (entries.map Prod.snd)) :
    Reads (.box .map (some a)) (.map entries)
  | native {a : Address} {native : gc.Value} {t : Decoded}
      (hnative : nativeStorage (objectAt heap a) = some native)
      (h : Reads native t) : Reads (.box .object (some a)) t
  | object {a : Address} {entries : List (Bytes × Decoded)}
      (hnative : nativeStorage (objectAt heap a) = none)
      (hkeys : (namedFields (objectAt heap a)).map (fun field => field.1.toUTF8.toList) =
        entries.map Prod.fst)
      (hvalues : List.Forall₂ Reads ((namedFields (objectAt heap a)).map Prod.snd)
        (entries.map Prod.snd)) :
    Reads (.box .object (some a)) (.map entries)

/-- What the text of a value keeps: a list has no consumed prefix, and where a double is spelled
    without a decimal point and without an exponent, the digits are its exact value. -/
def Faithful : gc.Value → Prop
  | .box .list (some a) => (listAt heap a).frontIndex = 0
  | .double bits => ∀ magnitude, wholeSpelling lib bits = some magnitude → exactMagnitude bits = magnitude
  | _ => True

end

section
variable {heap : Heap}

theorem contents_box (kind : Kind) (a : Address) :
    contents heap (.box kind (some a)) = (boxChildren kind (boxAt heap ⟨kind, a⟩)).1 := by
  rw [contents, appendValueChildren, boxAt]
  cases heap.boxes.lookup ⟨kind, a⟩ with
  | none => cases kind <;> rfl
  | some box => rfl

theorem contents_list (a : Address) : contents heap (.box .list (some a)) = (listAt heap a).items :=
  contents_box .list a

theorem contents_map (a : Address) :
    contents heap (.box .map (some a)) = (mapAt heap a).entries.flatMap fun entry => [entry.1, entry.2] :=
  contents_box .map a

theorem within_refl (v : gc.Value) : Within heap v v := .refl

theorem Within.of_mem {v w u : gc.Value} (h : Within heap w u) (hu : u ∈ contents heap v) :
    Within heap w v :=
  Relation.ReflTransGen.head hu h

theorem within_iff {v w : gc.Value} : Within heap w v ↔ w = v ∨ ∃ u ∈ contents heap v,
    Within heap w u := by
  rw [Within, Relation.ReflTransGen.cases_head_iff]
  exact or_congr eq_comm (exists_congr fun u => Iff.rfl)

theorem forall_within_iff {P : gc.Value → Prop} {v : gc.Value} :
    (∀ w, Within heap w v → P w) ↔ P v ∧ ∀ u ∈ contents heap v, ∀ w, Within heap w u → P w := by
  constructor
  · exact fun h => ⟨h v (within_refl v), fun u hu w hw => h w (hw.of_mem hu)⟩
  · rintro ⟨hv, hcontents⟩ w hw
    rcases within_iff.mp hw with rfl | ⟨u, hu, hw⟩
    · exact hv
    · exact hcontents u hu w hw

theorem within_scalar {v w : gc.Value} (hv : contents heap v = []) (h : Within heap w v) : w = v := by
  rcases within_iff.mp h with rfl | ⟨u, hu, -⟩
  · rfl
  · rw [hv] at hu
    nomatch hu

end

section
variable {stod : Bytes → Option Nat} {unique : Prop}

mutual

theorem Spells.succ {n : Nat} {s r : Bytes} {value : Decoded} : Spells stod unique n s value r →
    Spells stod unique (n + 1) s value r
  | .nullWord => .nullWord
  | .trueWord => .trueWord
  | .falseWord => .falseWord
  | .string hbody => .string hbody
  | .number htext hvalue hfollow => .number htext hvalue hfollow
  | .emptyList hclose => .emptyList hclose
  | .list hitems => .list hitems.succ
  | .emptyMap hclose => .emptyMap hclose
  | .map hmembers => .map hmembers.succ

theorem Items.succ {n : Nat} {s r : Bytes} {values : List Decoded} :
    Items stod unique n s values r → Items stod unique (n + 1) s values r
  | .last hblank hvalue hclose => .last hblank hvalue.succ hclose
  | .more hblank hvalue hcomma hrest => .more hblank hvalue.succ hcomma hrest.succ

theorem Members.succ {n : Nat} {s r : Bytes} {members : List (Bytes × Decoded)} :
    Members stod unique n s members r → Members stod unique (n + 1) s members r
  | .last hblank hkey hcolon hblank' hvalue hclose => .last hblank hkey hcolon hblank' hvalue.succ hclose
  | .more hblank hkey hcolon hblank' hvalue hcomma hrest hunique =>
    .more hblank hkey hcolon hblank' hvalue.succ hcomma hrest.succ hunique

end

end

/-- What a byte is escaped as: itself, a pair, or its code point. -/
theorem escapeByte_cases : ∀ c : UInt8,
    (escapeByte c = [c] ∧ c ≠ quote ∧ ¬ c < 0x20 ∧ c ≠ backslash) ∨
    (escapeByte c = [backslash, (escapeByte c).getD 1 0] ∧
      simpleEscape ((escapeByte c).getD 1 0) = some c) ∨
      (escapeByte c = backslash :: 'u'.toUInt8 :: zero ::
      zero :: [(escapeByte c).getD 4 0, (escapeByte c).getD 5 0] ∧
      hexDigit ((escapeByte c).getD 4 0) = some (c.toNat / 16) ∧
      hexDigit ((escapeByte c).getD 5 0) = some (c.toNat % 16) ∧ appendUtf8 c.toNat = [c]) :=
  forall_byte (by decide +kernel)

theorem stringBody_escapeByte {c : UInt8} {s out r : Bytes} (h : StringBody s out r) :
    StringBody (escapeByte c ++ s) (c :: out) r := by
  rcases escapeByte_cases c with ⟨heq, hquote, hcontrol, hescape⟩ | ⟨heq, hsimple⟩ | ⟨heq,
    hhigh, hlow, hutf8⟩
  · rw [heq]
    exact .raw hquote hcontrol hescape h
  · rw [heq]
    exact .escape hsimple h
  · have hlt := c.toNat_lt
    have hcode : ((0 * 16 + 0) * 16 + c.toNat / 16) * 16 + c.toNat % 16 = c.toNat := by omega
    have hhex : Hex4 (zero :: zero :: (escapeByte c).getD 4 0 :: (escapeByte c).getD 5 0 :: s)
        c.toNat s := by
      have hintro := Hex4.intro (s := s) (show hexDigit zero = some 0 by decide)
        (show hexDigit zero = some 0 by decide) hhigh hlow
      rwa [hcode] at hintro
    have hbody := StringBody.unicode hhex (by omega) h
    rw [hutf8] at hbody
    rw [heq]
    exact hbody

theorem stringBody_jsonEscape (s r : Bytes) : StringBody (s.flatMap escapeByte ++ quote :: r) s r := by
  induction s with
  | nil => exact .close
  | cons c s ih =>
    rw [List.flatMap_cons, List.append_assoc]
    exact stringBody_escapeByte ih

theorem jsonEscape_append (s r : Bytes) :
    jsonEscape s ++ r = quote :: (s.flatMap escapeByte ++ quote :: r) := by
  rw [jsonEscape, List.cons_append, List.append_assoc]
  rfl

theorem follow_of_mark {c : UInt8} {r : Bytes} (hc : c = comma ∨ c = closeBracket ∨
      c = closeBrace) : Follow [] [] (c :: r) := by
  intro d hd
  obtain rfl : c = d := Option.some.inj hd
  rcases hc with rfl | rfl | rfl
  all_goals exact ⟨rfl, fun _ _ => by decide, fun _ => rfl⟩

section
variable {stod : Bytes → Option Nat} {n : Nat}

/-- The text spells the value, whatever is behind it. -/
def Spelled (stod : Bytes → Option Nat) (n : Nat) (text : Bytes) (t : Decoded) : Prop :=
  ∀ r, Follow [] [] r → Spells stod False n (text ++ r) t r

theorem separated_items {encode : gc.Value → Except String Bytes} {P : gc.Value → Decoded → Prop}
    {vs : List gc.Value} {text : Bytes}
    (hencode : ∀ v ∈ vs, ∀ {text : Bytes}, encode v = .ok text → ∃ t, P v t ∧ Spelled stod n text t)
    (hne : vs ≠ []) (h : separated encode vs = .ok text) :
    ∃ ts, List.Forall₂ P vs ts ∧ ∀ r, Items stod False n (text ++ closeBracket :: r) ts r := by
  induction vs generalizing text with
  | nil => exact absurd rfl hne
  | cons v vs ih =>
    cases vs with
    | nil =>
      obtain ⟨t, ht, hspelled⟩ := hencode v List.mem_cons_self h
      refine ⟨[t], .cons ht .nil, fun r => ?_⟩
      exact .last (blank_refl _) (hspelled _ (follow_of_mark (.inr (.inl rfl)))) (blank_refl _)
    | cons v' vs =>
      obtain ⟨first, hfirst, h⟩ := bind_eq_ok.mp h
      obtain ⟨rest, hrest, h⟩ := bind_eq_ok.mp h
      cases Except.ok.inj h
      obtain ⟨t, ht, hspelled⟩ := hencode v List.mem_cons_self hfirst
      obtain ⟨ts, hts, hitems⟩ :=
        ih (fun v hv => hencode v (List.mem_cons_of_mem _ hv)) (List.cons_ne_nil _ _) hrest
      refine ⟨t :: ts, .cons ht hts, fun r => ?_⟩
      rw [List.append_assoc]
      exact .more (blank_refl _) (hspelled _ (follow_of_mark (.inl rfl))) (blank_refl _) (hitems r)

theorem separated_members {A : Type} {encode : A → Except String Bytes} {P : A → Bytes × Decoded →
      Prop} {vs : List A} {text : Bytes}
    (hencode : ∀ v ∈ vs, ∀ {text : Bytes}, encode v = .ok text →
      ∃ e text', text = jsonEscape e.1 ++ colon :: text' ∧ P v e ∧ Spelled stod n text' e.2)
    (hne : vs ≠ []) (h : separated encode vs = .ok text) :
    ∃ es, List.Forall₂ P vs es ∧ ∀ r, Members stod False n (text ++ closeBrace :: r) es r := by
  induction vs generalizing text with
  | nil => exact absurd rfl hne
  | cons v vs ih =>
    cases vs with
    | nil =>
      obtain ⟨⟨key, t⟩, text', rfl, ht, hspelled⟩ := hencode v List.mem_cons_self h
      refine ⟨[(key, t)], .cons ht .nil, fun r => ?_⟩
      rw [List.append_assoc, jsonEscape_append]
      exact .last (blank_refl _) (stringBody_jsonEscape key _) (blank_refl _) (blank_refl _)
        (hspelled _ (follow_of_mark (.inr (.inr rfl)))) (blank_refl _)
    | cons v' vs =>
      obtain ⟨first, hfirst, h⟩ := bind_eq_ok.mp h
      obtain ⟨rest, hrest, h⟩ := bind_eq_ok.mp h
      cases Except.ok.inj h
      obtain ⟨⟨key, t⟩, text', rfl, ht, hspelled⟩ := hencode v List.mem_cons_self hfirst
      obtain ⟨es, hes, hmembers⟩ :=
        ih (fun v hv => hencode v (List.mem_cons_of_mem _ hv)) (List.cons_ne_nil _ _) hrest
      refine ⟨(key, t) :: es, .cons ht hes, fun r => ?_⟩
      rw [List.append_assoc, List.append_assoc, jsonEscape_append]
      exact .more (blank_refl _) (stringBody_jsonEscape key _) (blank_refl _) (blank_refl _)
        (hspelled _ (follow_of_mark (.inl rfl))) (blank_refl _) (hmembers r) False.elim

end

theorem forall₂_parts {A B K V W : Type} {f : A → K} {g : B → K} {p : A → V} {q : B → W}
    {R : V → W → Prop} {as : List A}
    {bs : List B} (h : List.Forall₂ (fun a b => f a = g b ∧ R (p a) (q b)) as bs) :
    as.map f = bs.map g ∧ List.Forall₂ R (as.map p) (bs.map q) := by
  induction h with
  | nil => exact ⟨rfl, .nil⟩
  | cons hhead _ ih =>
    rw [List.map_cons, List.map_cons, hhead.1, ih.1]
    exact ⟨rfl, .cons hhead.2 ih.2⟩

section
variable {heap : Heap} {lib : StandardLibrary}
variable {a : Address} {text : Bytes} {v : gc.Value}

theorem contents_object (a : Address)
    (h : v ∈ (objectAt heap a).fields ∨ v ∈ (objectAt heap a).extraFields.entries.map Sigma.snd) :
    v ∈ contents heap (.box .object (some a)) := by
  rw [contents_box]
  refine List.mem_append_left _ (List.mem_append_left _ ?_)
  rw [objectFieldForEach_eq]
  exact List.mem_append.mpr h

theorem mem_contents_of_namedFields {field : String × gc.Value}
    (h : field ∈ namedFields (objectAt heap a)) :
    field.2 ∈ contents heap (.box .object (some a)) := by
  rcases List.mem_append.mp h with h | h
  · exact contents_object a (.inl (List.of_mem_zip h).2)
  · obtain ⟨field, hfield, rfl⟩ := List.mem_map.mp h
    exact contents_object a (.inr (List.mem_map_of_mem hfield))

theorem mem_contents_of_nativeStorage (h : nativeStorage (objectAt heap a) = some v) :
    v ∈ contents heap (.box .object (some a)) := by
  obtain ⟨-, h⟩ := Option.ite_none_right_eq_some.mp h
  rw [ObjectFields.objectFieldLookup] at h
  split at h
  · exact contents_object a (.inl (List.mem_of_getElem? h))
  · exact contents_object a (.inr (List.mem_map.mpr ⟨⟨"__native", v⟩, AList.mem_lookup_iff.mp h, rfl⟩))

theorem mem_contents_of_entry {entry : gc.Value × gc.Value} (h : entry ∈ (mapAt heap a).entries) :
    entry.2 ∈ contents heap (.box .map (some a)) := by
  rw [contents_map]
  exact List.mem_flatMap.mpr ⟨entry, h, List.mem_cons_of_mem _ List.mem_cons_self⟩

variable {n : Nat} {encode : gc.Value → Except String Bytes}

/-- Members that are separated are those of a map, also if there are none. -/
theorem spelled_members {A : Type} {encode : A → Except String Bytes} {P : A → Bytes × Decoded → Prop}
    {stod : Bytes → Option Nat} {vs : List A} (hencode : ∀ v ∈ vs, ∀ {text : Bytes}, encode v = .ok text →
      ∃ e text', text = jsonEscape e.1 ++ colon :: text' ∧ P v e ∧ Spelled stod n text' e.2)
    (h : separated encode vs = .ok text) :
    ∃ es, List.Forall₂ P vs es ∧
      Spelled stod (n + 1) (openBrace :: (text ++ [closeBrace])) (.map es) := by
  cases vs with
  | nil =>
    cases Except.ok.inj h
    exact ⟨[], .nil, fun r _ => .emptyMap (blank_refl _)⟩
  | cons v vs =>
    obtain ⟨es, hes, hmembers⟩ := separated_members hencode (List.cons_ne_nil v vs) h
    refine ⟨es, hes, fun r _ => ?_⟩
    rw [List.cons_append, List.append_assoc]
    exact .map (hmembers r)

theorem encodeList_spells
    (hencode : ∀ v ∈ contents heap (.box .list (some a)), ∀ {text : Bytes}, encode v = .ok text →
      ∃ t, Reads heap lib v t ∧ Spelled lib.stod n text t)
    (h : encodeBox heap encode ⟨.list, a⟩ = .ok text) :
    ∃ t, Reads heap lib (.box .list (some a)) t ∧ Spelled lib.stod (n + 1) text t := by
  obtain ⟨texts, htexts, h⟩ := bind_eq_ok.mp h
  cases Except.ok.inj h
  rw [contents_list] at hencode
  by_cases hnil : (listAt heap a).items = []
  · rw [hnil] at htexts
    cases Except.ok.inj htexts
    exact ⟨.list [], .list (hnil ▸ .nil), fun r _ => .emptyList (blank_refl _)⟩
  · obtain ⟨ts, hts, hitems⟩ := separated_items hencode hnil htexts
    refine ⟨.list ts, .list hts, fun r _ => ?_⟩
    rw [List.cons_append, List.append_assoc]
    exact .list (hitems r)

theorem encodeMap_spells
    (hencode : ∀ v ∈ contents heap (.box .map (some a)), ∀ {text : Bytes}, encode v = .ok text →
      ∃ t, Reads heap lib v t ∧ Spelled lib.stod n text t)
    (h : encodeBox heap encode ⟨.map, a⟩ = .ok text) :
    ∃ t, Reads heap lib (.box .map (some a)) t ∧ Spelled lib.stod (n + 1) text t := by
  obtain ⟨texts, htexts, h⟩ := bind_eq_ok.mp h
  cases Except.ok.inj h
  have hentry : ∀ entry ∈ (mapAt heap a).entries, ∀ {text : Bytes},
      encodeEntry encode entry = .ok text → ∃ e : Bytes × Decoded, ∃ text',
      text = jsonEscape e.1 ++ colon :: text' ∧
      (entry.1 = .string e.1 ∧ Reads heap lib entry.2 e.2) ∧ Spelled lib.stod n text' e.2 := by
    intro entry hmem text htext
    have hvalue := @hencode entry.2 (mem_contents_of_entry hmem)
    unfold encodeEntry at htext
    split at htext
    · next key value =>
      obtain ⟨text', htext', heq⟩ := bind_eq_ok.mp htext
      cases Except.ok.inj heq
      obtain ⟨t, ht, hspelled⟩ := hvalue htext'
      exact ⟨(key, t), text', rfl, ⟨rfl, ht⟩, hspelled⟩
    · nomatch htext
  obtain ⟨es, hes, hspelled⟩ := spelled_members hentry htexts
  obtain ⟨hkeys, hvalues⟩ := forall₂_parts hes
  exact ⟨.map es, .map hkeys hvalues, hspelled⟩

theorem encodeObject_spells
    (hencode : ∀ v ∈ contents heap (.box .object (some a)), ∀ {text : Bytes}, encode v = .ok text →
      ∃ t, Reads heap lib v t ∧ Spelled lib.stod n text t)
    (h : encodeBox heap encode ⟨.object, a⟩ = .ok text) :
    ∃ t, Reads heap lib (.box .object (some a)) t ∧ Spelled lib.stod (n + 1) text t := by
  rw [encodeBox] at h
  split at h
  · next native hnative =>
    obtain ⟨t, ht, hspelled⟩ := hencode native (mem_contents_of_nativeStorage hnative) h
    exact ⟨t, .native hnative ht, fun r hr => (hspelled r hr).succ⟩
  · next hnative =>
    obtain ⟨texts, htexts, h⟩ := bind_eq_ok.mp h
    cases Except.ok.inj h
    have hfield : ∀ field ∈ namedFields (objectAt heap a), ∀ {text : Bytes},
        encodeField encode field = .ok text → ∃ e : Bytes × Decoded, ∃ text',
        text = jsonEscape e.1 ++ colon :: text' ∧
        (field.1.toUTF8.toList = e.1 ∧ Reads heap lib field.2 e.2) ∧ Spelled lib.stod n text' e.2 := by
      intro field hmem text htext
      obtain ⟨text', htext', heq⟩ := bind_eq_ok.mp htext
      cases Except.ok.inj heq
      obtain ⟨t, ht, hspelled⟩ := hencode field.2 (mem_contents_of_namedFields hmem) htext'
      exact ⟨(field.1.toUTF8.toList, t), text', rfl, ⟨rfl, ht⟩, hspelled⟩
    obtain ⟨es, hes, hspelled⟩ := spelled_members hfield htexts
    obtain ⟨hkeys, hvalues⟩ := forall₂_parts hes
    exact ⟨.map es, .object hnative hkeys hvalues, hspelled⟩

/-- The library keeps its promise for the doubles within the value. -/
def ConformsWithin (heap : Heap) (lib : StandardLibrary) (v : gc.Value) : Prop :=
  ∀ bits, Within heap (.double bits) v → isFinite bits = true → fabs bits ≠ 0 → lib.Conforms bits

theorem ConformsWithin.of_mem {v u : gc.Value} (h : ConformsWithin heap lib v) (hu : u ∈ contents heap v) :
    ConformsWithin heap lib u := fun bits hwithin => h bits (hwithin.of_mem hu)

/-- What `encodeValue` does itself. -/
theorem encodeValue_spells {encodeBox : BoxId → Except String Bytes}
    (hbox : ∀ kind a, v = .box kind (some a) → encodeBox ⟨kind, a⟩ = .ok text → ∃ t,
      Reads heap lib (.box kind (some a)) t ∧ Spelled lib.stod n text t)
    (hlib : ConformsWithin heap lib v) (h : encodeValue lib encodeBox v = .ok text) :
    ∃ t, Reads heap lib v t ∧ Spelled lib.stod n text t := by
  unfold encodeValue at h
  split at h
  · cases Except.ok.inj h
    exact ⟨.nil, .nil, fun r _ => .nullWord⟩
  · next held =>
    refine ⟨.bool held, .bool, fun r _ => ?_⟩
    cases held with
    | true =>
      cases Except.ok.inj h
      exact .trueWord
    | false =>
      cases Except.ok.inj h
      exact .falseWord
  · cases Except.ok.inj h
    exact ⟨_, .int, fun r hr => spells_int hr⟩
  · next bits =>
    split at h
    · next hfinite =>
      cases Except.ok.inj h
      exact ⟨_, .double, fun r hr =>
        spells_double (fun hzero => hlib bits (within_refl _) hfinite hzero) hr⟩
    · nomatch h
  · next held =>
    cases Except.ok.inj h
    refine ⟨.string held, .string, fun r _ => ?_⟩
    rw [jsonEscape_append]
    exact .string (stringBody_jsonEscape held r)
  · nomatch h
  · exact hbox _ _ rfl h
  · cases Except.ok.inj h
    exact ⟨.nil, .null, fun r _ => .nullWord⟩
  · nomatch h

/-- The text that is written for a value spells what the value is read as. -/
theorem toJsonInner_spells {room : Nat} {active : List BoxId}
    (h : toJsonInner lib heap room active v = .ok text) (hlib : ConformsWithin heap lib v) :
    ∃ t, Reads heap lib v t ∧ Spelled lib.stod room text t := by
  induction room generalizing active v text with
  | zero =>
    rw [toJsonInner] at h
    refine encodeValue_spells (fun kind a _ hbox => ?_) hlib h
    split at hbox <;> nomatch hbox
  | succ room ih =>
    rw [toJsonInner] at h
    refine encodeValue_spells (fun kind a hv hbox => ?_) hlib h
    subst hv
    split at hbox
    · nomatch hbox
    · have hencode : ∀ u ∈ contents heap (.box kind (some a)), ∀ {text : Bytes},
          toJsonInner lib heap room (⟨kind, a⟩ :: active) u = .ok text → ∃ t, Reads heap lib u t ∧
          Spelled lib.stod room text t :=
        fun u hu {_} htext => ih htext (hlib.of_mem hu)
      cases kind with
      | list => exact encodeList_spells hencode hbox
      | map => exact encodeMap_spells hencode hbox
      | object => exact encodeObject_spells hencode hbox
      | closure => nomatch hbox

end

end zl.vm.json
