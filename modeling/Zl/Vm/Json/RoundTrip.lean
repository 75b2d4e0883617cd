import Zl.Vm.Json.Written

open zl.collections zl.vm.gc zl.vm.native.collections

namespace zl.vm.json

section
variable {heap : Heap} {lib : StandardLibrary}

theorem DenotesAll.length_eq {n : Nat} {vs : List gc.Value} {ts : List Decoded}
    (h : DenotesAll heap n vs ts) :
    vs.length = ts.length := by
  induction vs generalizing ts with
  | nil =>
    cases h with
    | nil => rfl
  | cons v vs ih =>
    cases h with
    | cons _ htail => rw [List.length_cons, List.length_cons, ih htail]

theorem string_injective : Function.Injective gc.Value.string := fun _ _ h => by
  cases h
  rfl

theorem keys_eq {es es' : List (Bytes × Decoded)}
    (h : (es.map fun e => gc.Value.string e.1) = es'.map fun e => gc.Value.string e.1) :
    es.map Prod.fst = es'.map Prod.fst := by
  have hmap (es : List (Bytes × Decoded)) : (es.map fun e => gc.Value.string e.1) =
      (es.map Prod.fst).map gc.Value.string :=
    (List.map_map ..).symm
  rw [hmap, hmap] at h
  exact List.map_injective_iff.mpr string_injective h

theorem eq_of_keys_values {es es' : List (Bytes × Decoded)} (hkeys : es.map Prod.fst = es'.map Prod.fst)
    (hvalues : es.map Prod.snd = es'.map Prod.snd) : es = es' := by
  exact (List.zip_of_prod hkeys hvalues).trans (List.zip_of_prod rfl rfl).symm

mutual

theorem Denotes.unique {n : Nat} {v : gc.Value} {t : Decoded} :
    Denotes heap n v t → ∀ {k : Nat} {t' : Decoded}, Denotes heap k v t' → t = t'
  | .nil, _, _, .nil => rfl
  | .bool, _, _, .bool => rfl
  | .int, _, _, .int => rfl
  | .double _, _, _, .double _ => rfl
  | .string, _, _, .string => rfl
  | .list hitems, _, _, .list hitems' => congrArg Decoded.list (hitems.unique hitems')
  | .map hkeys hvalues, _, _, .map hkeys' hvalues' =>
    congrArg Decoded.map (eq_of_keys_values (keys_eq (hkeys.symm.trans hkeys')) (hvalues.unique hvalues'))

theorem DenotesAll.unique {n : Nat} {vs : List gc.Value} {ts : List Decoded} :
    DenotesAll heap n vs ts → ∀ {k : Nat} {ts' : List Decoded}, DenotesAll heap k vs ts' → ts = ts'
  | .nil, _, _, .nil => rfl
  | .cons hhead htail, _, _, .cons hhead' htail' =>
      congrArg₂ List.cons (hhead.unique hhead') (htail.unique htail')

end

/-- A double is told by the number it is spelled as if and only if the number is its value. -/
theorem same_readDouble_iff {bits : Nat} (h : fabs bits ≠ 0 → lib.Conforms bits) :
    Same (.double bits) (readDouble lib bits) ↔ Faithful heap lib (.double bits) := by
  have hsign {magnitude : Nat} :
      exactValue bits = ((if signbit bits then -(magnitude : Int) else magnitude : Int) : ℚ) ↔
        exactMagnitude bits = magnitude := by
    rw [exactValue]
    cases signbit bits with
    | true => simp
    | false => simp
  rw [readDouble, Faithful]
  cases hwhole : wholeSpelling lib bits with
  | none => exact ⟨fun _ _ h => (by cases h), fun _ => .double⟩
  | some magnitude =>
    have hlt : magnitude < 10 ^ 17 := by
      rw [wholeSpelling] at hwhole
      split at hwhole
      · cases hwhole
        decide
      · next hzero =>
        obtain ⟨⟨digits, exponent⟩, hshortest, hsignificant⟩ := shortestDigits_ok (h hzero)
        rw [hshortest] at hwhole
        obtain ⟨hform, hmagnitude⟩ := Option.ite_none_right_eq_some.mp hwhole
        cases hmagnitude
        exact wholeForm_lt (significant_digitsErase hsignificant).1 hform
    have hint := @toInt_ofInt_of_lt (signbit bits) magnitude hlt
    constructor
    · rintro (_ | _ | _ | _ | hvalue)
      rw [hint] at hvalue
      exact fun _ heq => Option.some.inj heq ▸ hsign.mp hvalue
    · intro hfaithful
      refine .whole ?_
      rw [hint]
      exact hsign.mpr (hfaithful magnitude rfl)

theorem forall_contents_map_iff {a : Address} {entries : List (Bytes × Decoded)} {P : gc.Value → Prop}
    (hkeys : (mapAt heap a).entries.map Prod.fst = entries.map fun e => .string e.1)
    (hstring : ∀ key, P (.string key)) :
    (∀ u ∈ contents heap (.box .map (some a)), P u) ↔ ∀ u ∈ (mapAt heap a).entries.map Prod.snd, P u := by
  constructor
  · intro h u hu
    obtain ⟨entry, hentry, rfl⟩ := List.mem_map.mp hu
    exact h entry.2 (mem_contents_of_entry hentry)
  · intro h u hu
    rw [contents_map] at hu
    obtain ⟨entry, hentry, hu⟩ := List.mem_flatMap.mp hu
    simp only [List.mem_cons, List.not_mem_nil, or_false] at hu
    rcases hu with rfl | rfl
    · have hkey := List.mem_map_of_mem (f := Prod.fst) hentry
      rw [hkeys] at hkey
      obtain ⟨e, -, he⟩ := List.mem_map.mp hkey
      rw [← he]
      exact hstring e.1
    · exact h _ (List.mem_map_of_mem hentry)

theorem faithful_scalar {v : gc.Value} (hcontents : contents heap v = []) :
    (∀ w, Within heap w v → Faithful heap lib w) ↔ Faithful heap lib v := by
  rw [forall_within_iff, hcontents]
  exact ⟨And.left, fun h => ⟨h, nofun⟩⟩

mutual

/-- What is told by the text of a logical value is this value if and only if nothing within it was
    lost. -/
theorem same_iff {n : Nat} {v : gc.Value} {t : Decoded} : Denotes heap n v t → ConformsWithin heap lib v →
    ∀ {t' : Decoded}, Reads heap lib v t' → (Same t t' ↔ ∀ w, Within heap w v → Faithful heap lib w)
  | .nil, _, _, .nil => iff_of_true .nil ((faithful_scalar rfl).mpr trivial)
  | .bool, _, _, .bool => iff_of_true .bool ((faithful_scalar rfl).mpr trivial)
  | .int, _, _, .int => iff_of_true .int ((faithful_scalar rfl).mpr trivial)
  | .double hfinite, hlib, _, .double =>
    (same_readDouble_iff fun hzero => hlib _ (within_refl _) hfinite hzero).trans
      (faithful_scalar rfl).symm
  | .string, _, _, .string => iff_of_true .string ((faithful_scalar rfl).mpr trivial)
  | @Denotes.list _ _ a items hitems, hlib, _, @Reads.list _ _ _ items' hread => by
    rw [forall_within_iff, contents_list]
    have hlength := hitems.length_eq
    have hlength' := hread.length_eq
    rw [length_logicalItems, listLogicalSize] at hlength
    have hle := (listAt heap a).frontIndex_le
    -- Without a consumed prefix the text tells the items that the list holds.
    have hrest (hzero : (listAt heap a).frontIndex = 0) : List.Forall₂ Same items items' ↔
        ∀ u ∈ (listAt heap a).items, ∀ w, Within heap w u → Faithful heap lib w := by
      have hplain : logicalItems (listAt heap a) = (listAt heap a).items := by
        rw [logicalItems, hzero, List.drop_zero]
      rw [← hplain] at hread
      rw [← hplain]
      refine same_all_iff hitems (fun u hu => hlib.of_mem ?_) hread
      rwa [contents_list, ← hplain]
    constructor
    · rintro (_ | _ | _ | _ | _ | _ | hsame)
      have hsameLength := hsame.length_eq
      have hzero : (listAt heap a).frontIndex = 0 := by omega
      exact ⟨hzero, (hrest hzero).mp hsame⟩
    · exact fun ⟨hzero, hall⟩ => .list ((hrest hzero).mpr hall)
  | @Denotes.map _ _ a entries hkeys hvalues, hlib, _, @Reads.map _ _ _ entries' hkeys' hread => by
    have hsub : ∀ u ∈ (mapAt heap a).entries.map Prod.snd, ConformsWithin heap lib u := by
      intro u hu
      obtain ⟨entry, hentry, rfl⟩ := List.mem_map.mp hu
      exact hlib.of_mem (mem_contents_of_entry hentry)
    rw [forall_within_iff,
      forall_contents_map_iff hkeys fun key => (faithful_scalar (v := .string key) rfl).mpr trivial,
      ← same_all_iff hvalues hsub hread]
    constructor
    · rintro (_ | _ | _ | _ | _ | _ | _ | ⟨-, hsame⟩)
      exact ⟨trivial, hsame⟩
    · exact fun h => .map (keys_eq (hkeys.symm.trans hkeys')) h.2

theorem same_all_iff {n : Nat} {vs : List gc.Value} {ts : List Decoded} : DenotesAll heap n vs ts →
    (∀ v ∈ vs, ConformsWithin heap lib v) → ∀ {ts' : List Decoded}, List.Forall₂ (Reads heap lib) vs ts' →
    (List.Forall₂ Same ts ts' ↔ ∀ v ∈ vs, ∀ w, Within heap w v → Faithful heap lib w)
  | .nil, _, _, .nil => iff_of_true .nil nofun
  | .cons hhead htail, hlib, _, .cons hread hreads => by
    rw [List.forall₂_cons, List.forall_mem_cons, same_iff hhead (hlib _ List.mem_cons_self) hread,
      same_all_iff htail (fun v hv => hlib v (List.mem_cons_of_mem _ hv)) hreads]

end

theorem separated_ok {A : Type} {encode : A → Except String Bytes} {l : List A}
    (h : ∀ a ∈ l, ∃ text, encode a = .ok text) :
    ∃ text, separated encode l = .ok text := by
  induction l with
  | nil => exact ⟨[], rfl⟩
  | cons a rest ih =>
    obtain ⟨text, htext⟩ := h a List.mem_cons_self
    obtain ⟨texts, htexts⟩ := ih fun b hb => h b (List.mem_cons_of_mem _ hb)
    cases rest with
    | nil => exact ⟨text, htext⟩
    | cons b rest => exact ⟨text ++ comma :: texts,
        bind_eq_ok.mpr ⟨text, htext, bind_eq_ok.mpr ⟨texts, htexts, rfl⟩⟩⟩

/-- What a box on the way denotes is larger than what it leads to. -/
def Above (heap : Heap) (active : List BoxId) (size : Nat) : Prop :=
  ∀ id ∈ active, ∀ {n : Nat} {t : Decoded}, Denotes heap n (.box id.kind (some id.address)) t →
    size < sizeOf t

theorem Above.cons {active : List BoxId} (id : BoxId) {n size : Nat} {t : Decoded}
    (h : Above heap active (sizeOf t))
    (ht : Denotes heap n (.box id.kind (some id.address)) t) (hsize : size < sizeOf t) :
    Above heap (id :: active) size := by
  intro id' hid' k t' ht'
  rcases List.mem_cons.mp hid' with rfl | hid'
  · rwa [ht'.unique ht]
  · exact Nat.lt_trans hsize (h id' hid' ht')

theorem Above.not_mem {active : List BoxId} (id : BoxId) {n : Nat} {t : Decoded}
    (h : Above heap active (sizeOf t))
    (ht : Denotes heap n (.box id.kind (some id.address)) t) : id ∉ active :=
  fun hid => Nat.lt_irrefl _ (h id hid ht)

theorem sizeOf_values_le (entries : List (Bytes × Decoded)) :
    sizeOf (entries.map Prod.snd) ≤ sizeOf entries := by
  induction entries with
  | nil => exact Nat.le_refl _
  | cons e entries ih =>
    obtain ⟨key, t⟩ := e
    simp only [List.map_cons, List.cons.sizeOf_spec, Prod.mk.sizeOf_spec]
    omega

mutual

/-- Nothing but a consumed prefix can be in the way of a logical value. -/
theorem toJsonInner_ok {n : Nat} {v : gc.Value} {t : Decoded} : Denotes heap n v t →
    (∀ w, Within heap w v → Faithful heap lib w) → ∀ {active : List BoxId}, Above heap active (sizeOf t) →
    ∃ text, toJsonInner lib heap n active v = .ok text
  | .nil, _, _, _ => by cases n <;> exact ⟨_, rfl⟩
  | .bool, _, _, _ => by cases n <;> exact ⟨_, rfl⟩
  | .int, _, _, _ => by cases n <;> exact ⟨_, rfl⟩
  | .double hfinite, _, _, _ => by cases n <;> exact ⟨_, if_pos hfinite⟩
  | .string, _, _, _ => by cases n <;> exact ⟨_, rfl⟩
  | @Denotes.list _ n a items hitems, hfaithful, active, habove => by
    have hdenotes : Denotes heap (n + 1) (.box .list (some a)) (.list items) := .list hitems
    rw [forall_within_iff, contents_list] at hfaithful
    have hplain : logicalItems (listAt heap a) = (listAt heap a).items := by
      rw [logicalItems, show (listAt heap a).frontIndex = 0 from hfaithful.1, List.drop_zero]
    rw [hplain] at hitems
    have hsize : sizeOf items < sizeOf (Decoded.list items) := by rw [Decoded.list.sizeOf_spec]; omega
    have hall := toJsonInner_all_ok hitems hfaithful.2 (habove.cons ⟨.list, a⟩ hdenotes hsize)
    obtain ⟨texts, htexts⟩ := separated_ok hall
    refine ⟨openBracket :: (texts ++ [closeBracket]), ?_⟩
    rw [toJsonInner]
    refine (if_neg (habove.not_mem ⟨.list, a⟩ hdenotes)).trans ?_
    exact bind_eq_ok.mpr ⟨texts, htexts, rfl⟩
  | @Denotes.map _ n a entries hkeys hvalues, hfaithful, active, habove => by
    have hdenotes : Denotes heap (n + 1) (.box .map (some a)) (.map entries) := .map hkeys hvalues
    rw [forall_within_iff,
      forall_contents_map_iff hkeys fun key => (faithful_scalar (v := .string key) rfl).mpr trivial]
      at hfaithful
    have hsize : sizeOf (entries.map Prod.snd) < sizeOf (Decoded.map entries) := by
      have hle := sizeOf_values_le entries
      rw [Decoded.map.sizeOf_spec]
      omega
    have hall := toJsonInner_all_ok hvalues hfaithful.2 (habove.cons ⟨.map, a⟩ hdenotes hsize)
    have hentries : ∀ entry ∈ (mapAt heap a).entries,
        ∃ text, encodeEntry (toJsonInner lib heap n (⟨.map, a⟩ :: active)) entry = .ok text := by
      intro entry hentry
      have hkey := List.mem_map_of_mem (f := Prod.fst) hentry
      rw [hkeys] at hkey
      obtain ⟨e, -, he⟩ := List.mem_map.mp hkey
      obtain ⟨text, htext⟩ := hall entry.2 (List.mem_map_of_mem hentry)
      obtain ⟨key, value⟩ := entry
      cases he
      exact ⟨_, bind_eq_ok.mpr ⟨text, htext, rfl⟩⟩
    obtain ⟨texts, htexts⟩ := separated_ok hentries
    refine ⟨openBrace :: (texts ++ [closeBrace]), ?_⟩
    rw [toJsonInner]
    refine (if_neg (habove.not_mem ⟨.map, a⟩ hdenotes)).trans ?_
    exact bind_eq_ok.mpr ⟨texts, htexts, rfl⟩

theorem toJsonInner_all_ok {n : Nat} {vs : List gc.Value} {ts : List Decoded} : DenotesAll heap n vs ts →
    (∀ v ∈ vs, ∀ w, Within heap w v → Faithful heap lib w) → ∀ {active : List BoxId},
    Above heap active (sizeOf ts) → ∀ v ∈ vs, ∃ text, toJsonInner lib heap n active v = .ok text
  | .nil, _, _, _ => nofun
  | @DenotesAll.cons _ _ _ t _ ts hhead htail, hfaithful, active, habove => by
    have hhead' : Above heap active (sizeOf t) := fun id hid _ _ ht => by
      have hlt := habove id hid ht
      rw [List.cons.sizeOf_spec] at hlt
      omega
    have htail' : Above heap active (sizeOf ts) := fun id hid _ _ ht => by
      have hlt := habove id hid ht
      rw [List.cons.sizeOf_spec] at hlt
      omega
    obtain ⟨hv, hvs⟩ := List.forall_mem_cons.mp hfaithful
    exact List.forall_mem_cons.mpr ⟨toJsonInner_ok hhead hv hhead', toJsonInner_all_ok htail hvs htail'⟩

end

/-- The value is encoded, and what is decoded from the text is the same logical value. -/
def RoundTrips (lib : StandardLibrary) (heap : Heap) (v : gc.Value) (t : Decoded) : Prop :=
  ∃ text t', serializeEncode lib heap v = .ok text ∧ serializeDecode lib.stod text = .ok t' ∧ Same t t'

theorem roundTrips_iff {v : gc.Value} {t : Decoded} (hv : Denotes heap kMaxValueNestingDepth v t)
    (hlib : ConformsWithin heap lib v) :
    RoundTrips lib heap v t ↔ ∀ w, Within heap w v → Faithful heap lib w := by
  -- What is decoded is what the text says.
  have hdecode {text : Bytes} (htext : serializeEncode lib heap v = .ok text) :
      ∃ t', Reads heap lib v t' ∧ serializeDecode lib.stod text = .ok t' := by
    obtain ⟨t', hreads, hspelled⟩ := toJsonInner_spells htext hlib
    have hspells := hspelled [] nofun
    rw [List.append_nil] at hspells
    exact ⟨t', hreads, serializeDecode_eq ⟨text, [], blank_refl _, hspells, blank_refl _⟩⟩
  constructor
  · rintro ⟨text, t', htext, hparsed, hsame⟩
    obtain ⟨t'', hreads, hparsed'⟩ := hdecode htext
    rw [hparsed] at hparsed'
    cases Except.ok.inj hparsed'
    exact (same_iff hv hlib hreads).mp hsame
  · intro hfaithful
    have habove : Above heap [] (sizeOf t) := nofun
    obtain ⟨text, htext⟩ := toJsonInner_ok hv hfaithful habove
    obtain ⟨t', hreads, hparsed⟩ := hdecode htext
    exact ⟨text, t', htext, hparsed, (same_iff hv hlib hreads).mpr hfaithful⟩

end

/-- Encoding and decoding give back a logical value exactly when no list within it has a consumed
    prefix and no double within it is spelled by a whole number other than its value. The maps that
    decoding returns have no equal keys exactly when no object of the text repeats a key. -/
theorem serialize_round_trip (lib : StandardLibrary) :
    (∀ (heap : Heap) (v : gc.Value) (t : Decoded), Denotes heap kMaxValueNestingDepth v t →
      ConformsWithin heap lib v → (RoundTrips lib heap v t ↔ ∀ w, Within heap w v →
      Faithful heap lib w)) ∧ ∀ (s : Bytes) (value : Decoded),
      serializeDecode lib.stod s = .ok value →
      (value.DistinctKeys ↔ ∃ w, Text lib.stod True kMaxNestingDepth s w) :=
  ⟨fun _ _ _ hv hlib => roundTrips_iff hv hlib, fun _ _ hvalue => distinctKeys_iff_text hvalue⟩

def threeHalves : Nat := 0x3FF8000000000000

def sampleLibrary : StandardLibrary where
  toChars _ := some (['1', '.', '5', 'e', '+', '0', '0'].map Char.toUInt8)
  snprintf precision _ :=
    match precision with
    | 0 => some (['2', 'e', '+', '0', '0'].map Char.toUInt8)
    | k + 1 => some (['1', '.', '5'].map Char.toUInt8 ++
        (List.replicate k zero ++ ['e', '+', '0', '0'].map Char.toUInt8))
  strtod text :=
    if text = ['2', 'e', '+', '0', '0'].map Char.toUInt8 then 0x4000000000000000 else threeHalves
  stod text := if text = ['1', '.', '5'].map Char.toUInt8 then some threeHalves else none
  longForm _ := ['1', '.', '5'].map Char.toUInt8

def sampleHeap (list : ListBox) : Heap :=
  { boxes := AList.insert (⟨.list, 0⟩ : BoxId) list ∅ }

def sampleList : ListBox := { items := [.double threeHalves, .string [quote]] }

theorem conforms_sampleLibrary : sampleLibrary.Conforms threeHalves where
  toChars_scientific text htext := by
    rw [← Option.some.inj htext]
    exact ⟨'1'.toUInt8, ['5'.toUInt8],
      ['+', '0', '0'].map Char.toUInt8, by decide +kernel, by decide +kernel, by decide +kernel, .inr rfl⟩
  snprintf_scientific precision _ := by
    cases precision with
    | zero => exact ⟨_, rfl, '2'.toUInt8, [],
        ['+', '0', '0'].map Char.toUInt8, by decide +kernel, by decide +kernel,
          List.forall_mem_nil _, .inl rfl⟩
    | succ k =>
      refine ⟨_, rfl, '1'.toUInt8, '5'.toUInt8 :: List.replicate k zero, ['+', '0', '0'].map Char.toUInt8,
      by decide +kernel, by decide +kernel,
      List.forall_mem_cons.mpr ⟨by decide +kernel, fun c hc => ?_⟩, .inr rfl⟩
      rw [List.eq_of_mem_replicate hc]
      rfl
  strtod_snprintf text htext := by
    rw [← Option.some.inj htext]
    decide +kernel
  stod_spelling := by decide +kernel

theorem serialize_round_trip_sample :
    RoundTrips sampleLibrary (sampleHeap sampleList) (.box .list (some 0))
      (.list [.double threeHalves, .string [quote]]) ∧ ∃ w,
      Text sampleLibrary.stod True kMaxNestingDepth
      (['\x7b', '"', 'a', '"', ':', '1', '\x7d'].map Char.toUInt8) w := by
  have hitems : ∀ u ∈ contents (sampleHeap sampleList) (.box .list (some 0)),
      u = .double threeHalves ∨ u = .string [quote] := by
    intro u hu
    rw [contents_list] at hu
    simpa using (show u ∈ [gc.Value.double threeHalves, gc.Value.string [quote]] from hu)
  have hlib : ConformsWithin (sampleHeap sampleList) sampleLibrary (.box .list (some 0)) := by
    intro bits hwithin _ _
    obtain heq | ⟨u, hu, hwithin⟩ := within_iff.mp hwithin
    · cases heq
    · rcases hitems u hu with rfl | rfl
      · cases within_scalar rfl hwithin
        exact conforms_sampleLibrary
      · cases within_scalar rfl hwithin
  have hdenotes : Denotes (sampleHeap sampleList) kMaxValueNestingDepth (.box .list (some 0))
      (.list [.double threeHalves, .string [quote]]) :=
    .list (show DenotesAll _ _ [.double threeHalves, .string [quote]] _ from .cons (.double rfl)
      (.cons .string .nil))
  refine ⟨((serialize_round_trip sampleLibrary).1 _ _ _ hdenotes hlib).mpr ?_, ?_⟩
  · rw [forall_within_iff]
    refine ⟨rfl, fun u hu => ?_⟩
    rcases hitems u hu with rfl | rfl
    · refine (faithful_scalar rfl).mpr fun magnitude hmagnitude => ?_
      rw [show wholeSpelling sampleLibrary threeHalves = none by decide +kernel] at hmagnitude
      cases hmagnitude
    · exact (faithful_scalar rfl).mpr trivial
  · have hdecode : serializeDecode sampleLibrary.stod
      (['\x7b', '"', 'a', '"', ':', '1', '\x7d'].map Char.toUInt8) =
      .ok (.map [(['a'.toUInt8], .int 1)]) := by rfl
    refine ((serialize_round_trip sampleLibrary).2 _ _ hdecode).mp
      (distinctKeys_map (by decide) fun e he => ?_)
    cases List.mem_singleton.mp he
    exact fun _ hwithin => by cases hwithin

/-- The numbers 1, 2 and 3 were put into a queue, and the 1 was taken. -/
def sampleQueue : ListBox := { items := [.int 1, .int 2, .int 3], frontIndex := 1 }

/-- The queue that holds 2 and 3 is decoded as a list of three, and an object that repeats a key as a
    map that does. -/
theorem queue_prefix_encoded :
    Reached sampleQueue ∧
      Denotes (sampleHeap sampleQueue) kMaxValueNestingDepth (.box .list (some 0))
      (.list [.int 2, .int 3]) ∧ ConformsWithin (sampleHeap sampleQueue) sampleLibrary
      (.box .list (some 0)) ∧ ¬ RoundTrips sampleLibrary (sampleHeap sampleQueue)
      (.box .list (some 0)) (.list [.int 2, .int 3]) ∧ ∃ value, serializeDecode sampleLibrary.stod
        (['\x7b', '"', 'a', '"', ':', '1', ',', '"', 'a', '"', ':', '2', '\x7d'].map Char.toUInt8) =
          .ok value ∧ ¬ value.DistinctKeys := by
  have hqueue : queueDequeue (queueEnqueue (queueEnqueue (queueEnqueue {} (.int 1)) (.int 2)) (.int 3)) =
      some (.int 1, sampleQueue) := rfl
  refine ⟨.dequeue (.enqueue _ (.enqueue _ (.enqueue _ .new))) hqueue, ?_, ?_, ?_, ?_⟩
  · exact .list (show DenotesAll _ _ [.int 2, .int 3] _ from .cons .int (.cons .int .nil))
  · intro bits hwithin _ _
    obtain heq | ⟨u, hu, hwithin⟩ := within_iff.mp hwithin
    · cases heq
    · rw [contents_list] at hu
      have hmem : u ∈ [gc.Value.int 1, gc.Value.int 2, gc.Value.int 3] := hu
      simp only [List.mem_cons, List.not_mem_nil, or_false] at hmem
      rcases hmem with rfl | rfl | rfl <;> cases within_scalar rfl hwithin
  · rintro ⟨text, t', htext, hparsed, hsame⟩
    have hwritten : serializeEncode sampleLibrary (sampleHeap sampleQueue) (.box .list (some 0)) =
        .ok (['[', '1', ',', '2', ',', '3', ']'].map Char.toUInt8) := by rfl
    rw [hwritten] at htext
    cases Except.ok.inj htext
    have hdecoded : serializeDecode sampleLibrary.stod
      (['[', '1', ',', '2', ',', '3', ']'].map Char.toUInt8) =
      .ok (.list [.int 1, .int 2, .int 3]) := by rfl
    rw [hdecoded] at hparsed
    cases Except.ok.inj hparsed
    cases hsame with
    | list hitems => cases hitems.length_eq
  · refine ⟨.map [(['a'.toUInt8], .int 1), (['a'.toUInt8], .int 2)], by rfl, fun hkeys => ?_⟩
    exact absurd hkeys.keys (by decide)

end zl.vm.json
