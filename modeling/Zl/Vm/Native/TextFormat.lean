import Zl.Vm.Json.Spelling
import Zl.Vm.Native.Collections
import Zl.Vm.Native.Search
import Zl.Vm.Ordering

open zl.vm.gc zl.vm.value zl.vm.native.collections zl.vm.native.strings

namespace zl.vm.native.text

open json (decimal Digits decimal_digits digitsValue digitsValue_decimal isDigit)

def openBrace : UInt8 := 0x7B

def closeBrace : UInt8 := 0x7D

/-- The text that stands for a value. -/
def token (i : Nat) : Bytes := openBrace :: (decimal i ++ [closeBrace])

theorem token_pos (i : Nat) : 0 < (token i).length := Nat.succ_pos _

/-- The inner loop: every occurrence from a position on, none of them within what was put in. -/
def replaceFrom (out : Bytes) (i : Nat) (value : Bytes) (pos : Nat) : Bytes :=
  match _ : find out (token i) pos with
  | none => out
  | some found =>
    replaceFrom (out.take found ++ value ++ out.drop (found + (token i).length)) i value
      (found + value.length)
  termination_by out.length - pos
  decreasing_by
    have hbounds := find_bounds ‹_›
    have hpos := token_pos i
    simp only [List.length_append, List.length_take, List.length_drop]
    omega

/-- The rounds of the outer loop for the values from an index on. -/
def formatFrom (library : Library) : List gc.Value → Nat → Bytes → Bytes
  | [], _, out => out
  | v :: rest, i, out => formatFrom library rest (i + 1) (replaceFrom out i (valueToString library v) 0)

def textFormat (library : Library) (template : Bytes) (vals : ListBox) : Bytes :=
  formatFrom library vals.items 0 template

inductive Segment where
  | literal (c : UInt8)
  | placeholder (i : Nat)
  deriving DecidableEq, Repr

/-- The index of the placeholder at the front of a text. -/
def index? : Bytes → Option Nat
  | [] => none
  | c :: rest =>
    let i := digitsValue (rest.takeWhile isDigit)
    if token i <+: c :: rest then some i else none

/-- The segments of a template behind so many characters of a placeholder. -/
def segments : Nat → Bytes → List Segment
  | _, [] => []
  | skip + 1, _ :: rest => segments skip rest
  | 0, c :: rest =>
    match index? (c :: rest) with
    | some i => .placeholder i :: segments ((token i).length - 1) rest
    | none => .literal c :: segments 0 rest

def render (texts : List Bytes) : Segment → Bytes
  | .literal c => [c]
  | .placeholder i => if h : i < texts.length then texts[i] else token i

/-- The template with its placeholders replaced, all at once. -/
def substituted (texts : List Bytes) (template : Bytes) : Bytes :=
  (segments 0 template).flatMap (render texts)

/-- How often a text stands in another. -/
def occurrences (text : Bytes) : Bytes → Nat
  | [] => 0
  | c :: rest => (if text <+: c :: rest then 1 else 0) + occurrences text rest

/-- One pass over a text, behind so many characters of an occurrence. -/
def scan (i : Nat) (value : Bytes) : Nat → Bytes → Bytes
  | _, [] => []
  | skip + 1, _ :: rest => scan i value skip rest
  | 0, c :: rest =>
    if token i <+: c :: rest then value ++ scan i value ((token i).length - 1) rest
    else c :: scan i value 0 rest

section
variable {i k : Nat} {value front rest out : Bytes}

theorem scan_skip : scan i value front.length (front ++ rest) = scan i value 0 rest := by
  induction front with
  | nil => rfl
  | cons c front ih => rw [List.length_cons, List.cons_append, scan, ih]

theorem scan_token : scan i value 0 (token i ++ rest) = value ++ scan i value 0 rest := by
  have hprefix : token i <+: openBrace :: (decimal i ++ [closeBrace] ++ rest) :=
    List.prefix_append (token i) rest
  have hskip := @scan_skip i value (decimal i ++ [closeBrace]) rest
  change scan i value 0 (openBrace :: (decimal i ++ [closeBrace] ++ rest)) = _
  rw [scan, if_pos hprefix, ← hskip]
  rfl

theorem scan_plain (h : ∀ p < front.length, ¬ token i <+: (front ++ rest).drop p) :
    scan i value 0 (front ++ rest) = front ++ scan i value 0 rest := by
  induction front with
  | nil => rfl
  | cons c front ih =>
    have hhead : ¬ token i <+: c :: (front ++ rest) := h 0 (by simp)
    rw [List.cons_append, scan, if_neg hhead, ih, List.cons_append]
    intro p hp
    exact h (p + 1) (by simpa using hp)

/-- The inner loop is one pass. -/
theorem replaceFrom_eq {pos : Nat} (hpos : pos ≤ out.length) :
    replaceFrom out i value pos = out.take pos ++ scan i value 0 (out.drop pos) := by
  fun_induction replaceFrom with
  | case1 out pos hfound =>
    have hnone := find_eq_none hfound
    have hscan := @scan_plain i value (out.drop pos) [] fun p hp => by
      rw [List.length_drop] at hp
      rw [List.append_nil, List.drop_drop]
      exact fun hprefix => hnone _ (by omega) ⟨by omega, hprefix⟩
    rw [List.append_nil] at hscan
    rw [hscan, scan, List.append_nil, List.take_append_drop]
  | case2 out pos found hfound ih =>
    obtain ⟨hle, hlength⟩ := find_bounds hfound
    obtain ⟨⟨-, -, after, hafter⟩, hleast⟩ := find_eq_some hfound
    have hrest : out.drop (found + (token i).length) = after := by
      rw [← List.drop_drop, ← hafter, List.drop_left]
    have hmiddle : out.drop pos = (out.drop pos).take (found - pos) ++ (token i ++ after) := by
      conv_lhs => rw [← List.take_append_drop (found - pos) (out.drop pos)]
      rw [List.drop_drop, Nat.add_sub_cancel' hle, hafter]
    have hscan := @scan_plain i value ((out.drop pos).take (found - pos))
      (token i ++ after) fun p hp => by
        rw [List.length_take, List.length_drop] at hp
        rw [← hmiddle, List.drop_drop]
        intro hprefix
        have hfirst := hleast ⟨by omega, by omega, hprefix⟩
        omega
    have hfront : (out.take found ++ value).length = found + value.length := by
      rw [List.length_append, List.length_take]
      omega
    rw [hrest] at ih
    rw [hrest, ih (by rw [List.length_append, hfront]; omega), ← hfront, List.take_left,
      List.drop_left, hmiddle, hscan, scan_token, ← List.append_assoc, ← List.append_assoc]
    congr 2
    rw [← List.take_add, Nat.add_sub_cancel' hle]

theorem occurrences_append_ge (text front rest : Bytes) :
    occurrences text rest ≤ occurrences text (front ++ rest) := by
  induction front with
  | nil => exact Nat.le_refl _
  | cons c front ih =>
    rw [List.cons_append, occurrences]
    omega

theorem scan_append (h : occurrences (token i) (front ++ rest) = occurrences (token i) rest) :
    scan i value 0 (front ++ rest) = front ++ scan i value 0 rest := by
  induction front with
  | nil => rfl
  | cons c front ih =>
    have hge := occurrences_append_ge (token i) front rest
    rw [List.cons_append, occurrences] at h
    by_cases hhead : token i <+: c :: (front ++ rest)
    · rw [if_pos hhead] at h
      omega
    · rw [if_neg hhead, Nat.zero_add] at h
      rw [List.cons_append, scan, if_neg hhead, ih h, List.cons_append]

theorem brace_notMem (i : Nat) : openBrace ∉ decimal i ++ [closeBrace] := by
  intro h
  rcases List.mem_append.mp h with h | h
  · exact absurd ((decimal_digits i).2 _ h) (by decide)
  · exact absurd (List.mem_singleton.mp h) (by decide)

theorem occurrences_braceless (hfront : openBrace ∉ front) :
    occurrences (token k) (front ++ rest) = occurrences (token k) rest := by
  induction front with
  | nil => rfl
  | cons c front ih =>
    obtain ⟨hc, hfront⟩ := not_or.mp (mt List.mem_cons.mpr hfront)
    have hhead : ¬ token k <+: c :: (front ++ rest) := fun h => hc (List.cons_prefix_cons.mp h).1
    rw [List.cons_append, occurrences, if_neg hhead, Nat.zero_add, ih hfront]

theorem token_append (i : Nat) (rest : Bytes) :
    token i ++ rest = openBrace :: (decimal i ++ closeBrace :: rest) := by
  simp [token]

theorem takeWhile_token (i : Nat) (rest : Bytes) :
    (decimal i ++ closeBrace :: rest).takeWhile isDigit = decimal i := by
  rw [List.takeWhile_append_of_pos (decimal_digits i).2, List.takeWhile_cons_of_neg (by decide),
    List.append_nil]

theorem index?_token (i : Nat) (rest : Bytes) : index? (token i ++ rest) = some i := by
  have hprefix : token i <+: token i ++ rest := List.prefix_append _ _
  rw [token_append] at hprefix ⊢
  simp only [index?, takeWhile_token, digitsValue_decimal]
  rw [if_pos hprefix]

theorem index?_eq_some {text : Bytes} : index? text = some i ↔ token i <+: text := by
  constructor
  · intro h
    cases text with
    | nil => cases h
    | cons c rest =>
      simp only [index?] at h
      split at h
      · next hprefix =>
        cases h
        exact hprefix
      · cases h
  · rintro ⟨rest, rfl⟩
    exact index?_token i rest

theorem token_prefix_iff : token k <+: token i ++ rest ↔ i = k := by
  rw [← index?_eq_some, index?_token, Option.some_inj]

theorem occurrences_token :
    occurrences (token k) (token i ++ rest) = (if i = k then 1 else 0) + occurrences (token k) rest := by
  have hhead := @token_prefix_iff i k rest
  have hinner := @occurrences_braceless k _ rest (brace_notMem i)
  rw [token_append] at hhead ⊢
  rw [List.append_assoc] at hinner
  rw [occurrences, if_congr hhead rfl rfl]
  exact congrArg _ hinner

theorem segments_skip {skip : Nat} {text : Bytes} : segments skip text = segments 0 (text.drop skip) := by
  induction skip generalizing text with
  | zero => rfl
  | succ skip ih =>
    cases text with
    | nil => rfl
    | cons c rest => rw [segments, ih, List.drop_succ_cons]

theorem segments_token (i : Nat) (rest : Bytes) :
    segments 0 (token i ++ rest) = .placeholder i :: segments 0 rest := by
  have hindex := index?_token i rest
  have hdrop : (decimal i ++ closeBrace :: rest).drop ((token i).length - 1) = rest := by
    simp [token]
  rw [token_append] at hindex ⊢
  rw [segments, hindex]
  dsimp only
  rw [segments_skip, hdrop]

theorem segments_literal {c : UInt8} (h : index? (c :: rest) = none) :
    segments 0 (c :: rest) = .literal c :: segments 0 rest := by
  rw [segments, h]

theorem text_cases (P : Bytes → Prop) (hnil : P []) (htoken : ∀ i rest, P rest → P (token i ++ rest))
    (hliteral : ∀ c rest, index? (c :: rest) = none → P rest → P (c :: rest)) (text : Bytes) :
    P text := by
  induction hlength : text.length using Nat.strong_induction_on generalizing text with
  | _ n ih =>
    cases text with
    | nil => exact hnil
    | cons c rest =>
      cases hindex : index? (c :: rest) with
      | none => exact hliteral c rest hindex (ih rest.length (by rw [← hlength]; simp) rest rfl)
      | some i =>
        obtain ⟨after, hafter⟩ := index?_eq_some.mp hindex
        rw [← hafter] at hlength ⊢
        rw [List.length_append] at hlength
        have hpos := token_pos i
        exact htoken i after (ih after.length (by omega) after rfl)

theorem occurrences_template (template : Bytes) :
    occurrences (token k) template = (segments 0 template).count (.placeholder k) := by
  induction template using text_cases with
  | hnil => rfl
  | htoken i rest ih =>
    rw [occurrences_token, segments_token, List.count_cons, ih, Nat.add_comm]
    simp
  | hliteral c rest hindex ih =>
    have hhead : ¬ token k <+: c :: rest := fun h => by
      rw [index?_eq_some.mpr h] at hindex
      cases hindex
    rw [segments_literal hindex, occurrences, if_neg hhead, ih, List.count_cons]
    simp

section
variable {texts : List Bytes} {segs : List Segment} {seg : Segment}

theorem render_open (hk : texts.length = k) : render texts (.placeholder k) = token k := by
  rw [render, dif_neg (by omega)]

theorem render_concat (hk : texts.length = k) (value : Bytes) :
    render (texts ++ [value]) (.placeholder k) = value := by
  subst hk
  simp [render]

theorem render_concat_ne (hk : texts.length = k) (value : Bytes) (hseg : seg ≠ .placeholder k) :
    render (texts ++ [value]) seg = render texts seg := by
  cases seg with
  | literal c => rfl
  | placeholder j =>
    have hj : j ≠ k := fun h => hseg (congrArg _ h)
    simp only [render, List.length_append, List.length_singleton]
    by_cases hlt : j < texts.length
    · rw [dif_pos hlt, dif_pos (by omega), List.getElem_append_left hlt]
    · rw [dif_neg hlt, dif_neg (by omega)]

theorem count_le_occurrences (hk : texts.length = k) :
    segs.count (.placeholder k) ≤ occurrences (token k) (segs.flatMap (render texts)) := by
  induction segs with
  | nil => exact Nat.le_refl _
  | cons seg segs ih =>
    rw [List.flatMap_cons, List.count_cons]
    by_cases hseg : seg = .placeholder k
    · rw [hseg, render_open hk, occurrences_token]
      simp only [beq_self_eq_true, if_true]
      omega
    · have hge :=
        occurrences_append_ge (token k) (render texts seg) (segs.flatMap (render texts))
      simp only [beq_iff_eq, hseg, if_false]
      omega

theorem scan_render (hk : texts.length = k) (value : Bytes)
    (h : occurrences (token k) (segs.flatMap (render texts)) = segs.count (.placeholder k)) :
    scan k value 0 (segs.flatMap (render texts)) = segs.flatMap (render (texts ++ [value])) := by
  induction segs with
  | nil => rfl
  | cons seg segs ih =>
    rw [List.flatMap_cons, List.count_cons] at h
    rw [List.flatMap_cons, List.flatMap_cons]
    by_cases hseg : seg = .placeholder k
    · rw [hseg, render_open hk, occurrences_token] at h
      simp only [beq_self_eq_true, if_true] at h
      rw [hseg, render_open hk, scan_token, render_concat hk, ih (by omega)]
    · have hge :=
        occurrences_append_ge (token k) (render texts seg) (segs.flatMap (render texts))
      have hle := @count_le_occurrences k texts segs hk
      simp only [beq_iff_eq, hseg, if_false, Nat.add_zero] at h
      rw [scan_append (by omega), ih (by omega), render_concat_ne hk value hseg]

end

end

theorem substituted_nil (template : Bytes) : substituted [] template = template := by
  induction template using text_cases with
  | hnil => rfl
  | htoken i rest ih =>
    rw [substituted, segments_token, List.flatMap_cons, ← substituted, ih]
    rfl
  | hliteral c rest hindex ih =>
    rw [substituted, segments_literal hindex, List.flatMap_cons, ← substituted, ih]
    rfl

section
variable (library : Library) (template : Bytes)

/-- The text behind the rounds for so many values. -/
def roundText (items : List gc.Value) (i : Nat) : Bytes := formatFrom library (items.take i) 0 template

variable {library template} {items : List gc.Value} {i : Nat}

theorem formatFrom_append {rest : List gc.Value} {out : Bytes} :
    formatFrom library (items ++ rest) i out = formatFrom library rest (i + items.length)
    (formatFrom library items i out) := by
  induction items generalizing i out with
  | nil => rfl
  | cons v items ih =>
    rw [List.cons_append, formatFrom, formatFrom, ih, List.length_cons, Nat.add_assoc, Nat.add_comm 1]

theorem roundText_succ (hi : i < items.length) : roundText library template items (i + 1) =
    scan i (valueToString library items[i]) 0 (roundText library template items i) := by
  have hlength : (items.take i).length = i := by
    rw [List.length_take]
    omega
  rw [roundText, List.take_succ_eq_append_getElem hi, formatFrom_append, hlength, Nat.zero_add,
    formatFrom, formatFrom, replaceFrom_eq (Nat.zero_le _)]
  rfl

/-- The texts of the values in front of an index. -/
def textsBefore (library : Library) (items : List gc.Value) (i : Nat) : List Bytes :=
  (items.take i).map (valueToString library)

/-- No text put in for a value reads, with what stands around it, as the placeholder of a later one. -/
def NothingFormed (library : Library) (template : Bytes) (items : List gc.Value) : Prop :=
  ∀ i < items.length, occurrences (token i) (substituted (textsBefore library items i) template) =
    occurrences (token i) template

theorem roundText_eq (h : ∀ j < i,
      occurrences (token j) (substituted (textsBefore library items j) template) =
    occurrences (token j) template) (hi : i ≤ items.length) :
    roundText library template items i = substituted (textsBefore library items i) template := by
  induction i with
  | zero => exact (substituted_nil template).symm
  | succ i ih =>
    have hlength : (textsBefore library items i).length = i := by
      rw [textsBefore, List.length_map, List.length_take]
      omega
    have hcount := (h i (Nat.lt_succ_self i)).trans (occurrences_template template)
    have hconcat : textsBefore library items (i + 1) =
        textsBefore library items i ++ [valueToString library items[i]] := by
      rw [textsBefore, List.take_succ_eq_append_getElem (by omega), List.map_append]
      rfl
    rw [roundText_succ (by omega), ih (fun j hj => h j (by omega)) (by omega), hconcat]
    exact scan_render hlength _ hcount

theorem textsBefore_length : textsBefore library items items.length =
    items.map (valueToString library) := by
  rw [textsBefore, List.take_length]

theorem nothingFormed_iff : NothingFormed library template items ↔
    ∀ i < items.length, occurrences (token i) (roundText library template items i) =
      occurrences (token i) template := by
  constructor
  · intro h i hi
    rw [roundText_eq (fun j hj => h j (by omega)) (by omega)]
    exact h i hi
  · intro h i hi
    induction i using Nat.strong_induction_on with
    | _ i ih =>
      rw [← roundText_eq (fun j hj => ih j hj (by omega)) (by omega)]
      exact h i hi

/-- Formatting replaces the placeholders of the template all at once, and no round replaces more than
    the template has, exactly if no text put in forms a placeholder of a later value and the items
    of a consumed prefix, which count as values, read as the values do. -/
theorem textFormat_iff (library : Library) (template : Bytes) (vals : ListBox) :
    (textFormat library template vals =
        substituted ((logicalItems vals).map (valueToString library)) template ∧
      ∀ i < vals.items.length, occurrences (token i) (roundText library template vals.items i) =
        occurrences (token i) template) ↔
    NothingFormed library template vals.items ∧
      substituted (vals.items.map (valueToString library)) template =
        substituted ((logicalItems vals).map (valueToString library)) template := by
  have hformat : textFormat library template vals =
      roundText library template vals.items vals.items.length := by
    rw [roundText, List.take_length]
    rfl
  rw [← nothingFormed_iff, and_comm, hformat]
  refine and_congr_right fun hformed => ?_
  rw [roundText_eq hformed (Nat.le_refl _), textsBefore_length]

end

/-- The text of the first value is taken for the placeholder of the second. -/
theorem placeholder_formed : ¬ ∀ library template vals, textFormat library template vals =
    substituted ((logicalItems vals).map (valueToString library)) template := by
  intro h
  have hformat := h ⟨fun x _ => x, fun _ => []⟩ (token 0)
    { items := [.string (token 1), .string [0x78]] }
  revert hformat
  decide +kernel

end zl.vm.native.text
