import Zl.Regex.Syntax

namespace zl.regex

/-- A number of code points leads from a position of a text to another. -/
inductive CodePoints (text : Bytes) (start : Nat) : Nat → Nat → Prop where
  | none : CodePoints text start 0 start
  | next {n pos cp width : Nat} (first : CodePoints text start n pos)
    (last : decodeUtf8 text pos = some (cp, width)) : CodePoints text start (n + 1) (pos + width)

/-- A position in front of a code point of a text, or behind the last. -/
def Boundary (text : Bytes) (pos : Nat) : Prop := ∃ n, CodePoints text 0 n pos

/-- A text is a sequence of code points. -/
def ValidUtf8 (text : Bytes) : Prop := Boundary text text.length

/-- A position in the middle of a code point. -/
def Inside (text : Bytes) (start pos : Nat) : Prop :=
  ∃ cp width, decodeUtf8 text start = some (cp, width) ∧ start < pos ∧ pos < start + width

section
variable {text : Bytes} {start pos stop cp width n : Nat}
variable {c : UInt8} {rest : Bytes}

theorem utf8Width_of_continuation (c : UInt8) (hcontinued : c &&& 0xC0 = 0x80) : utf8Width c = 0 := by
  obtain ⟨bits⟩ := c
  revert bits
  decide +kernel

theorem continuation_of_continued {acc cp : Nat} (h : continued rest acc = some cp) :
    ∀ c ∈ rest, c &&& 0xC0 = 0x80 := by
  induction rest generalizing acc with
  | nil => simp
  | cons first rest ih =>
    rw [continued] at h
    split at h
    · next hfirst => exact List.forall_mem_cons.mpr ⟨hfirst, ih h⟩
    · nomatch h

theorem decodeLead_continuation (h : decodeLead c rest = some (cp, width)) :
    ∀ b ∈ rest.take (width - 1), b &&& 0xC0 = 0x80 := by
  have hwidth := (decodeLead_width h).1
  unfold decodeLead at h
  split at h
  · nomatch h
  · split at h
    · next hone =>
      rw [hone] at hwidth
      simp [← hwidth]
    · split at h
      · nomatch h
      · next hcontinued =>
        rw [← hwidth]
        exact continuation_of_continued hcontinued

theorem decodeUtf8_width (h : decodeUtf8 text pos = some (cp, width)) :
    0 < width ∧ pos + width ≤ text.length := by
  obtain ⟨hpos, hle⟩ := decodeFront_width h
  rw [List.length_drop] at hle
  omega

theorem Inside.continuation (hinside : Inside text start pos) : ∃ c, text[pos]? = some c ∧
    c &&& 0xC0 = 0x80 := by
  obtain ⟨cp, width, hdecode, hlow, hhigh⟩ := hinside
  have hlength := (decodeUtf8_width hdecode).2
  have hget : text[pos]? = some text[pos] := List.getElem?_eq_getElem (by omega)
  refine ⟨_, hget, ?_⟩
  unfold decodeUtf8 at hdecode
  cases hdrop : text.drop start with
  | nil =>
    rw [hdrop] at hdecode
    nomatch hdecode
  | cons c rest =>
    rw [hdrop] at hdecode
    refine decodeLead_continuation hdecode _ (List.mem_of_getElem? (i := pos - start - 1) ?_)
    have hrest : rest[pos - start - 1]? = (text.drop start)[pos - start]? := by
      rw [hdrop, ← List.getElem?_cons_succ (a := c)]
      congr 1
      omega
    rw [List.getElem?_take, if_pos (by omega), hrest, List.getElem?_drop, ← hget]
    congr 1
    omega

theorem Inside.decodeUtf8_eq_none (hinside : Inside text start pos) : decodeUtf8 text pos = none := by
  obtain ⟨c, hget, hcontinued⟩ := hinside.continuation
  obtain ⟨hlt, heq⟩ := List.getElem?_eq_some_iff.mp hget
  unfold decodeUtf8
  rw [List.drop_eq_getElem_cons hlt, heq]
  exact if_pos (.inl (utf8Width_of_continuation c hcontinued))

namespace CodePoints

theorem le (h : CodePoints text start n stop) : start + n ≤ stop := by
  induction h with
  | none => omega
  | next _ hlast ih =>
    have hwidth := (decodeUtf8_width hlast).1
    omega

theorem le_length (h : CodePoints text start n stop) (hstart : start ≤ text.length) :
    stop ≤ text.length := by
  cases h with
  | none => exact hstart
  | next _ hlast => exact (decodeUtf8_width hlast).2

theorem trans {m : Nat} (h : CodePoints text start m pos) (h' : CodePoints text pos n stop) :
    CodePoints text start (m + n) stop := by
  induction h' with
  | none => exact h
  | next _ hlast ih => exact .next ih hlast

theorem single (h : decodeUtf8 text start = some (cp, width)) :
    CodePoints text start 1 (start + width) := .next .none h

/-- The code points in front of a position are the same from wherever one counts. -/
theorem start_unique {start' : Nat} (h : CodePoints text start n stop)
    (h' : CodePoints text start' n stop) : start = start' := by
  induction n generalizing stop with
  | zero =>
    cases h
    cases h'
    rfl
  | succ n ih =>
    obtain ⟨pos, cp, width, hfirst, hlast, rfl⟩ : ∃ pos cp width, CodePoints text start n pos ∧
        decodeUtf8 text pos = some (cp, width) ∧ stop = pos + width := by
      cases h with
      | next hfirst hlast => exact ⟨_, _, _, hfirst, hlast, rfl⟩
    obtain ⟨pos', cp', width', hfirst', hlast', hstop⟩ : ∃ pos' cp' width',
        CodePoints text start' n pos' ∧ decodeUtf8 text pos' = some (cp', width') ∧
          pos + width = pos' + width' := by
      generalize hstop : pos + width = stop at h'
      cases h' with
      | next hfirst' hlast' => exact ⟨_, _, _, hfirst', hlast', rfl⟩
    have hwidth := (decodeUtf8_width hlast).1
    have hwidth' := (decodeUtf8_width hlast').1
    rcases Nat.lt_trichotomy pos pos' with hlt | rfl | hlt
    · have hinside : Inside text pos pos' := ⟨cp, width, hlast, hlt, by omega⟩
      rw [hinside.decodeUtf8_eq_none] at hlast'
      nomatch hlast'
    · exact ih hfirst hfirst'
    · have hinside : Inside text pos' pos := ⟨cp', width', hlast', hlt, by omega⟩
      rw [hinside.decodeUtf8_eq_none] at hlast
      nomatch hlast

theorem congr (text' : Bytes) (start' size : Nat) (h : CodePoints text start n stop)
    (hsize : stop ≤ start + size) (hsame : (text.drop start).take size = (text'.drop start').take size) :
    CodePoints text' start' n (start' + (stop - start)) := by
  induction h with
  | none =>
    rw [Nat.sub_self]
    exact .none
  | @next n pos cp width first hlast ih =>
    have hle := first.le
    have hfirst := ih (by omega)
    have hwindow : (text.drop pos).take width = (text'.drop (start' + (pos - start))).take width := by
      have hcut := congrArg (fun l => (l.drop (pos - start)).take width) hsame
      simp only [List.drop_take, List.drop_drop, List.take_take] at hcut
      rwa [Nat.min_eq_left (by omega), show start + (pos - start) = pos by omega] at hcut
    have hdecode : decodeUtf8 text' (start' + (pos - start)) = some (cp, width) := by
      have happend := decodeFront_take_append hlast ((text'.drop (start' + (pos - start))).drop width)
      rw [hwindow, List.take_append_drop] at happend
      exact happend
    rw [show start' + (pos + width - start) = start' + (pos - start) + width by omega]
    exact .next hfirst hdecode

theorem head (h : CodePoints text start (n + 1) stop) : ∃ cp width,
    decodeUtf8 text start = some (cp, width) ∧ CodePoints text (start + width) n stop := by
  induction n generalizing stop with
  | zero =>
    cases h with
    | next hfirst hlast =>
      cases hfirst
      exact ⟨_, _, hlast, .none⟩
  | succ n ih =>
    cases h with
    | next hfirst hlast =>
      obtain ⟨cp, width, hdecode, hrest⟩ := ih hfirst
      exact ⟨cp, width, hdecode, .next hrest hlast⟩

theorem total {m stop' : Nat} (h : CodePoints text start n stop) (h' : CodePoints text start m stop')
    (hle : stop ≤ stop') : ∃ k, CodePoints text stop k stop' := by
  induction h with
  | none => exact ⟨m, h'⟩
  | @next n pos cp width first hlast ih =>
    have hwidth := (decodeUtf8_width hlast).1
    obtain ⟨k, hk⟩ := ih (by omega)
    cases k with
    | zero =>
      have hback := hk.le
      cases hk
      omega
    | succ k =>
      obtain ⟨cp', width', hdecode, hrest⟩ := hk.head
      rw [hlast] at hdecode
      cases hdecode
      exact ⟨k, hrest⟩

end CodePoints

theorem Boundary.zero : Boundary text 0 := ⟨0, .none⟩

theorem Boundary.next (h : Boundary text pos) (hdecode : decodeUtf8 text pos = some (cp, width)) :
    Boundary text (pos + width) := h.elim fun _ hpoints => ⟨_, .next hpoints hdecode⟩

theorem Boundary.le_length (h : Boundary text pos) : pos ≤ text.length :=
  h.elim fun _ hpoints => hpoints.le_length (Nat.zero_le _)

theorem Boundary.codePoints (hstart : Boundary text start) (hstop : Boundary text stop)
    (hle : start ≤ stop) : ∃ n, CodePoints text start n stop :=
  hstart.elim fun _ h => hstop.elim fun _ h' => h.total h' hle

theorem Inside.not_boundary (hinside : Inside text start pos) (hstart : Boundary text start) :
    ¬ Boundary text pos := by
  intro hpos
  obtain ⟨cp, width, hdecode, hlow, hhigh⟩ := hinside
  obtain ⟨n, hpoints⟩ := hstart.codePoints hpos (Nat.le_of_lt hlow)
  cases n with
  | zero =>
    cases hpoints
    exact Nat.lt_irrefl _ hlow
  | succ n =>
    obtain ⟨cp', width', hdecode', hrest⟩ := hpoints.head
    rw [hdecode] at hdecode'
    cases hdecode'
    have hle := hrest.le
    omega

theorem ValidUtf8.boundary_or_inside (hvalid : ValidUtf8 text) (hle : pos ≤ text.length) :
    Boundary text pos ∨ ∃ start, Boundary text start ∧ Inside text start pos := by
  obtain ⟨n, hpoints⟩ := hvalid
  generalize text.length = stop at hpoints hle
  induction hpoints with
  | none =>
    obtain rfl := Nat.le_zero.mp hle
    exact .inl .zero
  | @next n before cp width first hlast ih =>
    by_cases hbefore : pos ≤ before
    · exact ih hbefore
    · by_cases hbehind : pos = before + width
      · subst hbehind
        exact .inl ⟨_, .next first hlast⟩
      · exact .inr ⟨before, ⟨_, first⟩, cp, width, hlast, by omega, by omega⟩

theorem ValidUtf8.decode (hvalid : ValidUtf8 text) (hpos : Boundary text pos)
    (hlt : pos < text.length) : ∃ cp width, decodeUtf8 text pos = some (cp, width) := by
  obtain ⟨n, hpoints⟩ := hpos.codePoints hvalid (Nat.le_of_lt hlt)
  cases n with
  | zero =>
    cases hpoints
    exact absurd hlt (Nat.lt_irrefl _)
  | succ n =>
    obtain ⟨cp, width, hdecode, -⟩ := hpoints.head
    exact ⟨cp, width, hdecode⟩

theorem validUtf8_slice (hstart : Boundary text start) (hstop : Boundary text stop) :
    ValidUtf8 ((text.drop start).take (stop - start)) := by
  have hlength := hstop.le_length
  by_cases hle : start ≤ stop
  · obtain ⟨n, hpoints⟩ := hstart.codePoints hstop hle
    refine ⟨n, ?_⟩
    have hslice := hpoints.congr ((text.drop start).take (stop - start)) 0 (stop - start)
      (by omega) (by simp [List.take_take])
    simpa [Nat.min_eq_left (show stop - start ≤ text.length - start by omega)] using hslice
  · rw [Nat.sub_eq_zero_of_le (Nat.le_of_not_le hle), List.take_zero]
    exact .zero

theorem validUtf8_nil : ValidUtf8 [] := Boundary.zero

theorem ValidUtf8.append (h : ValidUtf8 text) (hrest : ValidUtf8 rest) :
    ValidUtf8 (text ++ rest) := by
  obtain ⟨n, hpoints⟩ := h
  obtain ⟨m, hrest⟩ := hrest
  have hfirst := hpoints.congr (text ++ rest) 0 text.length (by omega) (by simp)
  have hsecond := hrest.congr (text ++ rest) text.length rest.length (by omega) (by simp)
  refine ⟨n + m, ?_⟩
  simp only [Nat.sub_zero, Nat.zero_add] at hfirst hsecond
  rw [List.length_append]
  exact hfirst.trans hsecond

theorem ValidUtf8.drop (h : ValidUtf8 text) (hpos : Boundary text pos) : ValidUtf8 (text.drop pos) := by
  have hslice := validUtf8_slice hpos h
  rwa [← List.length_drop, List.take_length] at hslice

theorem ValidUtf8.take (hpos : Boundary text pos) : ValidUtf8 (text.take pos) := by
  simpa using validUtf8_slice .zero hpos

theorem decodeFront_ascii (hascii : c < 0x80) (rest : Bytes) :
    decodeFront (c :: rest) = some (c.toNat, 1) := by
  have hwidth : utf8Width c = 1 := by
    obtain ⟨bits⟩ := c
    revert bits
    decide +kernel
  change decodeLead c rest = _
  unfold decodeLead
  rw [if_neg (by omega), if_pos hwidth]

theorem not_continuation_of_ascii (hascii : c < 0x80) : c &&& 0xC0 ≠ 0x80 := by
  obtain ⟨bits⟩ := c
  revert bits
  decide +kernel

theorem ValidUtf8.split {front rest : Bytes} (hascii : c < 0x80)
    (h : ValidUtf8 (front ++ c :: rest)) : ValidUtf8 front ∧ ValidUtf8 rest := by
  have hget : (front ++ c :: rest)[front.length]? = some c := by simp
  have hle : front.length ≤ (front ++ c :: rest).length := by simp
  have hboundary : Boundary (front ++ c :: rest) front.length := by
    cases h.boundary_or_inside hle with
    | inl hboundary => exact hboundary
    | inr hinside =>
      obtain ⟨start, -, hinside⟩ := hinside
      obtain ⟨b, hb, hcontinued⟩ := hinside.continuation
      rw [hget] at hb
      cases hb
      exact absurd hcontinued (not_continuation_of_ascii hascii)
  have hdecode : decodeUtf8 (front ++ c :: rest) front.length = some (c.toNat, 1) := by
    rw [decodeUtf8, List.drop_left]
    exact decodeFront_ascii hascii rest
  refine ⟨?_, ?_⟩
  · simpa using ValidUtf8.take hboundary
  · simpa [← List.drop_drop] using h.drop (hboundary.next hdecode)

theorem validUtf8_ascii {l : Bytes} (hascii : ∀ c ∈ l, c < 0x80) : ValidUtf8 l := by
  induction l with
  | nil => exact validUtf8_nil
  | cons c rest ih =>
    obtain ⟨hc, hrest⟩ := List.forall_mem_cons.mp hascii
    have hone : ValidUtf8 [c] := Boundary.zero.next (decodeFront_ascii hc [])
    exact hone.append (ih hrest)

theorem ValidUtf8.of_ascii_append {l rest : Bytes} (hascii : ∀ c ∈ l, c < 0x80)
    (h : ValidUtf8 (l ++ rest)) : ValidUtf8 rest := by
  induction l with
  | nil => exact h
  | cons c l ih =>
    obtain ⟨hc, hl⟩ := List.forall_mem_cons.mp hascii
    exact ih hl (ValidUtf8.split hc (show ValidUtf8 ([] ++ c :: (l ++ rest)) from h)).2

theorem ValidUtf8.first (h : ValidUtf8 (c :: rest)) : ∃ cp width,
    decodeFront (c :: rest) = some (cp, width) ∧ ValidUtf8 ((c :: rest).take width) ∧
      ValidUtf8 ((c :: rest).drop width) := by
  obtain ⟨cp, width, hdecode⟩ := h.decode .zero (Nat.succ_pos _)
  have hboundary := Boundary.zero.next hdecode
  rw [Nat.zero_add] at hboundary
  exact ⟨cp, width, hdecode, ValidUtf8.take hboundary, h.drop hboundary⟩

end

end zl.regex
