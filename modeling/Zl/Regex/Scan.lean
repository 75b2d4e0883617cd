import Zl.Regex.CodePoints
import Zl.Regex.Moves
import Zl.Regex.Replace

open Relation

namespace zl.regex

/-- A set of positions of a text that a match does not leave. -/
structure Stops (text : Bytes) (P : Nat → Prop) : Prop where
  codePoint : ∀ {pos cp width}, P pos → decodeUtf8 text pos = some (cp, width) → P (pos + width)
  again : ∀ {a b pos}, P a → P b → a ≤ b → P pos → pos + (b - a) ≤ text.length →
    (text.drop pos).take (b - a) = (text.drop a).take (b - a) → P (pos + (b - a))

/-- A group has been opened at a position. -/
def Opened (st : State) (i : Nat) : Prop := ∃ p : Nat, st.caps.start[i]? = some (p : Int)

/-- A state is at a position of a set, and has only been at others of it. The capture with
    index zero belongs to the whole match. -/
structure At (P : Nat → Prop) (st : State) : Prop where
  pos : P st.pos
  sizes : st.caps.start.length = st.caps.set.length ∧ st.caps.stop.length = st.caps.set.length
  opened : ∀ i > 0, ∀ v : Int, st.caps.start[i]? = some v → v = -1 ∨ ∃ p : Nat, v = p ∧ P p
  closed : ∀ i > 0, st.caps.set[i]? = some true →
    Opened st i ∧ ∃ p : Nat, st.caps.stop[i]? = some (p : Int) ∧ P p

/-- What a match keeps. -/
structure Keeps (P : Nat → Prop) (st s : State) : Prop where
  stays : At P s
  size : s.caps.set.length = st.caps.set.length
  opened : ∀ i, Opened st i → Opened s i

section
variable {text : Bytes} {P : Nat → Prop} {st s t : State} {i : Nat}

theorem Keeps.refl (h : At P st) : Keeps P st st := ⟨h, rfl, fun _ => id⟩

theorem Keeps.trans (h : Keeps P st t) (h' : Keeps P t s) : Keeps P st s :=
  ⟨h'.stays, h'.size.trans h.size, fun i hi => h'.opened i (h.opened i hi)⟩

theorem At.move (h : At P st) {pos : Nat} (hpos : P pos) : Keeps P st { st with pos := pos } :=
  ⟨⟨hpos, h.sizes, h.opened, h.closed⟩, rfl, fun _ => id⟩

theorem At.capture (h : At P st) (hi : 0 < i) (hset : st.caps.set[i]? = some true) :
    ∃ a b : Nat, st.caps.start[i]? = some (a : Int) ∧ st.caps.stop[i]? = some (b : Int) ∧ P a ∧ P b := by
  obtain ⟨⟨a, ha⟩, b, hb, hPb⟩ := h.closed i hi hset
  refine ⟨a, b, ha, hb, ?_, hPb⟩
  cases h.opened i hi a ha with
  | inl hnone => omega
  | inr hsome =>
    obtain ⟨p, hp, hPp⟩ := hsome
    rwa [Int.ofNat_inj.mp hp]

theorem At.enter (h : At P st) (i : Nat) : At P (st.enter i) := by
  by_cases hi : i > 0
  · unfold State.enter
    rw [if_pos hi]
    refine ⟨h.pos, by simpa using h.sizes, fun j hj v hv => ?_, fun j hj hset => ?_⟩
    · dsimp only at hv
      rw [List.getElem?_set] at hv
      split at hv
      · split at hv
        · exact .inr ⟨st.pos, (Option.some.inj hv).symm, h.pos⟩
        · nomatch hv
      · exact h.opened j hj v hv
    · dsimp only [Opened] at hset ⊢
      rw [List.getElem?_set] at hset
      split at hset
      · split at hset
        · nomatch hset
        · nomatch hset
      · next hne =>
        rw [List.getElem?_set_ne hne]
        exact h.closed j hj hset
  · rwa [State.enter, if_neg hi]

theorem opened_enter (hi : 0 < i) (hlt : i < st.caps.start.length) : Opened (st.enter i) i := by
  refine ⟨st.pos, ?_⟩
  rw [State.enter, if_pos hi]
  exact List.getElem?_set_self hlt

theorem Opened.enter {j : Nat} (h : Opened st j) : Opened (st.enter i) j := by
  unfold State.enter
  split
  · obtain ⟨p, hp⟩ := h
    by_cases hj : i = j
    · subst hj
      exact ⟨st.pos, List.getElem?_set_self (List.getElem?_eq_some_iff.mp hp).1⟩
    · exact ⟨p, by simpa [hj] using hp⟩
  · exact h

@[simp]
theorem enter_size : (st.enter i).caps.set.length = st.caps.set.length := by
  unfold State.enter
  split <;> simp

@[simp]
theorem leave_size : (st.leave i).caps.set.length = st.caps.set.length := by
  unfold State.leave
  split <;> simp

theorem opened_leave {j : Nat} : Opened (st.leave i) j ↔ Opened st j := by
  unfold State.leave
  split <;> rfl

theorem Keeps.leave (h : At P st) (hinner : Keeps P (st.enter i) t) : Keeps P st (t.leave i) := by
  refine ⟨?_, by simpa using hinner.size, fun j hj => opened_leave.mpr (hinner.opened j hj.enter)⟩
  have hat := hinner.stays
  by_cases hi : i > 0
  · unfold State.leave
    rw [if_pos hi]
    refine ⟨hat.pos, by simpa using hat.sizes, hat.opened, fun j hj hset => ?_⟩
    dsimp only [Opened] at hset ⊢
    rw [List.getElem?_set] at hset
    split at hset
    · next heq =>
      subst heq
      split at hset
      · next hlt =>
        have hsize := hinner.size
        rw [enter_size] at hsize
        refine ⟨hinner.opened i (opened_enter hi (by have := h.sizes; omega)), t.pos, ?_, hat.pos⟩
        exact List.getElem?_set_self (by have := hat.sizes; omega)
      · nomatch hset
    · next hne =>
      rw [List.getElem?_set_ne hne]
      exact hat.closed j hj hset
  · rwa [State.leave, if_neg hi]

/-- A match does not leave such a set, nor do its captures. -/
theorem Stops.moves (hstops : Stops text P) : Moves text (fun st s => At P st → Keeps P st s) where
  refl _ := Keeps.refl
  trans h h' hat := (h hat).trans (h' (h hat).stays)
  codePoint hdecode hat := hat.move (hstops.codePoint hat.pos hdecode)
  backreference hs hat := by
    obtain ⟨hi, hset, a, b, rfl, rfl, hle, hlength, hsame, rfl⟩ := mem_backreference hs
    obtain ⟨a, b, ha, hb, hPa, hPb⟩ := hat.capture hi hset
    simp only [List.getD_eq_getElem?_getD, ha, hb, Option.getD_some, Int.toNat_natCast] at hle hlength hsame ⊢
    exact hat.move (hstops.again hPa hPb hle hat.pos hlength hsame)
  group h hat := .leave hat (h (hat.enter _))

theorem stops_boundary (text : Bytes) : Stops text (Boundary text) where
  codePoint hpos hdecode := hpos.next hdecode
  again ha hb hle hpos _ hsame := by
    obtain ⟨n, hpoints⟩ := ha.codePoints hb hle
    obtain ⟨m, hpos⟩ := hpos
    exact ⟨m + n, hpos.trans (hpoints.congr _ _ _ (by omega) hsame.symm)⟩

theorem Inside.stops {start pos : Nat} (hinside : Inside text start pos) : Stops text (· = pos) where
  codePoint hpos hdecode := by
    rw [hpos, hinside.decodeUtf8_eq_none] at hdecode
    nomatch hdecode
  again ha hb _ hpos _ _ := by omega

end

section
variable (tables : UnicodeTables) (pattern : Pattern) (text : Bytes)

/-- The state in which the scan tries a position. -/
def scanState (start : Nat) : State where
  pos := start
  caps :=
    let caps := makeCaps (maxCapture pattern.root)
    { caps with start := caps.start.set 0 start, set := caps.set.set 0 true }

/-- The match at one position, with a budget of its own. -/
def attempt (start : Nat) : Except String (Option MatchResult) := do
  let (rs, _) ← matchNode tables text kRegexMaxDepth pattern.root (scanState pattern start) 0
  return rs.head?.map (matchedFrom text start)

end

section
variable (attempt : Nat → Except String (Option MatchResult)) (text : Bytes)

/-- The loop over the start positions; nothing when it has not ended after so many turns. -/
def scanFrom : Nat → Nat → Option (Except String (List MatchResult))
  | 0, start => if start ≤ text.length then none else some (.ok [])
  | fuel + 1, start =>
    if start ≤ text.length then
      match attempt start with
      | .error message => some (.error message)
      | .ok none => scanFrom fuel (start + 1)
      | .ok (some r) =>
        (scanFrom fuel (if r.stop > r.start then r.stop else r.start + 1)).map (·.map (r :: ·))
    else some (.ok [])

end

section
variable (tables : UnicodeTables) (pattern : Pattern) (text replacement : Bytes)

def matchAll : Option (Except String (List MatchResult)) :=
  scanFrom (attempt tables pattern text) text (text.length + 1) 0

/-- The loop over the matches, from the end of the last one. -/
def replaceFrom (names : List (Bytes × Nat)) : List MatchResult → Nat → Option Bytes
  | [], cur => some (text.drop cur)
  | m :: rest, cur =>
    if m.start < cur then replaceFrom names rest cur
    else do
      let expansion ← expand m names replacement
      let tail ← replaceFrom names rest m.stop
      return (text.drop cur).take (m.start - cur) ++ expansion ++ tail

def replace : Option (Except String (Option Bytes)) :=
  (matchAll tables pattern text).map
    (·.map fun ms => replaceFrom text replacement (captureNameMap pattern.root) ms 0)

end

/-- Nothing that consumes matches at a position. -/
def Passed (attempt : Nat → Except String (Option MatchResult)) (p : Nat) : Prop :=
  ∃ found, attempt p = .ok found ∧ ∀ m ∈ found, m.stop ≤ p

/-- A turn of a scan: it goes on behind a match that consumes, and else to what comes after
    the position. -/
inductive ScanStep (attempt : Nat → Except String (Option MatchResult)) (after : Nat → Nat → Prop)
    (p : Nat) : Nat → Prop where
  | found {m : MatchResult} (hfound : attempt p = .ok (some m)) (hconsumes : p < m.stop) :
    ScanStep attempt after p m.stop
  | passed {q : Nat} (hpassed : Passed attempt p) (hafter : after p q) : ScanStep attempt after p q

/-- The positions a scan tries. -/
def Scanned (attempt : Nat → Except String (Option MatchResult)) (after : Nat → Nat → Prop) (p : Nat) :
    Prop := ReflTransGen (ScanStep attempt after) 0 p

/-- The next byte, which is where the scan of the source goes on. -/
def nextByte (p q : Nat) : Prop := q = p + 1

/-- The next code point of a text. -/
def nextCodePoint (text : Bytes) (p q : Nat) : Prop :=
  ∃ cp width, decodeUtf8 text p = some (cp, width) ∧ q = p + width

/-- What the scans rely on of the attempts at the positions of a text. -/
structure Attempts (text : Bytes) (attempt : Nat → Except String (Option MatchResult)) : Prop where
  start : ∀ {p m}, attempt p = .ok (some m) → m.start = p
  forward : ∀ {p m}, attempt p = .ok (some m) → p ≤ m.stop
  boundary : ∀ {p m}, attempt p = .ok (some m) → Boundary text p → Boundary text m.stop
  inside : ∀ {b p m}, attempt p = .ok (some m) → Inside text b p → m.stop = p
  groups : ∀ {p m}, attempt p = .ok (some m) → Boundary text p → ∀ g ∈ m.groups, ValidUtf8 g

section
variable {attempt : Nat → Except String (Option MatchResult)} {text : Bytes}

theorem ScanStep.lt {p q : Nat} (h : ScanStep attempt nextByte p q) : p < q := by
  cases h with
  | found _ hconsumes => exact hconsumes
  | passed _ hafter =>
    unfold nextByte at hafter
    omega

theorem scanned_le {start p : Nat} (h : ReflTransGen (ScanStep attempt nextByte) start p) :
    start ≤ p := by
  induction h with
  | refl => exact Nat.le_refl _
  | tail _ hstep ih => exact Nat.le_of_lt (Nat.lt_of_le_of_lt ih hstep.lt)

/-- A turn leads to one position. -/
theorem ScanStep.unique {p q q' : Nat} (h : ScanStep attempt nextByte p q)
    (h' : ScanStep attempt nextByte p q') : q = q' := by
  have hpassed {m : MatchResult} (hfound : attempt p = .ok (some m)) (hconsumes : p < m.stop) :
      ¬ Passed attempt p := by
    rintro ⟨found, hok, hall⟩
    rw [hfound] at hok
    cases hok
    have hle := hall m rfl
    omega
  cases h with
  | found hfound hconsumes =>
    cases h' with
    | found hfound' _ =>
      rw [hfound] at hfound'
      cases hfound'
      rfl
    | passed hpassed' _ => exact absurd hpassed' (hpassed hfound hconsumes)
  | passed hpassed' hafter =>
    cases h' with
    | found hfound hconsumes => exact absurd hpassed' (hpassed hfound hconsumes)
    | passed _ hafter' => exact hafter.trans hafter'.symm

theorem scanned_from_iff {start q p : Nat} (hstep : ScanStep attempt nextByte start q) :
    ReflTransGen (ScanStep attempt nextByte) start p ↔
      p = start ∨ ReflTransGen (ScanStep attempt nextByte) q p := by
  refine ⟨fun h => ?_, ?_⟩
  · cases h.cases_head with
    | inl heq => exact .inl heq.symm
    | inr hsplit =>
      obtain ⟨q', hstep', hrest⟩ := hsplit
      rw [hstep.unique hstep']
      exact .inr hrest
  · rintro (rfl | hrest)
    · exact .refl
    · exact .head hstep hrest

section
variable (hattempts : Attempts text attempt)
variable {fuel start : Nat}
include hattempts

/-- Where the source goes on behind a match. -/
theorem Attempts.next {p : Nat} {m : MatchResult} (hfound : attempt p = .ok (some m)) :
    p < (if m.stop > m.start then m.stop else m.start + 1) ∧
      ScanStep attempt nextByte p (if m.stop > m.start then m.stop else m.start + 1) := by
  have hstart := hattempts.start hfound
  split
  · next hconsumes => exact ⟨by omega, .found hfound (by omega)⟩
  · next hempty =>
    refine ⟨by omega, .passed ⟨_, hfound, fun m' hm' => ?_⟩ (by rw [hstart, nextByte])⟩
    obtain rfl := Option.some.inj hm'
    omega

/-- The scan ends: each turn goes forward. -/
theorem scanFrom_isSome (hfuel : text.length < start + fuel) :
    (scanFrom attempt text fuel start).isSome = true := by
  induction fuel generalizing start with
  | zero =>
    rw [scanFrom, if_neg (by omega)]
    rfl
  | succ fuel ih =>
    rw [scanFrom]
    split
    · split
      · rfl
      · exact ih (by omega)
      · next m hfound =>
        have hnext := (hattempts.next hfound).1
        rw [Option.isSome_map]
        exact ih (by omega)
    · rfl

/-- What a scan that returns has tried and found, by induction on its turns. -/
theorem scanFrom_eq_ok {ms : List MatchResult} (hrun : scanFrom attempt text fuel start = some (.ok ms)) :
    (∀ p ≤ text.length, ReflTransGen (ScanStep attempt nextByte) start p → ∃ found, attempt p = .ok found) ∧
    ∀ m, m ∈ ms ↔
      ∃ p ≤ text.length, ReflTransGen (ScanStep attempt nextByte) start p ∧ attempt p = .ok (some m) := by
  have hbehind {start : Nat} (hstart : ¬ start ≤ text.length) :
      ∀ p ≤ text.length, ¬ ReflTransGen (ScanStep attempt nextByte) start p := by
    intro p hp h
    have hle := scanned_le h
    omega
  induction fuel generalizing start ms with
  | zero =>
    rw [scanFrom] at hrun
    split at hrun
    · nomatch hrun
    · next hstart =>
      cases hrun
      refine ⟨fun p hp h => absurd h (hbehind hstart p hp), fun m => iff_of_false nofun ?_⟩
      rintro ⟨p, hp, h, -⟩
      exact hbehind hstart p hp h
  | succ fuel ih =>
    rw [scanFrom] at hrun
    split at hrun
    · next hstart =>
      split at hrun
      · cases hrun
      · next hfound =>
        have hstep : ScanStep attempt nextByte start (start + 1) := .passed ⟨none, hfound, nofun⟩ rfl
        obtain ⟨htried, hmem⟩ := ih hrun
        refine ⟨fun p hp h => ?_, fun m => ?_⟩
        · cases (scanned_from_iff hstep).mp h with
          | inl heq => exact ⟨none, heq ▸ hfound⟩
          | inr hrest => exact htried p hp hrest
        · rw [hmem]
          simp [scanned_from_iff hstep, or_and_right, and_or_left, exists_or, hfound]
      · next r hfound =>
        obtain ⟨result, hrest, hresult⟩ := Option.map_eq_some_iff.mp hrun
        cases result with
        | error message => nomatch hresult
        | ok rest =>
          obtain rfl := Except.ok.inj hresult
          have hstep := (hattempts.next hfound).2
          obtain ⟨htried, hmem⟩ := ih hrest
          refine ⟨fun p hp h => ?_, fun m => ?_⟩
          · cases (scanned_from_iff hstep).mp h with
            | inl heq => exact ⟨some r, heq ▸ hfound⟩
            | inr hrest => exact htried p hp hrest
          · rw [List.mem_cons, hmem]
            simp [scanned_from_iff hstep, or_and_right, and_or_left, exists_or, hfound, hstart, eq_comm]
    · next hstart =>
      cases hrun
      refine ⟨fun p hp h => absurd h (hbehind hstart p hp), fun m => iff_of_false nofun ?_⟩
      rintro ⟨p, hp, h, -⟩
      exact hbehind hstart p hp h

theorem scanFrom_pairwise {ms : List MatchResult}
    (hrun : scanFrom attempt text fuel start = some (.ok ms)) :
    ms.Pairwise fun m m' => m.start < m'.start ∧ m.stop ≤ m'.start := by
  induction fuel generalizing start ms with
  | zero =>
    rw [scanFrom] at hrun
    split at hrun
    · nomatch hrun
    · cases hrun
      exact .nil
  | succ fuel ih =>
    rw [scanFrom] at hrun
    split at hrun
    · split at hrun
      · cases hrun
      · exact ih hrun
      · next r hfound =>
        obtain ⟨result, hrest, hresult⟩ := Option.map_eq_some_iff.mp hrun
        cases result with
        | error message => nomatch hresult
        | ok rest =>
          obtain rfl := Except.ok.inj hresult
          refine List.pairwise_cons.mpr ⟨fun m hm => ?_, ih hrest⟩
          obtain ⟨p, -, hscanned, hm⟩ := ((scanFrom_eq_ok hattempts hrest).2 m).mp hm
          have hle := scanned_le hscanned
          have hstart := hattempts.start hm
          have hr := hattempts.start hfound
          split at hle <;> omega
    · cases hrun
      exact .nil

theorem Attempts.boundary_of_scanned {p : Nat} (h : Scanned attempt (nextCodePoint text) p) :
    Boundary text p := by
  induction h with
  | refl => exact .zero
  | tail _ hstep ih =>
    cases hstep with
    | found hfound _ => exact hattempts.boundary hfound ih
    | passed _ hafter =>
      obtain ⟨cp, width, hdecode, rfl⟩ := hafter
      exact ih.next hdecode

/-- The source tries what the scan over the code points tries, and each position inside the
    code points it passes over. -/
theorem Attempts.scanned_nextByte_iff (hvalid : ValidUtf8 text)
    (hok : ∀ p ≤ text.length, Scanned attempt nextByte p → ∃ found, attempt p = .ok found) {p : Nat}
    (hle : p ≤ text.length) :
    Scanned attempt nextByte p ↔ Scanned attempt (nextCodePoint text) p ∨
      ∃ b, Scanned attempt (nextCodePoint text) b ∧ Passed attempt b ∧ Inside text b p := by
  constructor
  · intro h
    induction h with
    | refl => exact .inl .refl
    | @tail p q h hstep ih =>
      have hlt := hstep.lt
      cases ih (by omega) with
      | inl hscanned =>
        cases hstep with
        | found hfound hconsumes => exact .inl (.tail hscanned (.found hfound hconsumes))
        | passed hpassed hafter =>
          obtain ⟨cp, width, hdecode⟩ :=
            hvalid.decode (hattempts.boundary_of_scanned hscanned) (by omega)
          have hwidth := (decodeUtf8_width hdecode).1
          unfold nextByte at hafter
          by_cases hone : q = p + width
          · exact .inl (.tail hscanned (.passed hpassed ⟨cp, width, hdecode, hone⟩))
          · exact .inr ⟨p, hscanned, hpassed, cp, width, hdecode, by omega, by omega⟩
      | inr hinside =>
        obtain ⟨b, hscanned, hpassed, hinside⟩ := hinside
        cases hstep with
        | found hfound hconsumes =>
          have hstop := hattempts.inside hfound hinside
          omega
        | passed _ hafter =>
          obtain ⟨cp, width, hdecode, hlow, hhigh⟩ := hinside
          unfold nextByte at hafter
          by_cases hone : q = b + width
          · exact .inl (.tail hscanned (.passed hpassed ⟨cp, width, hdecode, hone⟩))
          · exact .inr ⟨b, hscanned, hpassed, cp, width, hdecode, by omega, by omega⟩
  · -- Through a code point that is passed over, byte by byte.
    have hthrough {b width : Nat} {cp : Nat} (hdecode : decodeUtf8 text b = some (cp, width))
        (hb : Scanned attempt nextByte b) (hpassed : Passed attempt b) :
        ∀ k, k < width → Scanned attempt nextByte (b + k) ∧ Passed attempt (b + k) := by
      intro k hk
      induction k with
      | zero => exact ⟨hb, hpassed⟩
      | succ k ih =>
        obtain ⟨hscanned, hpassed⟩ := ih (by omega)
        have hnext : Scanned attempt nextByte (b + (k + 1)) := .tail hscanned (.passed hpassed rfl)
        have hlength := (decodeUtf8_width hdecode).2
        obtain ⟨found, hfound⟩ := hok _ (by omega) hnext
        refine ⟨hnext, found, hfound, fun m hm => ?_⟩
        obtain rfl : found = some m := hm
        exact Nat.le_of_eq (hattempts.inside hfound ⟨cp, width, hdecode, by omega, by omega⟩)
    have hscanned {b : Nat} (h : Scanned attempt (nextCodePoint text) b) : Scanned attempt nextByte b := by
      induction h with
      | refl => exact .refl
      | tail _ hstep ih =>
        cases hstep with
        | found hfound hconsumes => exact .tail ih (.found hfound hconsumes)
        | passed hpassed hafter =>
          obtain ⟨cp, width, hdecode, rfl⟩ := hafter
          have hwidth := (decodeUtf8_width hdecode).1
          obtain ⟨hlast, hpassed⟩ := hthrough hdecode ih hpassed (width - 1) (by omega)
          exact .tail hlast (.passed hpassed (by unfold nextByte; omega))
    rintro (h | ⟨b, h, hpassed, cp, width, hdecode, hlow, hhigh⟩)
    · exact hscanned h
    · have hp := (hthrough hdecode (hscanned h) hpassed (p - b) (by omega)).1
      rwa [Nat.add_sub_cancel' (Nat.le_of_lt hlow)] at hp

end

end

section
variable {tables : UnicodeTables} {pattern : Pattern} {text : Bytes}
variable {names : List (Bytes × Nat)}

theorem scanState_at {P : Nat → Prop} {start : Nat} (hstart : P start) : At P (scanState pattern start) where
  pos := hstart
  sizes := by simp [scanState, makeCaps]
  opened i hi v hv := by
    simp only [scanState, makeCaps, List.getElem?_set_ne (Nat.ne_of_lt hi)] at hv
    exact .inl (List.eq_of_mem_replicate (List.mem_of_getElem? hv))
  closed i hi hset := by
    simp only [scanState, makeCaps, List.getElem?_set_ne (Nat.ne_of_lt hi)] at hset
    nomatch List.eq_of_mem_replicate (List.mem_of_getElem? hset)

theorem attempt_eq_some {start : Nat} {m : MatchResult}
    (hfound : attempt tables pattern text start = .ok (some m)) :
    ∃ s, m = matchedFrom text start s ∧ start ≤ s.pos ∧
      ∀ P, Stops text P → P start → Keeps P (scanState pattern start) s := by
  unfold attempt at hfound
  cases hrun : matchNode tables text kRegexMaxDepth pattern.root (scanState pattern start) 0 with
  | error message =>
    rw [hrun] at hfound
    nomatch hfound
  | ok out =>
    rw [hrun] at hfound
    obtain ⟨s, hs, rfl⟩ := Option.map_eq_some_iff.mp (Except.ok.inj hfound)
    have hmem := List.mem_of_head? hs
    refine ⟨s, rfl, ?_, fun P hstops hstart => ?_⟩
    · exact (forward_moves.returns_matchNode _).1 _ _ _ _ _ hrun s hmem
    · exact (hstops.moves.returns_matchNode _).1 _ _ _ _ _ hrun s hmem (scanState_at hstart)

theorem attempts_of_pattern (tables : UnicodeTables) (pattern : Pattern) (text : Bytes) :
    Attempts text (attempt tables pattern text) where
  start hfound := by
    obtain ⟨s, rfl, -, hkeeps⟩ := attempt_eq_some hfound
    have hsize := (hkeeps (fun _ => True) ⟨fun _ _ => trivial, fun _ _ _ _ _ _ => trivial⟩ trivial)
    have h1 := hsize.size
    have h2 := hsize.stays.sizes
    simp [scanState, makeCaps] at h1
    simp [matchedFrom, materialize, h1, h2]
  forward hfound := by
    obtain ⟨s, rfl, hle, -⟩ := attempt_eq_some hfound
    exact hle
  boundary hfound hp := by
    obtain ⟨s, rfl, -, hkeeps⟩ := attempt_eq_some hfound
    exact (hkeeps _ (stops_boundary text) hp).stays.pos
  inside hfound hinside := by
    obtain ⟨s, rfl, -, hkeeps⟩ := attempt_eq_some hfound
    exact (hkeeps _ hinside.stops rfl).stays.pos
  groups hfound hp g hg := by
    obtain ⟨s, rfl, -, hkeeps⟩ := attempt_eq_some hfound
    obtain ⟨i, hi, rfl⟩ := List.mem_map.mp hg
    have hat := (hkeeps _ (stops_boundary text) hp).stays
    have hsizes := hat.sizes
    rw [capturedText]
    split
    · next hset =>
      rw [List.mem_range, List.length_set] at hi
      by_cases hzero : i = 0
      · subst hzero
        simp only [List.getD_eq_getElem?_getD]
        rw [List.getElem?_set_self (by omega), List.getElem?_set_self (by omega)]
        exact validUtf8_slice hp hat.pos
      · have hclosed : s.caps.set[i]? = some true := by
          rw [List.getD_eq_getElem?_getD, List.getElem?_set_ne (Ne.symm hzero)] at hset
          rw [List.getElem?_eq_getElem hi] at hset ⊢
          exact congrArg some hset
        obtain ⟨a, b, ha, hb, hPa, hPb⟩ := hat.capture (Nat.pos_of_ne_zero hzero) hclosed
        simp only [List.getD_eq_getElem?_getD, List.getElem?_set_ne (Ne.symm hzero), ha, hb]
        exact validUtf8_slice hPa hPb
    · exact validUtf8_nil

/-- What stands between the matches, and a text in the place of each. -/
def spliced (text : Bytes) (expansion : MatchResult → Bytes) : Nat → List MatchResult → Bytes
  | cur, [] => text.drop cur
  | cur, m :: rest =>
    (text.drop cur).take (m.start - cur) ++ expansion m ++ spliced text expansion m.stop rest

/-- The expansion of a replacement at a match. -/
def expansionAt (names : List (Bytes × Nat)) (replacement : Bytes) (m : MatchResult) : Bytes :=
  (pieces replacement).flatMap (Piece.expansion m.groups names)

theorem replaceFrom_eq {replacement : Bytes} {ms : List MatchResult} {cur : Nat}
    (hcur : ∀ m ∈ ms, cur ≤ m.start)
    (hms : ms.Pairwise fun m m' => m.start < m'.start ∧ m.stop ≤ m'.start) :
    replaceFrom text replacement names ms cur =
      if ms = [] ∨ ∀ piece ∈ pieces replacement, piece.Computable then
        some (spliced text (expansionAt names replacement) cur ms)
      else none := by
  induction ms generalizing cur with
  | nil => rfl
  | cons m rest ih =>
    obtain ⟨hfirst, hrest⟩ := List.pairwise_cons.mp hms
    have hstart := hcur m List.mem_cons_self
    rw [replaceFrom, if_neg (Nat.not_lt.mpr hstart), expand_eq, ih (fun m' hm' => (hfirst m' hm').2) hrest]
    by_cases hall : ∀ piece ∈ pieces replacement, piece.Computable
    · rw [if_pos hall, if_pos (.inr hall), if_pos (.inr hall)]
      rfl
    · have hnot : ¬ (m :: rest = [] ∨ ∀ piece ∈ pieces replacement, piece.Computable) := by simpa using hall
      rw [if_neg hall, if_neg hnot]
      rfl

theorem validUtf8_expansion {groups : List Bytes} {piece : Piece}
    (hgroups : ∀ g ∈ groups, ValidUtf8 g) (hsource : ValidUtf8 piece.source) :
    ValidUtf8 (piece.expansion groups names) := by
  have hgetD {i : Nat} : ValidUtf8 (groups[i]?.getD piece.source) := by
    cases hget : groups[i]? with
    | none => exact hsource
    | some g => exact hgroups g (List.mem_of_getElem? hget)
  cases piece with
  | byte c => exact hsource
  | named name =>
    rw [Piece.expansion]
    cases names.lookup name with
    | none => exact hsource
    | some i => exact hgetD
  | numbered digits => exact hgetD

theorem pieces_append_of_ne {l rest : Bytes} (hne : ∀ c ∈ l, c ≠ code '$') :
    pieces (l ++ rest) = l.map .byte ++ pieces rest := by
  induction l with
  | nil => rfl
  | cons c l ih =>
    obtain ⟨hc, hl⟩ := List.forall_mem_cons.mp hne
    rw [List.cons_append, pieces, if_neg (fun h => hc h.1), if_neg (fun h => hc h.1), ih hl]
    rfl

theorem ascii_of_isDigit {c : UInt8} (hdigit : isDigit c = true) : c < 0x80 := by
  obtain ⟨-, hhigh⟩ := isDigit_iff.mp hdigit
  rw [UInt8.lt_iff_toNat_lt]
  exact Nat.lt_of_le_of_lt hhigh (by decide)

theorem ne_dollar_of_mem_take {c : UInt8} {rest : Bytes} {cp width : Nat}
    (hdecode : decodeFront (c :: rest) = some (cp, width)) (hc : c ≠ code '$') :
    ∀ b ∈ (c :: rest).take width, b ≠ code '$' := by
  obtain ⟨n, rfl⟩ := Nat.exists_eq_succ_of_ne_zero (Nat.ne_of_gt (decodeFront_width hdecode).1)
  rw [List.take_succ_cons]
  refine List.forall_mem_cons.mpr ⟨hc, fun b hb => ?_⟩
  rintro rfl
  exact not_continuation_of_ascii (by decide) (decodeLead_continuation hdecode _ hb)

/-- What a replacement becomes is a text when the replacement and the groups are, by induction
    on its code points. -/
theorem validUtf8_expansionAt {replacement : Bytes} {m : MatchResult}
    (hgroups : ∀ g ∈ m.groups, ValidUtf8 g) (hvalid : ValidUtf8 replacement) :
    ValidUtf8 (expansionAt names replacement m) := by
  unfold expansionAt
  induction hlength : replacement.length using Nat.strongRecOn generalizing replacement with
  | _ size ih =>
  subst hlength
  have hfirst {piece : Piece} {rest : Bytes} (hsource : ValidUtf8 piece.source) (hrest : ValidUtf8 rest)
      (hlt : rest.length < replacement.length) :
      ValidUtf8 ((piece :: pieces rest).flatMap (Piece.expansion m.groups names)) := by
    rw [List.flatMap_cons]
    exact (validUtf8_expansion hgroups hsource).append (ih _ hlt hrest rfl)
  cases replacement with
  | nil =>
    rw [pieces]
    exact validUtf8_nil
  | cons c rest =>
    by_cases hdollar : c = code '$'
    · subst hdollar
      have hrest := ValidUtf8.of_ascii_append (l := [code '$']) (by decide +kernel) hvalid
      rw [pieces]
      split
      · next hname =>
        obtain ⟨-, hopen, hclose⟩ := hname
        have hopen' : rest = code '\x7b' :: rest.tail := List.eq_cons_of_mem_head? hopen
        have htail : ValidUtf8 rest.tail := by
          rw [hopen'] at hrest
          exact ValidUtf8.of_ascii_append (l := [code '\x7b']) (by decide +kernel) hrest
        rw [← takeWhile_append_cons_drop hclose] at htail
        obtain ⟨hname, hbehind⟩ := htail.split (by decide +kernel)
        refine hfirst ?_ hbehind (by simp)
        have hopenValid : ValidUtf8 [code '$', code '\x7b'] := validUtf8_ascii (by decide +kernel)
        have hcloseValid : ValidUtf8 [code '\x7d'] := validUtf8_ascii (by decide +kernel)
        exact (hopenValid.append hname).append hcloseValid
      · split
        · have hdigits : ∀ c ∈ rest.takeWhile isDigit, c < 0x80 := fun c hc =>
            ascii_of_isDigit (List.all_eq_true.mp List.all_takeWhile c hc)
          refine hfirst (validUtf8_ascii (List.forall_mem_cons.mpr ⟨by decide +kernel, hdigits⟩)) ?_
            (by simp)
          rw [← takeWhile_append_drop_length isDigit rest] at hrest
          exact ValidUtf8.of_ascii_append hdigits hrest
        · exact hfirst (validUtf8_ascii (by decide +kernel)) hrest (by simp)
    · obtain ⟨cp, width, hdecode, hchar, hrest⟩ := hvalid.first
      have hwidth := decodeFront_width hdecode
      rw [← List.take_append_drop width (c :: rest),
        pieces_append_of_ne (ne_dollar_of_mem_take hdecode hdollar), List.flatMap_append, List.flatMap_map]
      refine ValidUtf8.append ?_ (ih _ (by simp at hwidth ⊢; omega) hrest rfl)
      have hsame : ((c :: rest).take width).flatMap (fun b => (Piece.byte b).expansion m.groups names) =
          (c :: rest).take width := List.flatMap_singleton' _
      rwa [hsame]

theorem validUtf8_spliced {expansion : MatchResult → Bytes} {ms : List MatchResult} {cur : Nat}
    (hvalid : ValidUtf8 text) (hcur : Boundary text cur)
    (hms : ∀ m ∈ ms, Boundary text m.start ∧ Boundary text m.stop)
    (hexpansion : ∀ m ∈ ms, ValidUtf8 (expansion m)) : ValidUtf8 (spliced text expansion cur ms) := by
  induction ms generalizing cur with
  | nil => exact hvalid.drop hcur
  | cons m rest ih =>
    obtain ⟨⟨hstart, hstop⟩, hrest⟩ := List.forall_mem_cons.mp hms
    obtain ⟨hm, hexpansion⟩ := List.forall_mem_cons.mp hexpansion
    exact ((validUtf8_slice hcur hstart).append hm).append (ih hstop hrest hexpansion)

end

/-- The matches and the replaced text are what the scan over the code points of the text
    makes of it. -/
structure RespectsText (attempt : Nat → Except String (Option MatchResult)) (names : List (Bytes × Nat))
    (text replacement : Bytes) (ms : List MatchResult) (out : Option Bytes) : Prop where
  ordered : ms.Pairwise fun m m' => m.start < m'.start ∧ m.stop ≤ m'.start
  boundaries : ∀ m ∈ ms, Boundary text m.start ∧ Boundary text m.stop
  complete : ∀ p m, Scanned attempt (nextCodePoint text) p → attempt p = .ok (some m) → p < m.stop → m ∈ ms
  replaced : out = some (spliced text (expansionAt names replacement) 0 ms)
  valid : ValidUtf8 replacement → ∀ result ∈ out, ValidUtf8 result

/-- The pattern matches in the middle of a code point that the scan passes over. -/
def SplitsCodePoint (attempt : Nat → Except String (Option MatchResult)) (text : Bytes) : Prop :=
  ∃ b p m, Scanned attempt (nextCodePoint text) b ∧ Passed attempt b ∧ Inside text b p ∧
    attempt p = .ok (some m)

/-- The scan ends, and what it finds and what is replaced respect the text exactly when the
    pattern matches in the middle of no code point the scan passes over, and the replacement
    of what matches refers to no number that is too large to be computed. -/
theorem matchAll_respects_iff (tables : UnicodeTables) (pattern : Pattern) (text replacement : Bytes)
    (hvalid : ValidUtf8 text) :
    (matchAll tables pattern text).isSome = true ∧
    ∀ ms, matchAll tables pattern text = some (.ok ms) →
      ∃ out, replace tables pattern text replacement = some (.ok out) ∧
        (RespectsText (attempt tables pattern text) (captureNameMap pattern.root) text replacement ms out ↔
          ¬ SplitsCodePoint (attempt tables pattern text) text ∧
          ∀ p m, Scanned (attempt tables pattern text) (nextCodePoint text) p →
            attempt tables pattern text p = .ok (some m) →
            ∀ digits, .numbered digits ∈ pieces replacement → decimal digits ≤ kMaxReference) := by
  have hattempts := attempts_of_pattern tables pattern text
  refine ⟨scanFrom_isSome hattempts (by omega), fun ms hrun => ?_⟩
  obtain ⟨hok, hmem⟩ := scanFrom_eq_ok hattempts hrun
  have hordered := scanFrom_pairwise hattempts hrun
  have htried {p : Nat} (hp : p ≤ text.length) := hattempts.scanned_nextByte_iff hvalid hok hp
  have hboundary {p : Nat} := hattempts.boundary_of_scanned (p := p)
  have hreported {p : Nat} {m : MatchResult}
      (hscanned : Scanned (attempt tables pattern text) (nextCodePoint text) p)
      (hfound : attempt tables pattern text p = .ok (some m)) : m ∈ ms :=
    have hp := (hboundary hscanned).le_length
    (hmem m).mpr ⟨p, hp, (htried hp).mpr (.inl hscanned), hfound⟩
  have hcomputable : (∀ piece ∈ pieces replacement, piece.Computable) ↔
      ∀ digits, .numbered digits ∈ pieces replacement → decimal digits ≤ kMaxReference := by
    refine ⟨fun hall digits hd => hall _ hd, fun hall piece hp => ?_⟩
    cases piece with
    | byte c => trivial
    | named name => trivial
    | numbered digits => exact hall digits hp
  refine ⟨replaceFrom text replacement (captureNameMap pattern.root) ms 0, by rw [replace, hrun]; rfl, ?_⟩
  rw [replaceFrom_eq (fun _ _ => Nat.zero_le _) hordered]
  constructor
  · intro hrespects
    refine ⟨?_, fun p m hscanned hfound => ?_⟩
    · rintro ⟨b, p, m, hscanned, hpassed, hinside, hfound⟩
      have hp : p ≤ text.length := by
        obtain ⟨cp, width, hdecode, -, hhigh⟩ := hinside
        have hlength := (decodeUtf8_width hdecode).2
        omega
      have hm : m ∈ ms :=
        (hmem m).mpr ⟨p, hp, (htried hp).mpr (.inr ⟨b, hscanned, hpassed, hinside⟩), hfound⟩
      have hstart := (hrespects.boundaries m hm).1
      rw [hattempts.start hfound] at hstart
      exact hinside.not_boundary (hboundary hscanned) hstart
    · have hreplaced := hrespects.replaced
      split at hreplaced
      · next hcases =>
        refine hcomputable.mp (hcases.resolve_left ?_)
        exact List.ne_nil_of_mem (hreported hscanned hfound)
      · nomatch hreplaced
  · rintro ⟨hsplits, hreferences⟩
    have hscanned {m : MatchResult} (hm : m ∈ ms) : ∃ p,
        Scanned (attempt tables pattern text) (nextCodePoint text) p ∧
          attempt tables pattern text p = .ok (some m) := by
      obtain ⟨p, hp, h, hfound⟩ := (hmem m).mp hm
      cases (htried hp).mp h with
      | inl h => exact ⟨p, h, hfound⟩
      | inr h =>
        obtain ⟨b, hb, hpassed, hinside⟩ := h
        exact absurd ⟨b, p, m, hb, hpassed, hinside, hfound⟩ hsplits
    have hboundaries : ∀ m ∈ ms, Boundary text m.start ∧ Boundary text m.stop := by
      intro m hm
      obtain ⟨p, h, hfound⟩ := hscanned hm
      rw [hattempts.start hfound]
      exact ⟨hboundary h, hattempts.boundary hfound (hboundary h)⟩
    have hcases : ms = [] ∨ ∀ piece ∈ pieces replacement, piece.Computable := by
      cases ms with
      | nil => exact .inl rfl
      | cons m rest =>
        obtain ⟨p, h, hfound⟩ := hscanned (List.mem_cons_self (a := m))
        exact .inr (hcomputable.mpr (hreferences p m h hfound))
    rw [if_pos hcases]
    refine ⟨hordered, hboundaries, fun p m h hfound _ => hreported h hfound, rfl, ?_⟩
    rintro hreplacement result hresult
    obtain rfl := Option.some.inj hresult
    refine validUtf8_spliced hvalid .zero hboundaries fun m hm => ?_
    obtain ⟨p, h, hfound⟩ := hscanned hm
    exact validUtf8_expansionAt (hattempts.groups hfound (hboundary h)) hreplacement

/-- `x*` -/
def starPattern : Pattern where
  root := .quantifier ⟨0, none, nofun⟩ true false (.literal ⟨[120], 120, by decide⟩)

theorem matchAll_respects_iff_star : ∃ ms, matchAll asciiTables starPattern [120] = some (.ok ms) ∧
    ∃ out, replace asciiTables starPattern [120] [45] = some (.ok out) ∧
      (RespectsText (attempt asciiTables starPattern [120]) [] [120] [45] ms out ↔
        ¬ SplitsCodePoint (attempt asciiTables starPattern [120]) [120] ∧
        ∀ p m, Scanned (attempt asciiTables starPattern [120]) (nextCodePoint [120]) p →
          attempt asciiTables starPattern [120] p = .ok (some m) →
          ∀ digits, .numbered digits ∈ pieces [45] → decimal digits ≤ kMaxReference) :=
  ⟨_, rfl, (matchAll_respects_iff asciiTables starPattern [120] [45]
    (validUtf8_ascii (by decide +kernel))).2 _ rfl⟩

/-- In the two bytes of an `é` the pattern `x*` has three empty matches, one of them between
    the bytes, where a replacement divides the character. -/
theorem starPattern_splits : ∃ ms, parse ("x*".toList.map code) = .ok starPattern ∧
    ValidUtf8 [0xC3, 0xA9] ∧ matchAll asciiTables starPattern [0xC3, 0xA9] = some (.ok ms) ∧
    replace asciiTables starPattern [0xC3, 0xA9] [45] = some (.ok (some [45, 0xC3, 45, 0xA9, 45])) ∧
    ∀ attempt names replacement out, ¬ RespectsText attempt names [0xC3, 0xA9] replacement ms out := by
  have hdecode : decodeUtf8 [0xC3, 0xA9] 0 = some (0xE9, 2) := rfl
  have hmatches : matchAll asciiTables starPattern [0xC3, 0xA9] =
      some (.ok ([0, 1, 2].map fun p => ⟨true, p, p, [[]], [true]⟩)) := rfl
  refine ⟨_, rfl, Boundary.zero.next hdecode, hmatches, ?_, fun attempt names replacement out h => ?_⟩
  · rw [replace, hmatches]
    simp [Except.map, replaceFrom, expand, code]
  · have hinside : Inside [0xC3, 0xA9] 0 1 := ⟨_, _, hdecode, by decide, by decide⟩
    exact hinside.not_boundary .zero (h.boundaries ⟨true, 1, 1, [[]], [true]⟩ (by decide)).1

end zl.regex
