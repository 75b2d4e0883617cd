import Zl.Pkg.Manifest

namespace zl.pkg

structure ResolvedDependency where
  name : Bytes
  kind : DependencyKind := .git
  source : Bytes := []
  declaredRef : Bytes := []
  resolvedRef : Bytes := []
  packageVersion : Bytes := []
  depsFingerprint : Bytes := []
  dir : Path := []
  deriving DecidableEq

structure LockFile where
  manifestSha : Bytes := []
  deps : List ResolvedDependency := []

def hashMix (h : UInt64) (s : Bytes) : UInt64 :=
  let h := s.foldl (fun h c => (h ^^^ c.toUInt64) * 1099511628211) h
  (h ^^^ 0xFF) * 1099511628211

def DependencyKind.text : DependencyKind → Bytes
  | .git => ascii ['g', 'i', 't']
  | .path => ascii ['p', 'a', 't', 'h']

def hashDeps (h : UInt64) (manifest : Manifest) : UInt64 :=
  manifest.dependencies.foldl (fun h dep =>
    hashMix (hashMix (hashMix (hashMix (hashMix h dep.name) dep.kind.text) dep.source) dep.ref)
      dep.version) h

def hexHash (h : UInt64) : Bytes := ascii (Nat.toDigits 16 h.toNat)

def lockDepsFingerprint (manifest : Manifest) : Bytes := hexHash (hashDeps 14695981039346656037 manifest)

def quoteByte (c : UInt8) : Bytes :=
  if c = backslash ∨ c = quoteMark then [backslash, c]
  else if c = newline then [backslash, 'n'.toUInt8]
  else if c = 13 then [backslash, 'r'.toUInt8]
  else if c = 9 then [backslash, 't'.toUInt8]
  else [c]

def quote (s : Bytes) : Bytes := quoteMark :: (s.flatMap quoteByte ++ [quoteMark])

def unescape : Bytes → Bytes
  | [] => []
  | [c] => [c]
  | c :: next :: s =>
    if c = backslash then
      (if next = 'n'.toUInt8 then newline else if next = 'r'.toUInt8 then 13 else if next =
        't'.toUInt8 then 9 else next) ::
        unescape s
    else c :: unescape (next :: s)

inductive LockError where
  | cannotOpen
  | notQuoted (text : Bytes)
  | unexpectedSection (name : Bytes)
  | expectedKeyValue
  | unsupportedVersion (version : Bytes)
  | keyBeforeSection

def unquote (s : Bytes) : Except LockError Bytes :=
  let t := trim s
  if t.length < 2 ∨ t.head? ≠ some quoteMark ∨ t.getLast? ≠ some quoteMark then .error (.notQuoted t)
  else .ok (unescape (t.drop 1).dropLast)

def kindKey : Bytes := ascii ['k', 'i', 'n', 'd']

def sourceKey : Bytes := ascii ['s', 'o', 'u', 'r', 'c', 'e']

def refKey : Bytes := ascii ['r', 'e', 'f']

def packageVersionKey : Bytes :=
  ascii ['p', 'a', 'c', 'k', 'a', 'g', 'e', '_', 'v', 'e', 'r', 's', 'i', 'o', 'n']

def depsShaKey : Bytes := ascii ['d', 'e', 'p', 's', '_', 's', 'h', 'a']

def declaredRefKey : Bytes := ascii ['d', 'e', 'c', 'l', 'a', 'r', 'e', 'd', '_', 'r', 'e', 'f']

def dirKey : Bytes := ascii ['d', 'i', 'r']

def versionKey : Bytes := ascii ['v', 'e', 'r', 's', 'i', 'o', 'n']

def manifestShaKey : Bytes := ascii ['m', 'a', 'n', 'i', 'f', 'e', 's', 't', '_', 's', 'h', 'a']

def metaSection : Bytes := ascii ['m', 'e', 't', 'a']

def dependencyPrefix : Bytes := ascii ['d', 'e', 'p', 'e', 'n', 'd', 'e', 'n', 'c', 'y', '.']

/-- The two lines that a lock file starts with. -/
def lockComments : List Bytes :=
  [ascii (['#', ' ', 'z', 'l', 'p', 'k', 'g', '.', 'l', 'o', 'c', 'k', ' ', '-', ' ', 'g', 'e', 'n',
    'e', 'r', 'a', 't', 'e', 'd', ' ', 'b', 'y', ' ', Char.ofNat 96, 'z', 'l', 'p', 'k', 'g', ' ',
    'i', 'n', 's', 't', 'a', 'l', 'l', Char.ofNat 96, '.', ' ', 'D', 'o', ' ', 'n', 'o', 't', ' ',
    'e', 'd', 'i', 't', ' ', 'b', 'y', ' ', 'h', 'a', 'n', 'd', '.']),
    ascii (['#', ' ', 'R', 'u', 'n', ' ', Char.ofNat 96, 'z', 'l', 'p', 'k', 'g', ' ', 'i', 'n',
    's', 't', 'a', 'l', 'l', ' ', '-', '-', 'u', 'p', 'd', 'a', 't', 'e', Char.ofNat 96, ' ', 't',
    'o', ' ', 'r', 'e', '-', 'r', 'e', 's', 'o', 'l', 'v', 'e', ' ', 'a', 'n', 'd', ' ', 'r', 'e',
    'w', 'r', 'i', 't', 'e', ' ', 't', 'h', 'i', 's', ' ', 'f', 'i', 'l', 'e', '.'])]

/-- A line that sets a key. -/
def fieldLine (key value : Bytes) : Bytes := key ++ 32 :: equalsSign :: 32 :: quote value

def sectionLine (name : Bytes) : Bytes := openBracket :: (name ++ [closeBracket])

def dependencyLines (d : ResolvedDependency) : List Bytes :=
  [[], sectionLine (dependencyPrefix ++ d.name), fieldLine kindKey d.kind.text,
    fieldLine sourceKey d.source, fieldLine refKey d.resolvedRef,
    fieldLine packageVersionKey d.packageVersion, fieldLine depsShaKey d.depsFingerprint] ++
    (if d.declaredRef ≠ [] then [fieldLine declaredRefKey d.declaredRef] else []) ++
    [fieldLine dirKey d.dir]

def lockLines (deps : List ResolvedDependency) (manifestSha : Bytes) : List Bytes :=
  lockComments ++ [[], sectionLine metaSection, fieldLine versionKey ['1'.toUInt8],
    fieldLine manifestShaKey manifestSha] ++ deps.flatMap dependencyLines

/-- The contents of the file that `writeLockFile` leaves. -/
def writeLockFile (deps : List ResolvedDependency) (manifestSha : Bytes) : Bytes :=
  (lockLines deps manifestSha).flatMap (· ++ [newline])

/-- What was read so far. With `current` the keys belong to the last dependency. -/
structure LockReader where
  manifestSha : Bytes := []
  done : List ResolvedDependency := []
  current : Option ResolvedDependency := none
  inMeta : Bool := false

def LockReader.deps (reader : LockReader) : List ResolvedDependency :=
  reader.done ++ reader.current.toList

def setField (d : ResolvedDependency) (key value : Bytes) : ResolvedDependency :=
  if key = kindKey then { d with kind := if value = DependencyKind.git.text then .git else .path }
  else if key = sourceKey then { d with source := value }
  else if key = refKey then { d with resolvedRef := value }
  else if key = packageVersionKey then { d with packageVersion := value }
  else if key = depsShaKey then { d with depsFingerprint := value }
  else if key = declaredRefKey then { d with declaredRef := value }
  else if key = dirKey then { d with dir := value }
  else d

/-- A key of the `[meta]` table or of a dependency. Keys that are not known are ignored. -/
def readLockKey (reader : LockReader) (key value : Bytes) : Except LockError LockReader :=
  if reader.inMeta then
    if key = versionKey then
      if value ≠ ['1'.toUInt8] then .error (.unsupportedVersion value) else .ok reader
    else if key = manifestShaKey then .ok { reader with manifestSha := value }
    else .ok reader
  else
    match reader.current with
    | none => .error .keyBeforeSection
    | some d => .ok { reader with current := some (setField d key value) }

def readLockLine (reader : LockReader) (text : Bytes) : Except LockError LockReader :=
  let line := trim text
  if line = [] ∨ line.head? = some hashSign then .ok reader
  else if line.head? = some openBracket ∧ line.getLast? = some closeBracket then
    let name := (line.drop 1).dropLast
    if name = metaSection then .ok { reader with done := reader.deps, current := none, inMeta := true }
    else if dependencyPrefix <+: name then
      .ok { reader with
        done :=
          reader.deps, current := some { name := name.drop dependencyPrefix.length }, inMeta := false }
    else .error (.unexpectedSection name)
  else
    match cut equalsSign line with
    | none => .error .expectedKeyValue
    | some (key, value) => do
      let value ← unquote value
      readLockKey reader (trim key) value

def readLockFile (contents : Option Bytes) : Except LockError LockFile :=
  match contents with
  | none => .error .cannotOpen
  | some file => do
    let reader ← (splitOn newline file).foldlM readLockLine {}
    return { manifestSha := reader.manifestSha, deps := reader.deps }

theorem splitOn_append {separator : UInt8} {piece rest : Bytes} (hpiece : separator ∉ piece) :
    splitOn separator (piece ++ separator :: rest) = piece :: splitOn separator rest := by
  induction piece with
  | nil => rw [List.nil_append, splitOn, if_pos rfl]
  | cons c piece ih =>
    rw [List.mem_cons, not_or] at hpiece
    rw [List.cons_append, splitOn, if_neg (Ne.symm hpiece.1), ih hpiece.2]

theorem splitOn_lines {texts : List Bytes} (htexts : ∀ text ∈ texts, newline ∉ text) :
    splitOn newline (texts.flatMap (· ++ [newline])) = texts ++ [[]] := by
  induction texts with
  | nil => rfl
  | cons text texts ih =>
    rw [List.flatMap_cons, List.append_assoc, List.singleton_append,
      splitOn_append (htexts text List.mem_cons_self), ih fun t ht =>
      htexts t (List.mem_cons_of_mem _ ht), List.cons_append]

theorem trim_eq {s : Bytes} (hhead : ∀ c ∈ s.head?, isBlank c = false)
    (hlast : ∀ c ∈ s.getLast?, isBlank c = false) :
    trim s = s := by
  have hdrop : s.dropWhile isBlank = s := by
    cases s with
    | nil => rfl
    | cons c s => exact List.dropWhile_cons_of_neg (by rw [hhead c rfl]; exact Bool.false_ne_true)
  rw [trim, hdrop, List.rdropWhile_eq_self_iff]
  intro hne
  rw [hlast _ (List.getLast?_eq_some_getLast hne)]
  exact Bool.false_ne_true

theorem unescape_quoteByte (c : UInt8) (s : Bytes) (hs : s ≠ []) :
    unescape (quoteByte c ++ s) = c :: unescape s := by
  have hescaped (next : UInt8) : unescape (backslash :: next :: s) =
      (if next = 'n'.toUInt8 then newline else if next = 'r'.toUInt8 then 13 else if next =
      't'.toUInt8 then 9 else next) ::
        unescape s := by
    rw [unescape, if_pos rfl]
  rw [quoteByte]
  split
  · next hc =>
    rw [List.cons_append, List.cons_append, List.nil_append, hescaped]
    rcases hc with rfl | rfl <;> rfl
  · next hc =>
    split
    · next hnewline => exact (hescaped _).trans (by rw [hnewline]; rfl)
    · split
      · next hreturn => exact (hescaped _).trans (by rw [hreturn]; rfl)
      · split
        · next htab => exact (hescaped _).trans (by rw [htab]; rfl)
        · cases s with
          | nil => exact absurd rfl hs
          | cons next s => rw [List.singleton_append, unescape, if_neg fun heq => hc (.inl heq)]

theorem unescape_quoteByte_last (c : UInt8) : unescape (quoteByte c) = [c] := by
  rw [quoteByte]
  split
  · next hc => rcases hc with rfl | rfl <;> rfl
  · split
    · next hnewline => rw [hnewline]; rfl
    · split
      · next hreturn => rw [hreturn]; rfl
      · split
        · next htab => rw [htab]; rfl
        · rfl

theorem quoteByte_ne_nil (c : UInt8) : quoteByte c ≠ [] := by
  unfold quoteByte
  repeat' split
  all_goals exact List.cons_ne_nil _ _

theorem unescape_flatMap (s : Bytes) : unescape (s.flatMap quoteByte) = s := by
  induction s with
  | nil => rfl
  | cons c s ih =>
    rw [List.flatMap_cons]
    cases s with
    | nil => rw [List.flatMap_nil, List.append_nil, unescape_quoteByte_last]
    | cons d s =>
      have hne : (d :: s).flatMap quoteByte ≠ [] := by
        rw [List.flatMap_cons]
        exact List.append_ne_nil_of_left_ne_nil (quoteByte_ne_nil d) _
      rw [unescape_quoteByte c _ hne, ih]

theorem quote_head (s : Bytes) : (quote s).head? = some quoteMark := rfl

theorem quote_getLast (s : Bytes) : (quote s).getLast? = some quoteMark := by
  rw [quote, ← List.cons_append, List.getLast?_concat]

theorem trim_quote (s : Bytes) : trim (32 :: quote s) = quote s := by
  have hquote : trim (quote s) = quote s := by
    refine trim_eq (fun c hc => ?_) fun c hc => ?_
    · cases hc
      rfl
    · rw [quote_getLast] at hc
      cases hc
      rfl
  rw [trim, List.dropWhile_cons_of_pos rfl]
  exact hquote

theorem unquote_quote (s : Bytes) : unquote (32 :: quote s) = .ok s := by
  rw [unquote, trim_quote, if_neg]
  · rw [quote, List.drop_one, List.tail_cons, List.dropLast_concat, unescape_flatMap]
  · rw [quote_head, quote_getLast]
    simp [quote]

/-- A key is a word. -/
def IsKey (key : Bytes) : Prop :=
  key ≠ [] ∧ ∀ c ∈ key, isBlank c = false ∧ c ≠ equalsSign ∧ c ≠ hashSign ∧ c ≠ openBracket

instance (key : Bytes) : Decidable (IsKey key) := inferInstanceAs (Decidable (_ ∧ _))

theorem fieldLine_eq (key value : Bytes) : fieldLine key value = (key ++ [32, equalsSign, 32]) ++
    quote value := by
  rw [List.append_assoc]
  rfl

theorem trim_fieldLine {key : Bytes} (hkey : IsKey key) (value : Bytes) :
    trim (fieldLine key value) = fieldLine key value := by
  obtain ⟨hne, hkey⟩ := hkey
  refine trim_eq (fun c hc => ?_) fun c hc => ?_
  · rw [fieldLine, List.head?_append_of_ne_nil _ hne] at hc
    exact (hkey c (List.mem_of_mem_head? hc)).1
  · rw [fieldLine_eq, List.getLast?_append, quote_getLast] at hc
    cases hc
    rfl

theorem cut_fieldLine {key : Bytes} (hkey : IsKey key) (value : Bytes) :
    cut equalsSign (fieldLine key value) = some (key ++ [32], 32 :: quote value) := by
  have hbefore : ∀ c ∈ key ++ [32], decide (c ≠ equalsSign) = true := by
    intro c hc
    rcases List.mem_append.mp hc with hc | hc
    · exact decide_eq_true (hkey.2 c hc).2.1
    · rw [List.mem_singleton.mp hc]
      rfl
  have heq : fieldLine key value = (key ++ [32]) ++ equalsSign :: 32 :: quote value := by
    rw [List.append_assoc]
    rfl
  rw [heq, cut, List.dropWhile_append_of_pos hbefore, List.takeWhile_append_of_pos hbefore]
  simp

theorem trim_key {key : Bytes} (hkey : IsKey key) : trim (key ++ [32]) = key := by
  obtain ⟨hne, hkey⟩ := hkey
  have hdrop : (key ++ [32]).dropWhile isBlank = key ++ [32] := by
    cases key with
    | nil => exact absurd rfl hne
    | cons c key =>
      exact List.dropWhile_cons_of_neg
        (by rw [(hkey c List.mem_cons_self).1]; exact Bool.false_ne_true)
  rw [trim, hdrop, List.rdropWhile_concat_pos _ _ _ rfl, List.rdropWhile_eq_self_iff]
  intro hne'
  rw [(hkey _ (List.getLast_mem hne')).1]
  exact Bool.false_ne_true

theorem readLockLine_field (reader : LockReader) {key : Bytes} (hkey : IsKey key) (value : Bytes) :
    readLockLine reader (fieldLine key value) = readLockKey reader key value := by
  have hhead : ∃ c, (fieldLine key value).head? = some c ∧ c ∈ key := by
    obtain ⟨hne, -⟩ := hkey
    cases key with
    | nil => exact absurd rfl hne
    | cons c key => exact ⟨c, rfl, List.mem_cons_self⟩
  obtain ⟨c, hhead, hc⟩ := hhead
  obtain ⟨-, -, hhash, hbracket⟩ := hkey.2 c hc
  have hne : fieldLine key value ≠ [] := fun heq => by
    rw [heq] at hhead
    nomatch hhead
  rw [readLockLine, trim_fieldLine hkey, hhead]
  dsimp only
  rw [if_neg (by simp [hne, hhash]), if_neg (by simp [hbracket]), cut_fieldLine hkey]
  simp only [trim_key hkey, unquote_quote, bind, Except.bind]

theorem trim_sectionLine (name : Bytes) : trim (sectionLine name) = sectionLine name := by
  refine trim_eq (fun c hc => ?_) fun c hc => ?_
  · cases hc
    rfl
  · rw [sectionLine, ← List.cons_append, List.getLast?_concat] at hc
    cases hc
    rfl

theorem readLockLine_section (reader : LockReader) (name : Bytes) :
    readLockLine reader (sectionLine (dependencyPrefix ++ name)) =
      .ok { reader with done := reader.deps, current := some { name := name }, inMeta := false } := by
  have hlast : (sectionLine (dependencyPrefix ++ name)).getLast? = some closeBracket := by
    rw [sectionLine, ← List.cons_append, List.getLast?_concat]
  have hname : ((sectionLine (dependencyPrefix ++ name)).drop 1).dropLast = dependencyPrefix ++ name := by
    rw [sectionLine, List.drop_one, List.tail_cons, List.dropLast_concat]
  have hmeta : dependencyPrefix ++ name ≠ metaSection := fun heq => by
    have hhead := congrArg List.head? heq
    rw [List.head?_append_of_ne_nil _ (by decide)] at hhead
    exact absurd hhead (by decide)
  rw [readLockLine, trim_sectionLine]
  dsimp only
  rw [hname, hlast, if_neg (by simp [sectionLine]; decide), if_pos ⟨rfl, rfl⟩, if_neg hmeta,
    if_pos (List.prefix_append _ _), List.drop_left]

theorem readLockLine_skipped (reader : LockReader) {text : Bytes}
    (h : trim text = [] ∨ (trim text).head? = some hashSign) :
    readLockLine reader text = .ok reader := by
  rw [readLockLine]
  exact if_pos h

theorem isKey_lockKey : ∀ key ∈ [kindKey, sourceKey, refKey, packageVersionKey, depsShaKey, declaredRefKey,
    dirKey, versionKey, manifestShaKey], IsKey key := by
  decide +kernel

theorem readLines_dependency (reader : LockReader) (d : ResolvedDependency) :
    (dependencyLines d).foldlM readLockLine reader =
      .ok { reader with done := reader.deps, current := some d, inMeta := false } := by
  obtain ⟨name, kind, source, declaredRef, resolvedRef, packageVersion, depsFingerprint, dir⟩ := d
  have hstep {r : LockReader} {d' : ResolvedDependency} {key value : Bytes} {texts : List Bytes}
    (hmeta : r.inMeta = false)
      (hcurrent : r.current = some d') (hkey : IsKey key) :
        (fieldLine key value :: texts).foldlM readLockLine r = texts.foldlM readLockLine
        { r with current := some (setField d' key value) } := by
    rw [List.foldlM_cons, readLockLine_field r hkey, readLockKey, hmeta, hcurrent]
    rfl
  have hkind : setField { name := name } kindKey kind.text = { name := name, kind := kind } := by
    cases kind <;> rfl
  rw [dependencyLines, List.append_assoc, List.cons_append, List.foldlM_cons,
    readLockLine_skipped reader (.inl rfl)]
  change (List.foldlM readLockLine reader _) = _
  rw [List.cons_append, List.foldlM_cons, readLockLine_section]
  change (List.foldlM readLockLine _ _) = _
  simp only [List.cons_append, List.nil_append]
  rw [hstep rfl rfl (isKey_lockKey _ (by simp)), hkind, hstep rfl rfl (isKey_lockKey _ (by simp)),
    hstep rfl rfl (isKey_lockKey _ (by simp)), hstep rfl rfl (isKey_lockKey _ (by simp)),
    hstep rfl rfl (isKey_lockKey _ (by simp))]
  by_cases href : declaredRef = []
  · rw [if_neg (not_not.mpr href), List.nil_append, hstep rfl rfl (isKey_lockKey _ (by simp)), href]
    rfl
  · rw [if_pos href, List.singleton_append, hstep rfl rfl (isKey_lockKey _ (by simp)),
      hstep rfl rfl (isKey_lockKey _ (by simp))]
    rfl

theorem readLines_dependencies (reader : LockReader) (deps : List ResolvedDependency) :
    ∃ reader', (deps.flatMap dependencyLines).foldlM readLockLine reader = .ok reader' ∧
      reader'.deps = reader.deps ++ deps ∧ reader'.manifestSha = reader.manifestSha := by
  induction deps generalizing reader with
  | nil => exact ⟨reader, rfl, (List.append_nil _).symm, rfl⟩
  | cons d deps ih =>
    obtain ⟨reader', hread, hdeps, hsha⟩ :=
      ih { reader with done := reader.deps, current := some d, inMeta := false }
    refine ⟨reader', ?_, ?_, hsha⟩
    · rw [List.flatMap_cons, List.foldlM_append, readLines_dependency]
      exact hread
    · rw [hdeps]
      exact List.append_assoc _ _ _

theorem newline_not_mem_quote (s : Bytes) : newline ∉ quote s := by
  have hbyte (c : UInt8) : newline ∉ quoteByte c := by
    rw [quoteByte]
    split
    · next hc => rcases hc with rfl | rfl <;> decide
    · split
      · decide
      · next hnewline =>
        repeat' split
        · decide
        · decide
        · exact fun hmem => hnewline (List.mem_singleton.mp hmem).symm
  intro hmem
  rw [quote, List.mem_cons, List.mem_append, List.mem_flatMap, List.mem_singleton] at hmem
  rcases hmem with heq | ⟨c, -, hc⟩ | heq
  · exact absurd heq (by decide)
  · exact hbyte c hc
  · exact absurd heq (by decide)

theorem newline_not_mem_fieldLine {key : Bytes} (hkey : IsKey key) (value : Bytes) :
    newline ∉ fieldLine key value := by
  intro hmem
  rw [fieldLine_eq, List.mem_append, List.mem_append] at hmem
  rcases hmem with (hmem | hmem) | hmem
  · exact absurd (hkey.2 newline hmem).1 (by decide)
  · exact absurd hmem (by decide)
  · exact newline_not_mem_quote value hmem

theorem newline_not_mem_name {name : Bytes} (h : isValidPackageName name = true) : newline ∉ name := by
  simp only [isValidPackageName, Bool.and_eq_true, List.all_eq_true] at h
  exact fun hmem => absurd (h.1.2 newline hmem) (by decide)

theorem newline_not_mem_lockLines {deps : List ResolvedDependency}
    (hnames : ∀ d ∈ deps, isValidPackageName d.name = true)
    (manifestSha : Bytes) : ∀ text ∈ lockLines deps manifestSha, newline ∉ text := by
  intro text htext
  rcases List.mem_append.mp htext with htext | htext
  · rcases List.mem_append.mp htext with htext | htext
    · exact (show ∀ text ∈ lockComments, newline ∉ text by decide +kernel) text htext
    · simp only [List.mem_cons, List.not_mem_nil, or_false] at htext
      rcases htext with rfl | rfl | rfl | rfl
      · exact List.not_mem_nil
      · decide
      · exact newline_not_mem_fieldLine (isKey_lockKey _ (by simp)) _
      · exact newline_not_mem_fieldLine (isKey_lockKey _ (by simp)) _
  · obtain ⟨d, hd, htext⟩ := List.mem_flatMap.mp htext
    have hsection : newline ∉ sectionLine (dependencyPrefix ++ d.name) := by
      rw [sectionLine, List.mem_cons, List.mem_append, List.mem_append]
      have hname := newline_not_mem_name (hnames d hd)
      rintro (heq | (hmem | hmem) | hmem)
      · exact absurd heq (by decide)
      · exact absurd hmem (by decide)
      · exact hname hmem
      · exact absurd hmem (by decide)
    rw [dependencyLines] at htext
    simp only [List.mem_append, List.mem_cons, List.not_mem_nil, or_false] at htext
    rcases htext with ((rfl | rfl | rfl | rfl | rfl | rfl | rfl) | hopt) | rfl
    · exact List.not_mem_nil
    · exact hsection
    · exact newline_not_mem_fieldLine (isKey_lockKey _ (by simp)) _
    · exact newline_not_mem_fieldLine (isKey_lockKey _ (by simp)) _
    · exact newline_not_mem_fieldLine (isKey_lockKey _ (by simp)) _
    · exact newline_not_mem_fieldLine (isKey_lockKey _ (by simp)) _
    · exact newline_not_mem_fieldLine (isKey_lockKey _ (by simp)) _
    · split at hopt
      · rw [List.mem_singleton.mp hopt]
        exact newline_not_mem_fieldLine (isKey_lockKey _ (by simp)) _
      · nomatch hopt
    · exact newline_not_mem_fieldLine (isKey_lockKey _ (by simp)) _

/-- What was written is read back. -/
theorem readLockFile_writeLockFile {deps : List ResolvedDependency}
    (hnames : ∀ d ∈ deps, isValidPackageName d.name = true) (manifestSha : Bytes) :
    readLockFile (some (writeLockFile deps manifestSha)) =
      .ok { manifestSha := manifestSha, deps := deps } := by
  have hlines := splitOn_lines (newline_not_mem_lockLines hnames manifestSha)
  obtain ⟨reader, hread, hdeps, hsha⟩ :=
    readLines_dependencies { manifestSha := manifestSha, inMeta := true } deps
  have hhead : (lockComments ++ [[], sectionLine metaSection, fieldLine versionKey ['1'.toUInt8],
      fieldLine manifestShaKey manifestSha]).foldlM readLockLine {} =
      .ok { manifestSha := manifestSha, inMeta := true } := by
    have hskipped : (lockComments ++ [[], sectionLine metaSection,
      fieldLine versionKey ['1'.toUInt8]]).foldlM readLockLine {} = .ok { inMeta := true } := by rfl
    have hsha : readLockLine { inMeta := true } (fieldLine manifestShaKey manifestSha) =
        .ok { manifestSha := manifestSha, inMeta := true } :=
          readLockLine_field _ (isKey_lockKey _ (by simp)) _
    rw [show lockComments ++ [[], sectionLine metaSection, fieldLine versionKey ['1'.toUInt8],
      fieldLine manifestShaKey manifestSha] =
      (lockComments ++ [[], sectionLine metaSection, fieldLine versionKey ['1'.toUInt8]]) ++
      [fieldLine manifestShaKey manifestSha]
      from rfl, List.foldlM_append, hskipped]
    exact congrArg (Except.bind · pure) hsha
  have hall : (lockLines deps manifestSha ++ [[]]).foldlM readLockLine {} = .ok reader := by
    rw [lockLines, List.foldlM_append, List.foldlM_append, hhead]
    change ((List.foldlM readLockLine _ _) >>= _) = _
    rw [hread]
    have hlast : readLockLine reader [] = .ok reader := readLockLine_skipped reader (.inl rfl)
    exact congrArg (Except.bind · pure) hlast
  rw [readLockFile, writeLockFile, hlines, hall]
  change Except.ok _ = _
  rw [hdeps, hsha]
  rfl

/-- Two dependencies whose fields look like sections, comments, escapes and line ends. -/
def hostileDependencies : List ResolvedDependency :=
  [{ name := ['a'.toUInt8], kind := .path, source := [openBracket, closeBracket, newline, hashSign],
     declaredRef := [32, backslash], resolvedRef := [quoteMark, equalsSign, quoteMark, 32],
     packageVersion := [backslash, 'n'.toUInt8], dir := [13, newline, backslash, backslash] },
   { name := ['b'.toUInt8], depsFingerprint := [hashSign, 0, 255, 9] }]

theorem readLockFile_hostile :
    readLockFile (some (writeLockFile hostileDependencies [quoteMark, newline, backslash])) =
      .ok { manifestSha := [quoteMark, newline, backslash], deps := hostileDependencies } :=
  readLockFile_writeLockFile (by decide) _

end zl.pkg
